import Deduction.Logic
import Deduction.Proofs.Answers

/-!
# Soundness of the labelled temporal rules

The states are the natural numbers, each followed by the next one, and a label stands for a state.
An interpretation says which state that is, and decides on every formula and every statement that
is not built by an operator of the logic. Formulas are true or false in a state; statements, such
as `(at [i] A)` and `(<= i j)`, are true or false altogether.

An instance of a template is true under an interpretation exactly when the template is true under
the interpretation that asks for the instances. So a rule that is valid as a scheme is valid in all
its instances, and what the engine derives by it is true as soon as what it is given is.

Four rules are not valid in this sense. They speak of a state that has to be fresh, which no
template can say: `serial` and `succ` make up a state, `always-i` and `finally-e` discharge
assumptions about one.

## Main definitions

* `Temporal.Interpretation`: states for labels, and truth of what no operator builds.
* `Temporal.Interpretation.HoldsAt`, `Temporal.Interpretation.Holds`: truth of formulas in a state,
  and truth of statements.
* `Temporal.Valid`: what is given entails what is concluded.

## Main results

* `Temporal.Interpretation.holds_fill`: truth of an instance.
* `Temporal.valid_iff_of_mem_rules`: the valid rules are those that ask for no fresh state.
* `Temporal.conclusions_hold_of_apply`: answers of the temporal catalogue preserve truth.
-/

namespace Deduction

namespace Temporal

open Propositional (A B conj contradiction imp infer neg)

/-! ### Truth -/

/-- States for labels, and truth of what no operator of the logic builds. -/
structure Interpretation where
  /-- The state that a label stands for. -/
  state : Term → Nat
  /-- Truth of a formula in a state. -/
  formula : Nat → Term → Prop
  /-- Truth of a statement. -/
  statement : Term → Prop

namespace Interpretation

variable (m : Interpretation)

/-- Truth of a formula in a state. The interpretation decides on all formulas that are not built by
an operator with the right number of arguments. -/
def HoldsAt : Term → Nat → Prop
  | .atom "contradiction", _ => False
  | .app (.atom "not") [p], n => ¬ HoldsAt p n
  | .app (.atom "and") [p, q], n => HoldsAt p n ∧ HoldsAt q n
  | .app (.atom "impl") [p, q], n => HoldsAt p n → HoldsAt q n
  | .app (.atom "always") [p], n => ∀ k, n ≤ k → HoldsAt p k
  | .app (.atom "finally") [p], n => ∃ k, n ≤ k ∧ HoldsAt p k
  | .app (.atom "atnext") [p], n => HoldsAt p (n + 1)
  | p, n => m.formula n p

/-- Truth of a statement. A sub-proof `infer` is read as an implication, and every state is
actual. -/
def Holds : Term → Prop
  | .app (.atom "<=") [i, j] => m.state i ≤ m.state j
  | .app (.atom "succ") [i, j] => m.state j = m.state i + 1
  | .app (.atom "actual") [_] => True
  | .app (.atom "infer") [s, t] => Holds s → Holds t
  | .app (.atom "at") [.group [i], p] => m.HoldsAt p (m.state i)
  | s => m.statement s

/-- The interpretation that asks for the instances of labels, formulas and statements. -/
def fill (α : String → Term) : Interpretation where
  state i := m.state (i.fill α)
  formula n p := m.HoldsAt (p.fill α) n
  statement s := m.Holds (s.fill α)

/-- Truth of an instance of a formula. The state changes below a temporal operator, so the
induction is for all states. -/
theorem holdsAt_fill (α : String → Term) (p : Term) (n : Nat) :
    m.HoldsAt (p.fill α) n ↔ (m.fill α).HoldsAt p n := by
  fun_induction HoldsAt (m.fill α) p n with
  | case1 n => simp [Term.fill, Term.isKeyword, Term.keywords, HoldsAt]
  | case2 p n ih => simp [Term.fill, Term.fillAll, HoldsAt, ih]
  | case3 p q n ihp ihq => simp [Term.fill, Term.fillAll, HoldsAt, ihp, ihq]
  | case4 p q n ihp ihq => simp [Term.fill, Term.fillAll, HoldsAt, ihp, ihq]
  | case5 p n ih => simp [Term.fill, Term.fillAll, HoldsAt, ih]
  | case6 p n ih => simp [Term.fill, Term.fillAll, HoldsAt, ih]
  | case7 p n ih => simp [Term.fill, Term.fillAll, HoldsAt, ih]
  | case8 p n => rfl

/-- **Truth of an instance.** An instance of a statement is true when the template is, under the
interpretation that asks for instances. -/
theorem holds_fill (α : String → Term) (s : Term) :
    m.Holds (s.fill α) ↔ (m.fill α).Holds s := by
  fun_induction Holds (m.fill α) s with
  | case1 i j => rfl
  | case2 i j => rfl
  | case3 i => rfl
  | case4 s t ihs iht => simp [Term.fill, Term.fillAll, Holds, ihs, iht]
  | case5 i p => exact m.holdsAt_fill α p _
  | case6 s => rfl

section

variable (i j p q : Term) (n : Nat)

@[simp] theorem holds_reach : m.Holds (reach i j) ↔ m.state i ≤ m.state j := Iff.rfl

@[simp] theorem holds_succ : m.Holds (succ i j) ↔ m.state j = m.state i + 1 := Iff.rfl

@[simp] theorem holds_actual : m.Holds (actual i) := trivial

@[simp] theorem holds_infer : m.Holds (infer p q) ↔ (m.Holds p → m.Holds q) := Iff.rfl

@[simp] theorem holds_holdsAt : m.Holds (holdsAt i p) ↔ m.HoldsAt p (m.state i) := Iff.rfl

@[simp] theorem holdsAt_contradiction : ¬ m.HoldsAt contradiction n := id

@[simp] theorem holdsAt_neg : m.HoldsAt (neg p) n ↔ ¬ m.HoldsAt p n := Iff.rfl

@[simp] theorem holdsAt_conj : m.HoldsAt (conj p q) n ↔ m.HoldsAt p n ∧ m.HoldsAt q n := Iff.rfl

@[simp] theorem holdsAt_imp : m.HoldsAt (imp p q) n ↔ (m.HoldsAt p n → m.HoldsAt q n) := Iff.rfl

@[simp] theorem holdsAt_always : m.HoldsAt (always p) n ↔ ∀ k, n ≤ k → m.HoldsAt p k := Iff.rfl

@[simp] theorem holdsAt_eventually :
    m.HoldsAt (eventually p) n ↔ ∃ k, n ≤ k ∧ m.HoldsAt p k := Iff.rfl

@[simp] theorem holdsAt_atnext : m.HoldsAt (atnext p) n ↔ m.HoldsAt p (n + 1) := Iff.rfl

end

end Interpretation

/-! ### Validity -/

/-- What is given entails what is concluded, under every interpretation. -/
def Valid (r : Rule) : Prop :=
  ∀ m : Interpretation, (∀ g ∈ r.given, m.Holds g) → ∀ q ∈ r.conclusion, m.Holds q

/-- The instances of a valid rule are valid: the truth of instances is truth under another
interpretation. -/
theorem Valid.holds_fill {r : Rule} (h : Valid r) (α : String → Term) (m : Interpretation)
    (hgiven : ∀ g ∈ r.given.map (Term.fill α), m.Holds g) :
    ∀ q ∈ r.conclusion.map (Term.fill α), m.Holds q := by
  rw [List.forall_mem_map] at hgiven ⊢
  intro q hq
  rw [m.holds_fill]
  refine h _ (fun g hg => ?_) q hq
  rw [← m.holds_fill]
  exact hgiven g hg

/-- The rules that speak of a fresh state. -/
def freshStateRules : List String := ["serial", "succ", "always-i", "finally-e"]

/-- Reachability is a preorder that contains the steps to the next state. -/
theorem valid_of_mem_frameRules {r : Rule} (hr : r ∈ frameRules) (hid : r.id ∉ freshStateRules) :
    Valid r := by
  intro m
  revert r
  simp only [frameRules, List.forall_mem_cons, Rule.plain, List.not_mem_nil, false_implies,
    implies_true, and_true, true_implies, Interpretation.holds_reach, Interpretation.holds_succ]
  refine ⟨fun _ => le_rfl, fun _ => ?_, fun h => absurd (by decide) h,
    fun h => absurd (by decide) h, fun _ => ?_⟩
  · rintro ⟨hij, hjk⟩
    exact le_trans hij hjk
  · intro hsucc
    omega

/-- In one state the rules are those of propositional logic. A contradiction is false in every
state, so its label does not matter. -/
theorem valid_of_mem_labelledRules {r : Rule} (hr : r ∈ labelledRules) : Valid r := by
  intro m
  revert r
  simp only [labelledRules, List.forall_mem_cons, Rule.plain, List.not_mem_nil, false_implies,
    implies_true, and_true, Interpretation.holds_holdsAt, Interpretation.holds_infer,
    Interpretation.holdsAt_conj, Interpretation.holdsAt_imp, Interpretation.holdsAt_neg,
    Interpretation.holdsAt_contradiction]
  -- Only the truth of the two letters in the state of the first label matters.
  generalize m.HoldsAt A (m.state i) = a, m.HoldsAt B (m.state i) = b
  tauto

/-- The temporal operators look from a state at those that it reaches. -/
theorem valid_of_mem_temporalRules {r : Rule} (hr : r ∈ temporalRules)
    (hid : r.id ∉ freshStateRules) : Valid r := by
  intro m
  revert r
  simp only [temporalRules, List.forall_mem_cons, Rule.plain, List.not_mem_nil, false_implies,
    implies_true, and_true, Interpretation.holds_holdsAt, Interpretation.holds_reach,
    Interpretation.holds_succ, Interpretation.holds_actual, Interpretation.holdsAt_always,
    Interpretation.holdsAt_eventually, Interpretation.holdsAt_atnext]
  refine ⟨fun h => absurd (by decide) h, fun _ => ?_, fun _ => ?_,
    fun h => absurd (by decide) h, fun _ => ?_, fun _ => ?_, fun _ => ?_⟩
  · rintro ⟨halways, hreach⟩
    exact halways _ hreach
  · rintro ⟨hlater, hreach⟩
    exact ⟨_, hreach, hlater⟩
  · rintro ⟨hnext, hsucc⟩
    rwa [← hsucc]
  · rintro ⟨hnext, hsucc⟩
    rwa [hsucc]
  · rintro ⟨-, halways⟩
    exact halways _ le_rfl

/-- The label `i` stands for state 1 and all others for state 0, the letter `A` is true in state 1
only, and nothing else is true. -/
def lateStart : Interpretation where
  state label := if label.isAtom "i" then 1 else 0
  formula n p := n = 1 ∧ p.isAtom "A"
  statement _ := False

/-- The rules that speak of a fresh state fail where the state is an old one: no state but the
first one reaches state 0. -/
theorem not_valid_of_mem_freshStateRules {r : Rule} (hr : r ∈ rules)
    (hid : r.id ∈ freshStateRules) : ¬ Valid r := by
  intro hvalid
  have hlate := hvalid lateStart
  have hi : lateStart.state i = 1 := rfl
  have hj : lateStart.state j = 0 := rfl
  have hA : ∀ n, lateStart.HoldsAt A n ↔ n = 1 := fun n => and_iff_left rfl
  have hB : ∀ n, ¬ lateStart.HoldsAt B n := fun n h => absurd h.2 (by decide)
  have hgroup : ∀ ts, ¬ lateStart.Holds (.group ts) := fun ts => id
  clear hvalid
  revert r
  simp only [rules, frameRules, labelledRules, temporalRules, List.cons_append, List.nil_append,
    List.forall_mem_cons, Rule.plain]
  -- The conclusion of `always-i` fails in state 2, where `A` is false.
  have hlater : ∃ n, 1 ≤ n ∧ ¬ n = 1 := ⟨2, by decide⟩
  simp [freshStateRules, hi, hj, hA, hB, hgroup, hlater]

/-- **The valid rules are those that speak of no fresh state.** -/
theorem valid_iff_of_mem_rules {r : Rule} (hr : r ∈ rules) :
    Valid r ↔ r.id ∉ freshStateRules := by
  refine ⟨fun h hid => not_valid_of_mem_freshStateRules hr hid h, fun hid => ?_⟩
  rcases List.mem_append.mp hr with hr | hr
  · rcases List.mem_append.mp hr with hr | hr
    · exact valid_of_mem_frameRules hr hid
    · exact valid_of_mem_labelledRules hr
  · exact valid_of_mem_temporalRules hr hid

/-- The temporal rules are accepted, hold no logic variables and have no auxiliary inputs. -/
theorem accepted_of_mem_rules {r : Rule} (hr : r ∈ rules) :
    (r.Accepted ∧ r.IsVarFree) ∧ r.extra = [] := by
  have hall : ∀ r ∈ rules, r.id.isEmpty = false ∧ (∀ t ∈ r.templatesOf, t.isExpr) ∧
      r.IsVarFree ∧ r.extra.isEmpty := by decide
  obtain ⟨hid, hexpr, hfree, hextra⟩ := hall r hr
  exact ⟨⟨Rule.accepted_of_isExpr hid hexpr, hfree⟩, List.isEmpty_iff.mp hextra⟩

/-! ### The catalogue -/

/-- **Answers of the temporal catalogue preserve truth.** Take a call, in any direction, of a rule
that speaks of no fresh state, and put its answer in place of its wildcards. In relation order the
arguments are then what is given and what is concluded, and under every interpretation the
conclusions are true if all that is given is. -/
theorem conclusions_hold_of_apply (logic : Logic) (hlogic : Logic.lookup (.atom "ltl") = .ok logic)
    (strict : Bool) (c : Catalogue) (hc : logic.catalogue strict = .ok c) (call : Call)
    (hrule : ∀ id ∈ freshStateRules, call.rule ≠ .atom id)
    (hfree : ∀ a ∈ call.args, a.isVarFree) (serial : Int) (answer : Answer)
    (h : c.apply call serial = .ok answer) :
    ∃ e exprs givens conclusions, c.lookup call.rule = .ok e ∧
      Term.normalizeAll (Call.fillWildcards call.args answer.toList) = .ok exprs ∧
      Call.relationOrder call.direction exprs = givens ++ conclusions ∧
      givens.length = e.rule.given.length ∧ conclusions.length = e.rule.conclusion.length ∧
      ∀ m : Interpretation, (∀ g ∈ givens, m.Holds g) → ∀ q ∈ conclusions, m.Holds q := by
  obtain rfl : logic = .temporal := (Except.ok.inj hlogic).symm
  have hholds : c.Holds (· ∈ rules) := Catalogue.holds_of_ofRules hc
  have haccepted := hholds.mono fun r hr => (accepted_of_mem_rules hr).1
  obtain ⟨e, exprs, α, hentry, hexprs, hinst⟩ :=
    Catalogue.exists_instance_of_apply haccepted hfree h
  have hlookup := Catalogue.lookup_of_entryFor hentry
  have hmem : e.rule ∈ rules := (hholds.eq_ofRule e (Catalogue.mem_entries_of_lookup hlookup)).1
  have hvalid : Valid e.rule := (valid_iff_of_mem_rules hmem).mpr fun hid =>
    hrule e.rule.id hid (Catalogue.eq_atom_of_lookup hlookup)
  rw [Rule.inputs, (accepted_of_mem_rules hmem).2, List.append_nil, List.map_append] at hinst
  exact ⟨e, exprs, _, _, hlookup, hexprs, hinst, List.length_map _, List.length_map _,
    hvalid.holds_fill α⟩

/-- The introduction of `atnext` used backward from `(at [s] (atnext P))` alone: the answer makes
up a state `_0`, in which `P` is to hold and which is to come directly after `s`. These two entail
the conclusion. -/
theorem conclusions_hold_of_apply_atnext :
    ∃ c, Logic.temporal.catalogue false = .ok c ∧
      c.apply ⟨.atom "atnext-i", [holdsAt (.atom "s") (atnext (.atom "P")), .wildcard, .wildcard],
        some .backward, none⟩ 1 =
        .ok (.values [holdsAt (.atom "_0") (.atom "P"), succ (.atom "s") (.atom "_0")]) ∧
      ∀ m : Interpretation, m.Holds (holdsAt (.atom "_0") (.atom "P")) →
        m.Holds (succ (.atom "s") (.atom "_0")) →
        m.Holds (holdsAt (.atom "s") (atnext (.atom "P"))) := by
  have hcatalogue : Logic.temporal.catalogue false =
      .ok ⟨rules.map .ofRule, .empty, false⟩ := rfl
  have happly : (Catalogue.mk (rules.map .ofRule) .empty false).apply
      ⟨.atom "atnext-i", [holdsAt (.atom "s") (atnext (.atom "P")), .wildcard, .wildcard],
        some .backward, none⟩ 1 =
      .ok (.values [holdsAt (.atom "_0") (.atom "P"), succ (.atom "s") (.atom "_0")]) := rfl
  refine ⟨_, hcatalogue, happly, ?_⟩
  obtain ⟨e, exprs, givens, conclusions, hlookup, hexprs, horder, hgivens, -, hsound⟩ :=
    conclusions_hold_of_apply .temporal rfl false _ hcatalogue _ (by simp [freshStateRules])
      (by decide) 1 _ happly
  obtain rfl : [holdsAt (.atom "s") (atnext (.atom "P")), holdsAt (.atom "_0") (.atom "P"),
      succ (.atom "s") (.atom "_0")] = exprs := Except.ok.inj hexprs
  obtain rfl : .ofRule (.plain "atnext-i" [holdsAt j A, succ i j] [holdsAt i (atnext A)]) = e :=
    Except.ok.inj hlookup
  have hsplit : [holdsAt (.atom "_0") (.atom "P"), succ (.atom "s") (.atom "_0")] ++
      [holdsAt (.atom "s") (atnext (.atom "P"))] = givens ++ conclusions := horder
  obtain ⟨rfl, rfl⟩ := List.append_inj hsplit hgivens.symm
  intro m hstate hsucc
  have hgiven : ∀ g ∈ [holdsAt (.atom "_0") (.atom "P"), succ (.atom "s") (.atom "_0")],
      m.Holds g :=
    List.forall_mem_cons.mpr ⟨hstate, List.forall_mem_singleton.mpr hsucc⟩
  exact hsound m hgiven _ (List.mem_singleton_self _)

end Temporal

end Deduction
