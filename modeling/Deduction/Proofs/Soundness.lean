import Deduction.Logic
import Deduction.Proofs.Answers

/-!
# Soundness of the propositional rules

A valuation says of every expression that is not built by a connective whether it is true, and
the truth tables say the rest; a sub-proof counts as an implication. An instance of a template
is true under a valuation exactly when the template is true under the valuation that asks for
the instances, so a rule that is valid as a scheme is valid in all its instances. Since every
answer of a call completes an instance of the rule, what the rules derive is true as soon as
what they are given is.

## Main definitions

* `Propositional.connective?`, `Propositional.holds`: truth tables and truth under a valuation.
* `Propositional.Valid`: what is given entails what is concluded.

## Main results

* `Propositional.holds_fill`: truth of an instance.
* `Propositional.Valid.holds_fill`: the instances of a valid rule are valid.
* `Propositional.valid_of_mem_rules`: the propositional rules are valid.
* `Propositional.apply_sound`: answers of the propositional catalogue preserve truth.
-/

namespace Deduction

namespace Propositional

/-! ### Truth -/

/-- The truth table of a connective with two arguments. A sub-proof `infer` is read as an
implication. -/
def connective? : String → Option (Bool → Bool → Bool)
  | "and" => some fun a b => a && b
  | "or" => some fun a b => a || b
  | "impl" => some fun a b => !a || b
  | "infer" => some fun a b => !a || b
  | "equiv" => some fun a b => a == b
  | _ => none

/-- Truth under a valuation, which decides on all expressions that are not built by a
connective with the right number of arguments. -/
def holds (v : Term → Bool) : Term → Bool
  | .atom "truth" => true
  | .atom "contradiction" => false
  | .app (.atom "not") [p] => !holds v p
  | .app (.atom op) [p, q] => match connective? op with
    | some f => f (holds v p) (holds v q)
    | none => v (.app (.atom op) [p, q])
  | t => v t

/-- **Truth of an instance.** An instance is true when the template is, under the valuation that
asks for instances. -/
theorem holds_fill (v : Term → Bool) (α : String → Term) (t : Term) :
    holds v (t.fill α) = holds (fun u => holds v (u.fill α)) t := by
  fun_induction holds (fun u => holds v (u.fill α)) t with
  | case1 => simp [Term.fill, Term.isKeyword, Term.keywords, holds]
  | case2 => simp [Term.fill, Term.isKeyword, Term.keywords, holds]
  | case3 p ih => simp [Term.fill, Term.fillAll, holds, ih]
  | case4 op p q f hf ihp ihq => simp [Term.fill, Term.fillAll, holds, hf, ihp, ihq]
  | case5 op p q hf => rfl
  | case6 t => rfl

/-! ### Validity -/

/-- What is given entails what is concluded, under every valuation. -/
def Valid (r : Rule) : Prop :=
  ∀ v, (∀ g ∈ r.given, holds v g) → ∀ q ∈ r.conclusion, holds v q

section

variable (v : Term → Bool) (p q : Term)

@[simp] theorem holds_truth : holds v truth = true := rfl

@[simp] theorem holds_contradiction : holds v contradiction = false := rfl

@[simp] theorem holds_neg : holds v (neg p) = !holds v p := rfl

@[simp] theorem holds_conj : holds v (conj p q) = (holds v p && holds v q) := rfl

@[simp] theorem holds_disj : holds v (disj p q) = (holds v p || holds v q) := rfl

@[simp] theorem holds_imp : holds v (imp p q) = (!holds v p || holds v q) := rfl

@[simp] theorem holds_infer : holds v (infer p q) = (!holds v p || holds v q) := rfl

@[simp] theorem holds_equiv : holds v (equiv p q) = (holds v p == holds v q) := rfl

end

/-- **The propositional rules are valid.** Only the truth values of the three letters matter. -/
theorem valid_of_mem_rules {r : Rule} (hr : r ∈ rules) : Valid r := by
  intro v
  revert r
  simp only [rules, basicRules, theorems, List.cons_append, List.nil_append,
    List.forall_mem_cons, Rule.plain, holds_truth, holds_contradiction, holds_neg, holds_conj,
    holds_disj, holds_imp, holds_infer, holds_equiv, List.not_mem_nil,
    false_implies, implies_true, and_true]
  -- One truth table for each rule is left.
  generalize holds v A = a, holds v B = b, holds v C = c
  cases a <;> cases b <;> cases c <;> decide

/-- The instances of a valid rule are valid: the truth of instances is truth under another
valuation. -/
theorem Valid.holds_fill {r : Rule} (h : Valid r) (α : String → Term) (v : Term → Bool)
    (hgiven : ∀ g ∈ r.given.map (Term.fill α), holds v g) :
    ∀ q ∈ r.conclusion.map (Term.fill α), holds v q := by
  rw [List.forall_mem_map] at hgiven ⊢
  intro q hq
  rw [Propositional.holds_fill]
  refine h _ (fun g hg => ?_) q hq
  rw [← Propositional.holds_fill]
  exact hgiven g hg

/-- The propositional rules are accepted, hold no logic variables and have no auxiliary
inputs. -/
theorem accepted_of_mem_rules {r : Rule} (hr : r ∈ rules) :
    (r.Accepted ∧ r.IsVarFree) ∧ r.extra = [] := by
  have hall : ∀ r ∈ rules, r.id.isEmpty = false ∧ (∀ t ∈ r.templatesOf, t.isExpr) ∧
      r.IsVarFree ∧ r.extra.isEmpty := by decide
  obtain ⟨hid, hexpr, hfree, hextra⟩ := hall r hr
  exact ⟨⟨Rule.accepted_of_isExpr hid hexpr, hfree⟩, List.isEmpty_iff.mp hextra⟩

/-! ### The catalogue -/

/-- **Answers of the propositional catalogue preserve truth.** Put the answer of a call, in any
direction, in place of its wildcards. In relation order the arguments are then what is given and
what is concluded, and under every valuation the conclusions are true if all that is given
is. -/
theorem apply_sound (logic : Logic) (hlogic : Logic.lookup (.atom "prop") = .ok logic)
    (strict : Bool) (c : Catalogue) (hc : logic.catalogue strict = .ok c) (call : Call)
    (hfree : ∀ a ∈ call.args, a.isVarFree) (serial : Int) (answer : Answer)
    (h : c.apply call serial = .ok answer) :
    ∃ e exprs givens conclusions, c.lookup call.rule = .ok e ∧
      Term.normalizeAll (Call.fillWildcards call.args answer.toList) = .ok exprs ∧
      Call.relationOrder call.direction exprs = givens ++ conclusions ∧
      givens.length = e.rule.given.length ∧ conclusions.length = e.rule.conclusion.length ∧
      ∀ v, (∀ g ∈ givens, holds v g) → ∀ q ∈ conclusions, holds v q := by
  obtain rfl : logic = .propositional := (Except.ok.inj hlogic).symm
  have hholds : c.Holds (· ∈ rules) := Catalogue.holds_of_ofRules hc
  have haccepted := hholds.mono fun r hr => (accepted_of_mem_rules hr).1
  obtain ⟨e, exprs, α, hentry, hexprs, hinst⟩ :=
    Catalogue.exists_instance_of_apply haccepted hfree h
  have hrule : e.rule ∈ rules :=
    (hholds.eq_ofRule e (Catalogue.mem_entries_of_entryFor hentry)).1
  rw [Rule.inputs, (accepted_of_mem_rules hrule).2, List.append_nil, List.map_append] at hinst
  exact ⟨e, exprs, _, _, Catalogue.lookup_of_entryFor hentry, hexprs, hinst, List.length_map _,
    List.length_map _, (valid_of_mem_rules hrule).holds_fill α⟩

/-- Modus ponens used backward from `Q` alone: the answer is the pair of `_0` and
`(impl _0 Q)`, which together entail `Q`. -/
theorem apply_sound_modus_ponens :
    ∃ c, Logic.propositional.catalogue false = .ok c ∧
      c.apply ⟨.atom "impl-e", [.atom "Q", .wildcard, .wildcard], some .backward, none⟩ 1 =
        .ok (.values [.atom "_0", imp (.atom "_0") (.atom "Q")]) ∧
      ∀ v, holds v (.atom "_0") → holds v (imp (.atom "_0") (.atom "Q")) →
        holds v (.atom "Q") := by
  have hcatalogue : Logic.propositional.catalogue false =
      .ok ⟨rules.map .ofRule, .empty, false⟩ := rfl
  have happly : (Catalogue.mk (rules.map .ofRule) .empty false).apply
      ⟨.atom "impl-e", [.atom "Q", .wildcard, .wildcard], some .backward, none⟩ 1 =
        .ok (.values [.atom "_0", imp (.atom "_0") (.atom "Q")]) := rfl
  refine ⟨_, hcatalogue, happly, ?_⟩
  obtain ⟨e, exprs, givens, conclusions, hlookup, hexprs, horder, hgivens, -, hsound⟩ :=
    apply_sound .propositional rfl false _ hcatalogue _ (by decide) 1 _ happly
  obtain rfl : [.atom "Q", .atom "_0", imp (.atom "_0") (.atom "Q")] = exprs :=
    Except.ok.inj hexprs
  obtain rfl : .ofRule (.plain "impl-e" [A, imp A B] [B]) = e := Except.ok.inj hlookup
  have hsplit : [.atom "_0", imp (.atom "_0") (.atom "Q")] ++ [.atom "Q"] =
      givens ++ conclusions := horder
  obtain ⟨rfl, rfl⟩ := List.append_inj hsplit hgivens.symm
  intro v hplaceholder himp
  have hgiven : ∀ g ∈ [.atom "_0", imp (.atom "_0") (.atom "Q")], holds v g :=
    List.forall_mem_cons.mpr ⟨hplaceholder, List.forall_mem_singleton.mpr himp⟩
  exact hsound v hgiven _ (List.mem_singleton_self _)

end Propositional

end Deduction
