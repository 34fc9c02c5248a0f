import Deduction.Proofs.Backward
import Deduction.Proofs.Placeholders

/-!
# Determined conclusions

A strict catalogue refuses rules with pattern variables that neither the givens nor the extras
mention. Here is what that is good for. Take a rule with its inputs supplied and its conclusions
unknown. Every pattern variable that an input template mentions has a part of an input as its
value, which leaves nothing open. All others are *loose*: since the solution is most general, each
of them stays a variable, and no two of them become the same. So what the answer leaves open are
exactly the loose names that the conclusions mention, one variable for each, and the conclusions
of a rule that strictness accepts are determined by its inputs.

## Main definitions

* `Rule.looseNames`: the unreachable names that conclusions mention.
* `Rule.Infers`: a solution with ground inputs and unknown conclusions.
* `Rule.valueOf`: the value that a solution gives a name.

## Main results

* `Rule.Infers.isGround_valueOf`: names that the inputs mention have ground values.
* `Rule.Infers.exists_bind_valueOf`: the other names can still be given any values.
* `Rule.Infers.exists_looseVar`: hence they are variables of their own.
* `Catalogue.openVars_eq_looseNames`: what an answer leaves open.
-/

namespace Deduction

/-! ### Lists -/

/-- First appearances in a list that is continued. -/
theorem firsts_append {α : Type} [DecidableEq α] (l m : List α) :
    firsts (l ++ m) = firsts l ++ (firsts m).filter (· ∉ l) := by
  induction l with
  | nil => simp [firsts]
  | cons a l ih =>
      rw [List.cons_append, firsts, firsts, ih, List.filter_append, List.filter_filter,
        List.cons_append]
      congr 2
      refine List.filter_congr fun b _ => ?_
      simp

/-- Different variables can be given any values. -/
theorem exists_map_eq_of_nodup {vs : List Var} (hvs : vs.Nodup) {ts : List Term}
    (hlen : vs.length = ts.length) : ∃ θ : Var → Term, vs.map θ = ts := by
  induction vs generalizing ts with
  | nil => exact ⟨.var, (List.length_eq_zero_iff.mp hlen.symm).symm⟩
  | cons v vs ih =>
      obtain ⟨t, ts, rfl⟩ := List.exists_cons_of_length_eq_add_one hlen.symm
      obtain ⟨hv, hvs⟩ := List.nodup_cons.mp hvs
      obtain ⟨θ, hθ⟩ := ih hvs (Nat.succ.inj hlen)
      refine ⟨Function.update θ v t, ?_⟩
      rw [List.map_cons, Function.update_self, ← hθ]
      congr 1
      refine List.map_congr_left fun w hw => Function.update_of_ne ?_ t θ
      rintro rfl
      exact hv hw

/-- A walk over a list that makes one step for some elements and none for the others. -/
theorem flatMap_eq_map_filter {α β : Type} {f : α → β} {g : α → List β} {p : α → Bool}
    {l : List α} (hg : ∀ a ∈ l, g a = if p a then [f a] else []) :
    l.flatMap g = (l.filter p).map f := by
  induction l with
  | nil => rfl
  | cons a l ih =>
      rw [List.forall_mem_cons] at hg
      rw [List.flatMap_cons, hg.1, ih hg.2]
      by_cases ha : p a <;> simp [ha]

/-- Only a variable can become an atom as well as a group. -/
theorem Term.exists_eq_var_of_bind {t : Term} {θ θ' : Var → Term} {x : String}
    {items : List Term} (hatom : t.bind θ = .atom x) (hgroup : t.bind θ' = .group items) :
    ∃ v, t = .var v := by
  cases t with
  | var v => exact ⟨v, rfl⟩
  | group items => simp [bind] at hatom
  | _ => simp [bind] at hgroup

namespace Rule

/-! ### Loose names -/

/-- The unreachable names that the conclusions mention. -/
def looseNames (r : Rule) : List String :=
  r.unreachable.filter (· ∈ Term.patternNamesIn r.conclusion)

/-- The side conditions add nothing to what the conclusions mention. -/
theorem looseNames_eq_firsts (r : Rule) :
    r.looseNames =
      firsts ((Term.patternNamesIn r.conclusion).filter (· ∉ Term.patternNamesIn r.inputs)) := by
  have hsplit : Term.patternNamesIn (r.conclusion ++ r.checks) =
      Term.patternNamesIn r.conclusion ++ Term.patternNamesIn r.checks := by
    simp [Term.patternNamesIn_eq_flatMap]
  have hloose : (fun x => !(Term.patternNamesIn r.inputs).contains x) =
      fun x => decide (x ∉ Term.patternNamesIn r.inputs) := by
    funext x
    simp
  rw [looseNames, unreachable, hsplit, hloose, List.filter_append, firsts_append,
    List.filter_append]
  have hconclusion : ∀ x ∈ firsts ((Term.patternNamesIn r.conclusion).filter
      (· ∉ Term.patternNamesIn r.inputs)), decide (x ∈ Term.patternNamesIn r.conclusion) := by
    intro x hx
    simp only [mem_firsts, List.mem_filter] at hx
    simpa using hx.1
  have hchecks : ∀ x ∈ (firsts ((Term.patternNamesIn r.checks).filter
      (· ∉ Term.patternNamesIn r.inputs))).filter (· ∉ (Term.patternNamesIn r.conclusion).filter
        (· ∉ Term.patternNamesIn r.inputs)), ¬ decide (x ∈ Term.patternNamesIn r.conclusion) := by
    intro x hx
    simp only [List.mem_filter, mem_firsts, decide_eq_true_eq, not_and, not_not] at hx
    simpa using fun hmem => hx.1.2 (hx.2 hmem)
  rw [List.filter_eq_self.mpr hconclusion, List.filter_eq_nil_iff.mpr hchecks, List.append_nil]

theorem mem_looseNames {r : Rule} {x : String} :
    x ∈ r.looseNames ↔
      x ∈ Term.patternNamesIn r.conclusion ∧ x ∉ Term.patternNamesIn r.inputs := by
  simp [looseNames_eq_firsts]

/-- A rule that strictness accepts has no loose names. -/
theorem looseNames_of_validate {r : Rule} (h : r.validate true = .ok ()) : r.looseNames = [] := by
  have hempty : r.unreachable = [] := by
    by_contra hne
    simp [validate, hne] at h
  rw [looseNames, hempty, List.filter_nil]

/-! ### Solutions with ground inputs and unknown conclusions -/

/-- The value that a solution gives a name. -/
def valueOf (r : Rule) (serial : Int) (σ : Bindings) (x : String) : Term :=
  σ.image (slotOf serial r.compile.slots x)

/-- The solution `σ` of a run in which the inputs are ground expressions and the conclusions are
unknowns. -/
structure Infers (r : Rule) (serial : Int) (inputs : List Term) (unknowns : List Var)
    (σ : Bindings) : Prop where
  accepted : r.Accepted
  isVarFree : r.IsVarFree
  hygienic : r.Hygienic
  inputs_ground : ∀ a ∈ inputs, a.isExpr ∧ a.isGround
  length_inputs : inputs.length = r.inputs.length
  length_unknowns : unknowns.length = r.conclusion.length
  nodup : (unknowns ++ slotVars serial r.compile.slots).Nodup
  unifyAll : Bindings.empty.unifyAll
    (r.compile.equations serial (inputs ++ unknowns.map .var)) = some σ

namespace Infers

variable {r : Rule} {serial : Int} {inputs : List Term} {unknowns : List Var} {σ : Bindings}

/-- The solution is acyclic, and respected by the maps that fit the relation. -/
theorem spec (h : r.Infers serial inputs unknowns σ) :
    σ.Acyclic ∧ ∀ ψ, σ.RespectedBy ψ ↔
      r.compile.Fits (fun x => ψ (slotOf serial r.compile.slots x)) (inputs ++ unknowns.map ψ) := by
  have hexprs : ∀ a ∈ inputs ++ unknowns.map Term.var, a.isExpr := by
    intro a ha
    rcases List.mem_append.mp ha with ha | ha
    · exact (h.inputs_ground a ha).1
    · obtain ⟨v, -, rfl⟩ := List.mem_map.mp ha
      rfl
  have hlen : (inputs ++ unknowns.map Term.var).length = r.compile.arity := by
    simp [arity_compile, arity, Rule.inputs, h.length_inputs, h.length_unknowns]
  obtain ⟨hacyclic, -, hrespect⟩ :=
    (h.accepted.wellScoped h.isVarFree).solution_spec hexprs hlen h.unifyAll
  refine ⟨hacyclic, fun ψ => ?_⟩
  rw [hrespect ψ, List.map_append,
    Term.map_bind_of_isGround fun a ha => (h.inputs_ground a ha).2, List.map_map]
  rfl

/-- Under the solution, the inputs and the unknowns are an instance of the templates. -/
theorem eq_map_fill (h : r.Infers serial inputs unknowns σ) :
    inputs = r.inputs.map (Term.fill (r.valueOf serial σ)) ∧
      unknowns.map σ.image = r.conclusion.map (Term.fill (r.valueOf serial σ)) := by
  have hfits := (h.spec.2 σ.image).mp h.spec.1.respectedBy_image
  have heq := eq_map_fill_of_fits hfits
  rw [List.map_append] at heq
  exact List.append_inj heq (by rw [List.length_map, h.length_inputs])

/-- **Names that the inputs mention have ground values**: parts of the inputs. -/
theorem isGround_valueOf (h : r.Infers serial inputs unknowns σ) {x : String}
    (hx : x ∈ Term.patternNamesIn r.inputs) : (r.valueOf serial σ x).isGround := by
  rw [Term.patternNamesIn_eq_flatMap] at hx
  obtain ⟨t, ht, hxt⟩ := List.mem_flatMap.mp hx
  have hmem : t.fill (r.valueOf serial σ) ∈ inputs := by
    rw [h.eq_map_fill.1]
    exact List.mem_map_of_mem ht
  have htemplate : t.isGround :=
    h.isVarFree t (List.mem_append_left _ (List.mem_append_left _ ht))
  rw [Term.isGround_iff]
  intro v hv
  refine Term.isGround_iff.mp (h.inputs_ground _ hmem).2 v ?_
  rw [Term.vars_fill _ htemplate]
  exact List.mem_flatMap.mpr ⟨x, hxt, hv⟩

/-- **The other names can still be given any values.** Values that agree with the solution on the
names that the inputs mention are instances of the solution, all under one map. -/
theorem exists_bind_valueOf (h : r.Infers serial inputs unknowns σ) {β : String → Term}
    (hβ : ∀ x ∈ Term.patternNamesIn r.inputs, β x = r.valueOf serial σ x) :
    ∃ θ : Var → Term, ∀ x ∈ Term.patternNamesIn r.conclusion,
      (r.valueOf serial σ x).bind θ = β x := by
  obtain ⟨hunknowns, -, hdisjoint⟩ := List.nodup_append.mp h.nodup
  have hlen : unknowns.length = (r.conclusion.map (Term.fill β)).length := by
    rw [List.length_map, h.length_unknowns]
  obtain ⟨θ, hθ⟩ := exists_map_eq_of_nodup hunknowns hlen
  have hinputs : r.inputs.map (Term.fill β) = inputs := by
    rw [h.eq_map_fill.1]
    exact List.map_congr_left fun t ht =>
      Term.fill_congr fun x hx => hβ x (mem_patternNamesIn ht hx)
  -- The unknowns become the instances of the conclusions, and the slots get their values.
  have hfits := h.hygienic.fits_assign β
  have hvalues : (r.inputs ++ r.conclusion).map (Term.fill β) =
      inputs ++ unknowns.map (r.compile.extend serial (r.assign β) θ) := by
    rw [List.map_append, hinputs, ← hθ]
    congr 1
    exact List.map_congr_left fun v hv =>
      (if_neg fun hslot => hdisjoint v hv v hslot rfl).symm
  rw [hvalues, (h.accepted.wellScoped h.isVarFree).fits_congr
    (fun x hx => (Relation.extend_slotOf hx).symm), ← h.spec.2] at hfits
  refine ⟨r.compile.extend serial (r.assign β) θ, fun x hx => ?_⟩
  have hmem : x ∈ Term.patternNamesIn r.templatesOf := mem_patternNamesIn_of_subset
    (fun t ht => List.mem_append_left _ (List.mem_append_right _ ht)) hx
  calc (r.valueOf serial σ x).bind (r.compile.extend serial (r.assign β) θ)
      = r.compile.extend serial (r.assign β) θ (slotOf serial r.compile.slots x) :=
        h.spec.1.bind_apply hfits (.var _)
    _ = r.assign β x := Relation.extend_slotOf (mem_slots_of_mem_patternNamesIn hmem)
    _ = β x := h.hygienic.assign_of_mem β hmem

/-- **Loose names are variables of their own.** Each of them can become an atom as well as a group,
and all of them can become different atoms at once. -/
theorem exists_looseVar (h : r.Infers serial inputs unknowns σ) :
    ∃ f : String → Var, (∀ x ∈ r.looseNames, r.valueOf serial σ x = .var (f x)) ∧
      ∀ x ∈ r.looseNames, ∀ y ∈ r.looseNames, f x = f y → x = y := by
  have hinstance (β : String → Term) : ∃ θ : Var → Term, ∀ x ∈ r.looseNames,
      (r.valueOf serial σ x).bind θ = β x := by
    have hagree : ∀ x ∈ Term.patternNamesIn r.inputs,
        (if x ∈ Term.patternNamesIn r.inputs then r.valueOf serial σ x else β x) =
          r.valueOf serial σ x := fun x hx => if_pos hx
    obtain ⟨θ, hθ⟩ := h.exists_bind_valueOf hagree
    refine ⟨θ, fun x hx => ?_⟩
    obtain ⟨hconclusion, hinput⟩ := mem_looseNames.mp hx
    rw [hθ x hconclusion, if_neg hinput]
  obtain ⟨θ, hatom⟩ := hinstance .atom
  obtain ⟨θ', hgroup⟩ := hinstance fun _ => .group []
  have hvar : ∀ x, ∃ v, x ∈ r.looseNames → r.valueOf serial σ x = .var v := by
    intro x
    by_cases hx : x ∈ r.looseNames
    · obtain ⟨v, hv⟩ := Term.exists_eq_var_of_bind (hatom x hx) (hgroup x hx)
      exact ⟨v, fun _ => hv⟩
    · exact ⟨⟨x, serial⟩, fun hmem => absurd hmem hx⟩
  choose f hf using hvar
  refine ⟨f, hf, fun x hx y hy heq => ?_⟩
  have hsame : Term.atom x = Term.atom y := by
    rw [← hatom x hx, ← hatom y hy, hf x hx, hf y hy, heq]
  exact Term.atom.inj hsame

/-- **What the conclusions leave open**: one variable for each loose name, in the same order. -/
theorem firsts_varsIn (h : r.Infers serial inputs unknowns σ) :
    ∃ f : String → Var, (∀ x ∈ r.looseNames, ∀ y ∈ r.looseNames, f x = f y → x = y) ∧
      firsts (Term.varsIn (unknowns.map σ.image)) = r.looseNames.map f := by
  obtain ⟨f, hf, hinj⟩ := h.exists_looseVar
  refine ⟨f, hinj, ?_⟩
  have hground : ∀ t ∈ r.conclusion, t.isGround := fun t ht =>
    h.isVarFree t (List.mem_append_left _ (List.mem_append_right _ ht))
  have hvars : Term.varsIn (unknowns.map σ.image) =
      ((Term.patternNamesIn r.conclusion).filter (· ∉ Term.patternNamesIn r.inputs)).map f := by
    rw [h.eq_map_fill.2, Term.varsIn_map_fill _ hground]
    refine flatMap_eq_map_filter fun x hx => ?_
    by_cases hinput : x ∈ Term.patternNamesIn r.inputs
    · have hclosed : (r.valueOf serial σ x).vars = [] := by
        simpa [Term.isGround] using h.isGround_valueOf hinput
      simp [hinput, hclosed]
    · simp [hinput, hf x (mem_looseNames.mpr ⟨hx, hinput⟩), Term.vars]
  rw [hvars, looseNames_eq_firsts]
  refine firsts_map_of_injOn fun x hx y hy => hinj x ?_ y ?_
  · exact mem_looseNames.mpr (by simpa using hx)
  · exact mem_looseNames.mpr (by simpa using hy)

end Infers

end Rule

/-! ### Answers -/

/-- Opening nothing but wildcards. -/
theorem Call.openArgs_replicate {serial : Int} {n k : Nat} {unknowns : List Var} {out : List Term}
    (h : openArgs serial n (List.replicate k .wildcard) = .ok (unknowns, out)) :
    unknowns.length = k ∧ out = unknowns.map .var := by
  induction k generalizing n unknowns out with
  | zero =>
      obtain ⟨rfl, rfl⟩ := Prod.mk.inj (Except.ok.inj h)
      exact ⟨rfl, rfl⟩
  | succ k ih =>
      rw [List.replicate_succ] at h
      obtain ⟨vs, ts, hrest, rfl, rfl⟩ := openArgs_wildcard_eq_ok_iff.mp h
      obtain ⟨rfl, rfl⟩ := ih hrest
      exact ⟨rfl, rfl⟩

namespace Catalogue

/-- A call that supplies the inputs of a hygienic rule and asks for its conclusions is answered
from a solution of that form. -/
theorem exists_infers {c : Catalogue} (hc : c.Holds Rule.Accepted) {call : Call} {e : Entry}
    (hlookup : c.lookup call.rule = .ok e) (hv : e.rule.IsVarFree) (hhygienic : e.rule.Hygienic)
    (hdirection : call.direction ≠ some .backward) {inputs : List Term}
    (hargs : call.args = inputs ++ List.replicate e.rule.conclusion.length .wildcard)
    (hinputs : ∀ a ∈ inputs, a ≠ .wildcard ∧ a.isVarFree) {serial : Int} {unknowns : List Var}
    {σ : Bindings} (h : c.attempt call serial = .ok (unknowns, .solved σ)) :
    ∃ exprs, e.rule.Infers (serial + unknowns.length) exprs unknowns σ := by
  obtain ⟨e', args, hentry, hopen, hrun⟩ := attempt_eq_ok_iff.mp h
  obtain rfl : e = e' := Except.ok.inj (hlookup.symm.trans (lookup_of_entryFor hentry))
  obtain ⟨hr, he⟩ := hc.eq_ofRule e (mem_entries_of_lookup hlookup)
  have hcompile : e.relation = e.rule.compile := congrArg Entry.relation he
  have horder : Call.relationOrder call.direction args = args := by
    cases hd : call.direction with
    | none => rfl
    | some direction =>
        cases direction with
        | forward => rfl
        | backward => exact absurd hd hdirection
  have hfree : ∀ a ∈ inputs ++ List.replicate e.rule.conclusion.length .wildcard, a.isVarFree := by
    intro a ha
    rcases List.mem_append.mp ha with ha | ha
    · exact (hinputs a ha).2
    · rw [List.eq_of_mem_replicate ha]
      rfl
  rw [horder, hcompile] at hrun
  rw [hargs] at hopen
  have hnodup := Call.nodup_unknowns_append_slotVars hfree hopen e.rule.compile.slots
  have hout := (Call.openArgs_spec hfree hopen).2.2
  obtain ⟨vs, exprs, us, ts, hleft, hright, rfl, rfl⟩ := Call.openArgs_append_eq_ok_iff.mp hopen
  obtain ⟨hlen, rfl⟩ := Call.openArgs_replicate hright
  obtain ⟨hcount, -, hexprs⟩ := Call.openArgs_spec (fun a ha => (hinputs a ha).2) hleft
  obtain rfl : vs = [] := by
    rw [← List.length_eq_zero_iff, hcount, List.countP_eq_zero]
    intro a ha hwild
    have hne := (hinputs a ha).1
    cases a <;> simp [Call.isWildcard] at hwild hne
  have hrel := hr.wellScoped hv
  have hall : ∀ a ∈ exprs ++ us.map Term.var, a.isExpr := fun a ha => (hout a ha).1
  have harity := Relation.length_of_run hrun
  refine ⟨exprs, hr, hv, hhygienic, fun a ha => ⟨(hexprs a ha).1, ?_⟩, ?_, hlen, hnodup,
    ((hrel.run_eq_solved_iff rfl hall harity).mp hrun).1.2⟩
  · exact Term.isGround_iff.mpr fun v hva => by simpa using (hexprs a ha).2 v hva
  · rw [Rule.arity_compile, Rule.arity, ← List.length_append, List.length_append,
      List.length_map, hlen] at harity
    exact Nat.add_right_cancel harity

/-- **What an answer leaves open.** Take a hygienic rule and a call, not a backward one, that
supplies expressions without variables for all givens and extras and asks for all conclusions. If
the call is answered, then the variables that are open in the values before placeholders take their
place, each once and in order, correspond one to one to the unreachable names that the conclusions
mention. In particular nothing is open if strictness accepts the rule, and the values are the answer
as they are. -/
theorem openVars_eq_looseNames (c : Catalogue) (hc : c.Holds Rule.Accepted) (call : Call)
    (e : Entry) (hlookup : c.lookup call.rule = .ok e) (hv : e.rule.IsVarFree)
    (hhygienic : e.rule.Hygienic) (hdirection : call.direction ≠ some .backward)
    (inputs : List Term)
    (hargs : call.args = inputs ++ List.replicate e.rule.conclusion.length .wildcard)
    (hinputs : ∀ a ∈ inputs, a ≠ .wildcard ∧ a.isVarFree) (serial : Int) (answer : Answer)
    (h : c.apply call serial = .ok answer) :
    ∃ unknowns σ values, c.attempt call serial = .ok (unknowns, .solved σ) ∧
      values = unknowns.map (fun v => σ.apply (.var v)) ∧
      values.length = e.rule.conclusion.length ∧ answer = .ofValues (Term.reifyAll values) ∧
      (∃ f : String → Var,
        (∀ x ∈ e.rule.looseNames, ∀ y ∈ e.rule.looseNames, f x = f y → x = y) ∧
        firsts (Term.varsIn values) = e.rule.looseNames.map f) ∧
      (e.rule.validate true = .ok () →
        (∀ t ∈ values, t.isGround) ∧ answer = .ofValues values) := by
  obtain ⟨unknowns, σ, hattempt, rfl⟩ := apply_eq_ok_iff.mp h
  obtain ⟨exprs, hinfers⟩ :=
    exists_infers hc hlookup hv hhygienic hdirection hargs hinputs hattempt
  obtain ⟨f, hinj, hfirsts⟩ := hinfers.firsts_varsIn
  refine ⟨unknowns, σ, unknowns.map σ.image, hattempt, rfl,
    by rw [List.length_map, hinfers.length_unknowns], rfl, ⟨f, hinj, hfirsts⟩, fun hstrict => ?_⟩
  have hground : ∀ t ∈ unknowns.map σ.image, t.isGround := by
    intro t ht
    rw [Term.isGround_iff]
    intro v hvt
    have hmem : v ∈ firsts (Term.varsIn (unknowns.map σ.image)) := by
      rw [mem_firsts, Term.varsIn_eq_flatMap]
      exact List.mem_flatMap.mpr ⟨t, ht, hvt⟩
    rw [hfirsts, Rule.looseNames_of_validate hstrict] at hmem
    cases hmem
  refine ⟨hground, congrArg Answer.ofValues ?_⟩
  rw [Term.reifyAll_eq_map]
  exact Term.map_bind_of_isGround hground _

/-- From `A` to `(or A B)` and `(and C B)`, with `P` supplied: the answer leaves open the values of
the loose names `B` and `C`, which are different variables. -/
theorem openVars_eq_looseNames_two :
    (Rule.plain "weaken" [.atom "A"] [.app (.atom "or") [.atom "A", .atom "B"],
        .app (.atom "and") [.atom "C", .atom "B"]]).looseNames = ["B", "C"] ∧
    (Catalogue.mk [.ofRule (.plain "weaken" [.atom "A"] [.app (.atom "or") [.atom "A", .atom "B"],
        .app (.atom "and") [.atom "C", .atom "B"]])] .empty false).apply
      ⟨.atom "weaken", [.atom "P", .wildcard, .wildcard], none, none⟩ 1 =
      .ok (.values [.app (.atom "or") [.atom "P", .atom "_0"],
        .app (.atom "and") [.atom "_1", .atom "_0"]]) ∧
    ∃ (values : List Term) (f : String → Var),
      Term.reifyAll values = [.app (.atom "or") [.atom "P", .atom "_0"],
        .app (.atom "and") [.atom "_1", .atom "_0"]] ∧
      firsts (Term.varsIn values) = [f "B", f "C"] ∧ f "B" ≠ f "C" := by
  have happly : (Catalogue.mk [.ofRule (.plain "weaken" [.atom "A"]
      [.app (.atom "or") [.atom "A", .atom "B"], .app (.atom "and") [.atom "C", .atom "B"]])]
      .empty false).apply ⟨.atom "weaken", [.atom "P", .wildcard, .wildcard], none, none⟩ 1 =
      .ok (.values [.app (.atom "or") [.atom "P", .atom "_0"],
        .app (.atom "and") [.atom "_1", .atom "_0"]]) := rfl
  obtain ⟨-, -, values, -, -, -, hanswer, ⟨f, hinj, hfirsts⟩, -⟩ :=
    openVars_eq_looseNames _ (.register (.empty .empty false)
      (Rule.accepted_of_isExpr rfl (by decide)) rfl) _ _ rfl (by unfold Rule.IsVarFree; decide)
      (by decide) (by simp) [.atom "P"] rfl (by simp [Term.isVarFree]) 1 _ happly
  refine ⟨by decide, happly, values, f, ?_, hfirsts, ?_⟩
  · rw [← Answer.toList_ofValues (Term.reifyAll values), ← hanswer]
    rfl
  · exact fun heq => absurd (hinj "B" (by decide) "C" (by decide) heq) (by decide)

end Catalogue

end Deduction
