import Mathlib.Data.List.Find
import Deduction.Proofs.Recursion

/-!
# Instantiation and pattern variables

Two walks go over a template. `Term.patternVariables` lists its pattern variables, each once, and
`Term.instantiate` puts in their values and stops at the first one without a value. We show that the
two agree: instantiation fails at the first listed name that the table lacks, and if there is none,
it returns the template with its names filled in. So the result depends on the values of the listed
names only.

Bindings can be applied to the result of an instantiation, or to the values beforehand. This makes
no difference to a template without logic variables, not even to the error if a name is missing.

## Main definitions

* `Term.gap?`: the first of some names that a table lacks.
* `Bindings.Rebinds`: a table with the values of another one after bindings have been applied.

## Main results

* `Term.instantiate_of_gap?`, `Term.instantiate_of_no_gap`: what instantiation comes to.
* `Term.instantiate_congr`: the values on which it depends.
* `Bindings.Rebinds.instantiate_eq`: instantiation with bindings applied before and after.
* `Term.instantiate_iff_patternVariables`: all this of the pattern variables as they are listed.
-/

namespace Deduction

/-- What is found first in a list is what is found first among the first appearances. -/
theorem find?_firsts {α : Type} [DecidableEq α] (p : α → Bool) (l : List α) :
    (firsts l).find? p = l.find? p := by
  induction l with
  | nil => rfl
  | cons a l ih =>
      by_cases hp : p a
      · rw [firsts, List.find?_cons_of_pos hp, List.find?_cons_of_pos hp]
      · -- Only other elements can have the property, so leaving out `a` makes no difference.
        rw [firsts, List.find?_cons_of_neg hp, List.find?_cons_of_neg hp, List.find?_filter, ← ih]
        congr 1
        funext b
        by_cases hb : b = a <;> simp [hb, hp]

namespace Term

variable {env env' : String → Option Term} {t : Term} {x : String}

/-! ### Names without a value -/

/-- The first of the names that the table lacks. -/
def gap? (env : String → Option Term) (names : List String) : Option String :=
  names.find? fun x => (env x).isNone

theorem gap?_eq_none_iff {names : List String} :
    gap? env names = none ↔ ∀ x ∈ names, ∃ v, env x = some v := by
  simp [gap?, Option.ne_none_iff_exists']

theorem of_gap?_eq_some {names : List String} (h : gap? env names = some x) :
    x ∈ names ∧ env x = none :=
  ⟨List.mem_of_find?_eq_some h, by simpa using List.find?_some h⟩

theorem gap?_append (env : String → Option Term) (xs ys : List String) :
    gap? env (xs ++ ys) = (gap? env xs).or (gap? env ys) :=
  List.find?_append

/-- The first pattern variable without a value, among all occurrences. -/
theorem gap?_patternVariables (env : String → Option Term) (t : Term) :
    gap? env t.patternVariables = gap? env t.patternNames :=
  find?_firsts _ _

/-- The value of a name, which stands for itself if it has none. -/
def valueIn (env : String → Option Term) (x : String) : Term := (env x).getD (.atom x)

/-- **Without a gap instantiation is filling in.** -/
theorem instantiate_of_no_gap (ht : t.isExpr) (h : gap? env t.patternNames = none) :
    instantiate env t = .ok (t.fill (valueIn env)) := by
  refine instantiate_eq_fill ht fun x hx => ?_
  obtain ⟨v, hv⟩ := gap?_eq_none_iff.mp h x hx
  rw [valueIn, hv, Option.getD_some]

/-- Instantiation of several templates fails where the first one with a gap does. -/
theorem instantiateAll_of_gap? {ts : List Term} (hts : ∀ t ∈ ts, t.isExpr)
    (h : ∀ t ∈ ts, ∀ x, gap? env t.patternNames = some x →
      instantiate env t = .error (.unboundVariable x))
    (hx : gap? env (patternNamesIn ts) = some x) :
    instantiateAll env ts = .error (.unboundVariable x) := by
  induction ts with
  | nil => cases hx
  | cons t ts ih =>
      rw [patternNamesIn, gap?_append] at hx
      cases hgap : gap? env t.patternNames with
      | some y =>
          rw [hgap, Option.some_or] at hx
          rw [instantiateAll, h t (by simp) y hgap, Option.some.inj hx]
          rfl
      | none =>
          rw [hgap, Option.none_or] at hx
          rw [instantiateAll, instantiate_of_no_gap (hts t (by simp)) hgap,
            ih (fun u hu => hts u (by simp [hu])) (fun u hu => h u (by simp [hu])) hx]
          rfl

/-- **Instantiation fails at the first gap.** -/
theorem instantiate_of_gap? (ht : t.isExpr) (hx : gap? env t.patternNames = some x) :
    instantiate env t = .error (.unboundVariable x) := by
  induction t using Term.walk generalizing x with
  | atom s =>
      by_cases hs : isKeyword s
      · simp [patternNames, hs, gap?] at hx
      · rw [patternNames, if_neg hs] at hx
        obtain ⟨hmem, hnone⟩ := of_gap?_eq_some hx
        obtain rfl := List.mem_singleton.mp hmem
        rw [instantiate, if_neg hs, hnone]
  | app op args ih =>
      obtain ⟨-, -, hargs⟩ := isExpr_app_iff.mp ht
      rw [instantiate, instantiateAll_of_gap? hargs (fun a ha _ => ih a ha (hargs a ha)) hx]
      rfl
  | group items ih =>
      have hitems := isExpr_group_iff.mp ht
      rw [instantiate, instantiateAll_of_gap? hitems (fun a ha _ => ih a ha (hitems a ha)) hx]
      rfl
  | _ => cases hx

/-- Instantiation returns when no pattern variable lacks a value. -/
theorem exists_instantiate_iff (ht : t.isExpr) :
    (∃ u, instantiate env t = .ok u) ↔ gap? env t.patternVariables = none := by
  rw [gap?_patternVariables]
  cases hgap : gap? env t.patternNames with
  | some x => simp [instantiate_of_gap? ht hgap]
  | none => simp [instantiate_of_no_gap ht hgap]

/-- Instantiation fails with the first pattern variable that lacks a value. -/
theorem instantiate_eq_error_iff (ht : t.isExpr) {e : Error} :
    instantiate env t = .error e ↔
      ∃ x, gap? env t.patternVariables = some x ∧ e = .unboundVariable x := by
  rw [gap?_patternVariables]
  cases hgap : gap? env t.patternNames with
  | some x => simp [instantiate_of_gap? ht hgap, eq_comm]
  | none => simp [instantiate_of_no_gap ht hgap]

/-- **Instantiation depends on the values of the pattern variables only**, also where it fails. -/
theorem instantiate_congr (ht : t.isExpr) (h : ∀ x ∈ t.patternNames, env' x = env x) :
    instantiate env' t = instantiate env t := by
  have hgap' : gap? env' t.patternNames = gap? env t.patternNames :=
    List.find?_congr fun x hx => by rw [h x hx]
  cases hgap : gap? env t.patternNames with
  | some x => rw [instantiate_of_gap? ht hgap, instantiate_of_gap? ht (hgap'.trans hgap)]
  | none =>
      rw [instantiate_of_no_gap ht hgap, instantiate_of_no_gap ht (hgap'.trans hgap)]
      exact congrArg Except.ok (fill_congr fun x hx => by rw [valueIn, valueIn, h x hx])

/-- A filled-in template has a compound without an operator only inside a value. -/
theorem meetsHollow_fill {α : String → Term} (ht : t.isExpr)
    (hα : ∀ x ∈ t.patternNames, (α x).meetsHollow = false) : (t.fill α).meetsHollow = false := by
  induction t using Term.walk with
  | atom s =>
      by_cases hs : isKeyword s
      · rw [fill, if_pos hs]
        rfl
      · rw [fill, if_neg hs]
        exact hα s (by simp [patternNames, hs])
  | app op args ih =>
      obtain ⟨-, -, hargs⟩ := isExpr_app_iff.mp ht
      rw [fill, fillAll_eq_map, meetsHollow]
      refine meetsHollowIn_eq_false (List.forall_mem_map.mpr fun a ha => ?_)
      exact ih a ha (hargs a ha) fun x hx => hα x (mem_patternNames_app.mpr ⟨a, ha, hx⟩)
  | group items ih =>
      rw [fill, fillAll_eq_map, meetsHollow]
      refine meetsHollowIn_eq_false (List.forall_mem_map.mpr fun a ha => ?_)
      exact ih a ha (isExpr_group_iff.mp ht a ha) fun x hx =>
        hα x (mem_patternNames_group.mpr ⟨a, ha, hx⟩)
  | hollow => simp [isExpr] at ht
  | _ => rfl

end Term

/-! ### Bindings applied to values -/

namespace Bindings

variable {σ : Bindings} {env env' : String → Option Term} {t u : Term} {x : String}

/-- The second table has the names of the first one, with the bindings applied to their values. -/
def Rebinds (σ : Bindings) (env env' : String → Option Term) : Prop :=
  ∀ x, (env x).mapM σ.tryApply = .ok (env' x)

theorem tryApply_eq_ok_iff :
    σ.tryApply t = .ok u ↔ (σ.apply t).meetsHollow = false ∧ σ.apply t = u := by
  rw [tryApply]
  cases (σ.apply t).meetsHollow <;> simp

theorem Rebinds.eq_none (h : σ.Rebinds env env') (hx : env x = none) : env' x = none := by
  have hnone := h x
  rw [hx] at hnone
  exact (Except.ok.inj hnone).symm

theorem Rebinds.eq_some (h : σ.Rebinds env env') {v : Term} (hx : env x = some v) :
    (σ.apply v).meetsHollow = false ∧ env' x = some (σ.apply v) := by
  have hsome := h x
  rw [hx, Option.mapM_some, map_eq_pure_bind, bind_eq_ok_iff] at hsome
  obtain ⟨w, hw, hx'⟩ := hsome
  obtain ⟨hmeets, rfl⟩ := tryApply_eq_ok_iff.mp hw
  exact ⟨hmeets, (Except.ok.inj hx').symm⟩

/-- Bindings can be applied to a table of expressions. -/
theorem exists_rebinds (hσ : σ.Acyclic) (he : σ.AreExprs)
    (henv : ∀ x v, env x = some v → v.isExpr) : ∃ env', σ.Rebinds env env' := by
  refine ⟨fun x => (env x).map σ.apply, fun x => ?_⟩
  dsimp only
  cases hx : env x with
  | none => rfl
  | some v =>
      rw [Option.mapM_some, tryApply_eq_ok hσ he (henv x v hx)]
      rfl

/-- The names that have a value are the same before and after. -/
theorem Rebinds.gap?_eq (h : σ.Rebinds env env') (names : List String) :
    Term.gap? env' names = Term.gap? env names := by
  refine List.find?_congr fun x _ => ?_
  cases hx : env x with
  | none => rw [h.eq_none hx]
  | some v => rw [(h.eq_some hx).2, Option.isNone_some, Option.isNone_some]

/-- The bindings have been applied to the value of a name that has one. -/
theorem Rebinds.valueIn_eq (h : σ.Rebinds env env') {v : Term} (hx : env x = some v) :
    (Term.valueIn env' x).meetsHollow = false ∧
      σ.apply (Term.valueIn env x) = Term.valueIn env' x := by
  obtain ⟨hmeets, hx'⟩ := h.eq_some hx
  rw [Term.valueIn, Term.valueIn, hx, hx', Option.getD_some, Option.getD_some]
  exact ⟨hmeets, rfl⟩

/-- Bindings are applied to a filled-in template by applying them to the values. -/
theorem Rebinds.tryApply_fill (h : σ.Rebinds env env') (ht : t.isExpr) (hground : t.isGround)
    (hgap : Term.gap? env t.patternNames = none) :
    σ.tryApply (t.fill (Term.valueIn env)) = .ok (t.fill (Term.valueIn env')) := by
  have hvalue : ∀ x ∈ t.patternNames, (Term.valueIn env' x).meetsHollow = false ∧
      σ.apply (Term.valueIn env x) = Term.valueIn env' x := by
    intro x hx
    obtain ⟨v, hv⟩ := Term.gap?_eq_none_iff.mp hgap x hx
    exact h.valueIn_eq hv
  have hfill : σ.apply (t.fill (Term.valueIn env)) = t.fill (Term.valueIn env') := calc
    _ = t.fill fun x => σ.apply (Term.valueIn env x) := Term.bind_fill _ _ hground
    _ = _ := Term.fill_congr fun x hx => (hvalue x hx).2
  refine tryApply_eq_ok_iff.mpr ⟨?_, hfill⟩
  rw [hfill]
  exact Term.meetsHollow_fill ht fun x hx => (hvalue x hx).1

/-- **Instantiation commutes with the application of bindings** to a template without logic
variables: to its result, or to the values beforehand. -/
theorem Rebinds.instantiate_eq (h : σ.Rebinds env env') (ht : t.isExpr) (hground : t.isGround) :
    t.instantiate env' = t.instantiate env >>= σ.tryApply := by
  have hgap' := h.gap?_eq t.patternNames
  cases hgap : Term.gap? env t.patternNames with
  | some x =>
      rw [Term.instantiate_of_gap? ht hgap, Term.instantiate_of_gap? ht (hgap'.trans hgap)]
      rfl
  | none =>
      rw [Term.instantiate_of_no_gap ht hgap, Term.instantiate_of_no_gap ht (hgap'.trans hgap)]
      exact (h.tryApply_fill ht hground hgap).symm

end Bindings

/-- **Instantiation agrees with the pattern variables.** For a template without logic variables and
any table of values, instantiation returns if and only if the table has all pattern variables; else
it fails, with the first of them that the table lacks. A table with the same values for the pattern
variables gives the same result. And if acyclic bindings are applied to the values of a table, which
is possible where all terms are expressions, then instantiation comes to the result of applying them
to what it came to before, and the recursion that follows the bindings ends there. -/
theorem Term.instantiate_iff_patternVariables (t : Term) (ht : t.isExpr) (hground : t.isGround)
    (env : String → Option Term) :
    ((∃ u, t.instantiate env = .ok u) ↔ ∀ x ∈ t.patternVariables, ∃ v, env x = some v) ∧
    (∀ e, t.instantiate env = .error e ↔
      ∃ x, t.patternVariables.find? (fun x => (env x).isNone) = some x ∧
        e = .unboundVariable x) ∧
    (∀ env', (∀ x ∈ t.patternVariables, env' x = env x) →
      t.instantiate env' = t.instantiate env) ∧
    ∀ σ : Bindings, σ.Acyclic →
      (∀ env', σ.Rebinds env env' →
        t.instantiate env' = t.instantiate env >>= σ.tryApply ∧
        ∀ u, t.instantiate env = .ok u →
          ∃ w, ComesTo (σ.applyWithin · u) w ∧ t.instantiate env' = .ok w) ∧
      (σ.AreExprs → (∀ x v, env x = some v → v.isExpr) → ∃ env', σ.Rebinds env env') := by
  refine ⟨?_, fun e => instantiate_eq_error_iff ht, ?_, ?_⟩
  · rw [exists_instantiate_iff ht, gap?_eq_none_iff]
  · exact fun env' h => instantiate_congr ht fun x hx => h x (mem_firsts.mpr hx)
  · intro σ hσ
    refine ⟨fun env' hrebinds => ?_, fun he henv => Bindings.exists_rebinds hσ he henv⟩
    have hinst := hrebinds.instantiate_eq ht hground
    refine ⟨hinst, fun u hu => ?_⟩
    have hgap := (exists_instantiate_iff ht).mp ⟨u, hu⟩
    obtain ⟨w, hw⟩ := (exists_instantiate_iff ht).mpr ((hrebinds.gap?_eq _).trans hgap)
    have happly : σ.tryApply u = .ok w := by
      rw [hw, hu] at hinst
      exact hinst.symm
    obtain ⟨-, rfl⟩ := Bindings.tryApply_eq_ok_iff.mp happly
    exact ⟨σ.apply u, hσ.applyWithin_comesTo u, hw⟩

/-- The template `(and A [B truth (not A)])` with a value for `A` and one for `B`. -/
def Term.conjunctionOf (a b : Term) : Term :=
  .ofName "and" [a, .group [b, .atom "truth", .ofName "not" [a]]]

/-- The value `(p X)` for `A`, and one for `B` if there is one. -/
def Term.tableWith (b : Option Term) (x : String) : Option Term :=
  if x = "A" then some (.ofName "p" [.var ⟨"X", 1⟩]) else if x = "B" then b else none

/-- The variable `X` bound to `(f Y)`, and `Y` to `c`. -/
def Bindings.twoSteps : Bindings :=
  (Bindings.empty.insert ⟨"X", 1⟩ (.ofName "f" [.var ⟨"Y", 2⟩])).insert ⟨"Y", 2⟩ (.atom "c")

/-- Without a value for `B` the instantiation of `(and A [B truth (not A)])` fails there. With the
values `(p X)` and `Y`, and bindings that lead from `X` through `Y` to `c`, it comes to the same
whether the bindings are applied before or after. -/
theorem Term.instantiate_iff_patternVariables_chain :
    (conjunctionOf (.atom "A") (.atom "B")).isExpr ∧
      (conjunctionOf (.atom "A") (.atom "B")).isGround ∧
      (conjunctionOf (.atom "A") (.atom "B")).instantiate (tableWith none) =
        .error (.unboundVariable "B") ∧
      Bindings.twoSteps.Acyclic ∧
      ∃ env', Bindings.twoSteps.Rebinds (tableWith (some (.var ⟨"Y", 2⟩))) env' ∧
        (conjunctionOf (.atom "A") (.atom "B")).instantiate env' =
          .ok (conjunctionOf (.ofName "p" [.ofName "f" [.atom "c"]]) (.atom "c")) := by
  have hexpr : (conjunctionOf (.atom "A") (.atom "B")).isExpr := by decide
  have hground : (conjunctionOf (.atom "A") (.atom "B")).isGround := by decide
  have hstep : (Bindings.empty.insert ⟨"X", 1⟩ (.ofName "f" [.var ⟨"Y", 2⟩])).Acyclic := by
    refine Bindings.acyclic_empty.insert fun w hw => ?_
    obtain rfl : w = ⟨"Y", 2⟩ := by simpa [ofName, vars, varsIn] using hw
    exact ⟨by decide, rfl⟩
  have hacyclic : Bindings.twoSteps.Acyclic := hstep.insert fun w hw => by simp [vars] at hw
  have hexprs : Bindings.twoSteps.AreExprs :=
    (Bindings.areExprs_empty.insert (by decide) _).insert (by decide) _
  have htable : ∀ x v, tableWith (some (.var ⟨"Y", 2⟩)) x = some v → v.isExpr := by
    intro x v h
    unfold tableWith at h
    split_ifs at h <;> cases h <;> decide
  have hfails := (instantiate_iff_patternVariables _ hexpr hground (tableWith none)).2.1
    (.unboundVariable "B")
  obtain ⟨-, -, -, happly⟩ := instantiate_iff_patternVariables _ hexpr hground
    (tableWith (some (.var ⟨"Y", 2⟩)))
  obtain ⟨hcommutes, hrebinds⟩ := happly Bindings.twoSteps hacyclic
  obtain ⟨env', henv'⟩ := hrebinds hexprs htable
  exact ⟨hexpr, hground, hfails.mpr ⟨"B", by decide, rfl⟩, hacyclic, env', henv',
    (hcommutes env' henv').1⟩

end Deduction
