import Mathlib.Data.Finset.Card
import Deduction.Proofs.Acyclic
import Deduction.Proofs.Meeting

/-!
# Unification is sound, complete and most general

Unification runs in rounds. Each round finds the first difference of what is left, binds the
variable there and replaces it in the rest. The invariant of a run is that the bindings are
acyclic and that the pairs mention open variables only; what a round does to the solutions is
said by `Difference`. Since the replaced variable is gone from the rest, the number of
variables bounds the number of rounds, and a run is never cut short.

The outcome is stated through the maps that respect the bindings: those of the new bindings
are exactly the maps that respect the old ones and solve the equation. Soundness is this
statement for the image of the new bindings, generality is its other direction.

## Main results

* `Bindings.unifyRounds_correct`: what a run of rounds comes to.
* `Bindings.mostGeneral_of_unify`, `Bindings.no_solution_of_unify`: the two outcomes of
  unification.
* `Bindings.tryUnify_mostGeneral`: unification returns a most general unifier relative to the
  bindings it starts from, or nothing if there is no unifier.
-/

namespace Deduction

/-! ### Replacing one variable -/

namespace Term

/-- A map that sends `v` where it sends `t` does not see the replacement of `v` by `t`. -/
theorem bind_replace {θ : Var → Term} {v : Var} {t : Term} (h : θ v = t.bind θ) (u : Term) :
    (u.replace v t).bind θ = u.bind θ := by
  rw [replace, bind_bind]
  refine bind_congr fun w _ => ?_
  by_cases hw : w = v
  · rw [single, if_pos hw, hw, h]
  · rw [single, if_neg hw, bind]

/-- The variables after a replacement. -/
theorem mem_vars_replace {u t : Term} {v w : Var} (h : w ∈ (u.replace v t).vars) :
    w ∈ t.vars ∨ w ∈ u.vars ∧ w ≠ v := by
  obtain ⟨x, hx, hw⟩ := mem_vars_bind.mp h
  by_cases hxv : x = v
  · rw [single, if_pos hxv] at hw
    exact .inl hw
  · rw [single, if_neg hxv, mem_vars_var] at hw
    subst hw
    exact .inr ⟨hx, hxv⟩

/-- Replacement keeps expressions. -/
theorem isExpr_replace {u t : Term} (hu : u.isExpr) (ht : t.isExpr) (v : Var) :
    (u.replace v t).isExpr := by
  refine isExpr_bind hu fun w _ => ?_
  by_cases hw : w = v
  · rwa [single, if_pos hw]
  · rw [single, if_neg hw, isExpr]

end Term

/-- The pairs with `t` for the variable `v`. -/
def replacePairs (v : Var) (t : Term) (pairs : List (Term × Term)) : List (Term × Term) :=
  pairs.map fun p => (p.1.replace v t, p.2.replace v t)

theorem solves_replacePairs {θ : Var → Term} {v : Var} {t : Term} (h : θ v = t.bind θ)
    (pairs : List (Term × Term)) : Solves θ (replacePairs v t pairs) ↔ Solves θ pairs := by
  simp only [Solves, replacePairs, List.forall_mem_map, Term.bind_replace h]

theorem mem_pairVars_replacePairs {v w : Var} {t : Term} {pairs : List (Term × Term)}
    (h : w ∈ pairVars (replacePairs v t pairs)) :
    w ∈ t.vars ∨ w ∈ pairVars pairs ∧ w ≠ v := by
  obtain ⟨_, hq, hw⟩ := mem_pairVars.mp h
  obtain ⟨p, hp, rfl⟩ := List.mem_map.mp hq
  rcases hw with hw | hw
  · rcases Term.mem_vars_replace hw with hw | ⟨hw, hne⟩
    · exact .inl hw
    · exact .inr ⟨mem_pairVars.mpr ⟨p, hp, .inl hw⟩, hne⟩
  · rcases Term.mem_vars_replace hw with hw | ⟨hw, hne⟩
    · exact .inl hw
    · exact .inr ⟨mem_pairVars.mpr ⟨p, hp, .inr hw⟩, hne⟩

/-- If a variable is replaced in some of the pairs by a term without it, then it is gone, and no
variable is new. -/
theorem mem_pairVars_of_replaced {pairs rest : List (Term × Term)} {v : Var} {t : Term}
    (ht : ∀ w ∈ t.vars, w ∈ pairVars pairs) (hrest : ∀ w ∈ pairVars rest, w ∈ pairVars pairs)
    (hv : v ∉ t.vars) {w : Var} (hw : w ∈ pairVars (replacePairs v t rest)) :
    w ∈ pairVars pairs ∧ w ≠ v := by
  rcases mem_pairVars_replacePairs hw with hw | ⟨hw, hne⟩
  · exact ⟨ht w hw, fun heq => hv (heq ▸ hw)⟩
  · exact ⟨hrest w hw, hne⟩

/-- So there are fewer variables left. -/
theorem card_pairVars_replaced_lt {pairs rest : List (Term × Term)} {v : Var} {t : Term}
    (hmem : v ∈ pairVars pairs) (ht : ∀ w ∈ t.vars, w ∈ pairVars pairs)
    (hrest : ∀ w ∈ pairVars rest, w ∈ pairVars pairs) (hv : v ∉ t.vars) :
    (pairVars (replacePairs v t rest)).toFinset.card < (pairVars pairs).toFinset.card := by
  refine Finset.card_lt_card ⟨fun w hw => ?_, fun hsub => ?_⟩
  · exact List.mem_toFinset.mpr
      (mem_pairVars_of_replaced ht hrest hv (List.mem_toFinset.mp hw)).1
  · have hgone := hsub (List.mem_toFinset.mpr hmem)
    exact (mem_pairVars_of_replaced ht hrest hv (List.mem_toFinset.mp hgone)).2 rfl

theorem PairsOfExprs.replacePairs {pairs : List (Term × Term)} (h : PairsOfExprs pairs)
    {t : Term} (ht : t.isExpr) (v : Var) : PairsOfExprs (replacePairs v t pairs) := by
  intro q hq
  obtain ⟨p, hp, rfl⟩ := List.mem_map.mp hq
  exact ⟨Term.isExpr_replace (h p hp).1 ht v, Term.isExpr_replace (h p hp).2 ht v⟩

/-! ### What a run comes to -/

namespace Bindings

/-- The bindings `τ` extend `σ` by a most general solution of the pairs: the maps that respect
`τ` are those that respect `σ` and solve the pairs. No old binding is changed, and only
variables of the pairs are bound. -/
structure MostGeneral (σ : Bindings) (pairs : List (Term × Term)) (τ : Bindings) : Prop where
  acyclic : τ.Acyclic
  areExprs : τ.AreExprs
  respectedBy_iff : ∀ θ, τ.RespectedBy θ ↔ σ.RespectedBy θ ∧ Solves θ pairs
  keeps : ∀ v t, σ.find? v = some t → τ.find? v = some t
  newKeys : ∀ v, σ.find? v = none → τ.find? v ≠ none → v ∈ pairVars pairs

/-- A verdict is correct when its bindings are a most general solution, and when it fails only
if there is no solution. A run that was cut short has no correct verdict. -/
inductive Correct (σ : Bindings) (pairs : List (Term × Term)) : Verdict → Prop
  | unified {τ : Bindings} (h : MostGeneral σ pairs τ) : Correct σ pairs (.unified τ)
  | failed (h : ∀ θ, σ.RespectedBy θ → ¬ Solves θ pairs) : Correct σ pairs .failed

end Bindings

namespace Difference

variable {pairs rest : List (Term × Term)} {v : Var} {t : Term}

/-- After the variable of a difference has been replaced, it is gone, and no variable is new. -/
theorem mem_pairVars_replaced (h : Difference pairs v t rest) (hv : v ∉ t.vars) {w : Var}
    (hw : w ∈ pairVars (replacePairs v t rest)) : w ∈ pairVars pairs ∧ w ≠ v :=
  mem_pairVars_of_replaced h.vars_subset h.rest_subset hv hw

/-- So there are fewer variables left. -/
theorem card_lt (h : Difference pairs v t rest) (hv : v ∉ t.vars) :
    (pairVars (replacePairs v t rest)).toFinset.card < (pairVars pairs).toFinset.card :=
  card_pairVars_replaced_lt h.mem_pairVars h.vars_subset h.rest_subset hv

/-- With the variable bound, solving what is left is solving the pairs. -/
theorem solves_insert_iff (h : Difference pairs v t rest) {σ : Bindings}
    (hopen : σ.find? v = none) (θ : Var → Term) :
    (σ.insert v t).RespectedBy θ ∧ Solves θ (replacePairs v t rest) ↔
      σ.RespectedBy θ ∧ Solves θ pairs := by
  rw [Bindings.respectedBy_insert hopen, h.solves_iff θ, and_assoc]
  refine and_congr_right fun _ => and_congr_right fun hv => ?_
  exact solves_replacePairs hv rest

/-- A correct verdict on what is left after a round is a correct verdict on the pairs. -/
theorem correct_of_insert (h : Difference pairs v t rest) {σ : Bindings}
    (hopen : ∀ w ∈ pairVars pairs, σ.find? w = none) (hv : v ∉ t.vars) {verdict : Verdict}
    (hc : Bindings.Correct (σ.insert v t) (replacePairs v t rest) verdict) :
    Bindings.Correct σ pairs verdict := by
  have hvopen := hopen v h.mem_pairVars
  cases hc with
  | @unified τ hτ =>
      refine .unified ⟨hτ.acyclic, hτ.areExprs, ?_, ?_, ?_⟩
      · intro θ
        rw [hτ.respectedBy_iff, h.solves_insert_iff hvopen]
      · intro w s hs
        exact hτ.keeps w s (Bindings.find?_insert_of_find? hvopen t hs)
      · intro w hw hnew
        by_cases hwv : w = v
        · exact hwv ▸ h.mem_pairVars
        · have hopen' : (σ.insert v t).find? w = none := by
            rw [Bindings.find?_insert_of_ne σ t hwv, hw]
          exact (h.mem_pairVars_replaced hv (hτ.newKeys w hopen' hnew)).1
  | failed hno =>
      refine .failed fun θ hθ hs => ?_
      obtain ⟨hθ', hs'⟩ := (h.solves_insert_iff hvopen θ).mpr ⟨hθ, hs⟩
      exact hno θ hθ' hs'

end Difference

namespace Bindings

/-- Pairs that every map solves leave the bindings as they are. -/
theorem MostGeneral.of_forall_solves {σ : Bindings} (hσ : σ.Acyclic) (he : σ.AreExprs)
    {pairs : List (Term × Term)} (h : ∀ θ, Solves θ pairs) : MostGeneral σ pairs σ where
  acyclic := hσ
  areExprs := he
  respectedBy_iff θ := by simp [h θ]
  keeps _ _ hv := hv
  newKeys _ hnone hnew := absurd hnone hnew

/-- **What a run of rounds comes to.** Under acyclic bindings, on pairs of expressions with open
variables and with a round for each variable, the verdict is correct. Induction on the
rounds: each one takes a variable away. -/
theorem unifyRounds_correct {rounds : Nat} {pairs : List (Term × Term)} {σ : Bindings}
    (hσ : σ.Acyclic) (he : σ.AreExprs) (hp : PairsOfExprs pairs)
    (hopen : ∀ w ∈ pairVars pairs, σ.find? w = none)
    (hcard : (pairVars pairs).toFinset.card ≤ rounds) :
    Correct σ pairs (unifyRounds true rounds pairs σ) := by
  induction rounds generalizing pairs σ with
  | zero =>
      rw [unifyRounds]
      cases hm : Term.meetPairs pairs with
      | agree =>
          obtain hagree | _ := hm ▸ explains_meetPairs hp
          exact .unified (.of_forall_solves hσ he hagree)
      | clash =>
          obtain _ | hclash := hm ▸ explains_meetPairs hp
          exact .failed fun θ _ => hclash θ
      | bind v t rest =>
          -- There is no variable left to differ at.
          obtain _ | _ | hdiff := hm ▸ explains_meetPairs hp
          have hpos := Finset.card_pos.mpr ⟨v, List.mem_toFinset.mpr hdiff.mem_pairVars⟩
          omega
  | succ rounds ih =>
      rw [unifyRounds]
      cases hm : Term.meetPairs pairs with
      | agree =>
          obtain hagree | _ := hm ▸ explains_meetPairs hp
          exact .unified (.of_forall_solves hσ he hagree)
      | clash =>
          obtain _ | hclash := hm ▸ explains_meetPairs hp
          exact .failed fun θ _ => hclash θ
      | bind v t rest =>
          obtain _ | _ | hdiff := hm ▸ explains_meetPairs hp
          by_cases hv : v ∈ t.vars
          · -- The occurs check refuses, and rightly so.
            have hocc : Term.occurs (.var v) t = true := Term.occurs_var_iff.mpr hv
            simp only [hocc, Bool.and_self, if_true]
            refine .failed fun θ _ hθ => ?_
            exact Term.ne_bind_of_mem_vars θ hv hdiff.ne_var ((hdiff.solves_iff θ).mp hθ).1
          · have hocc : Term.occurs (.var v) t = false := by
              rw [← Bool.not_eq_true, Term.occurs_var_iff]
              exact hv
            simp only [hocc, Bool.and_false, Bool.false_eq_true, if_false]
            refine hdiff.correct_of_insert hopen hv ?_
            refine ih (hσ.insert fun w hw => ⟨?_, hopen w (hdiff.vars_subset w hw)⟩)
              (he.insert hdiff.isExpr v) (hdiff.restExprs.replacePairs hdiff.isExpr v) ?_ ?_
            · exact fun heq => hv (heq ▸ hw)
            · intro w hw
              obtain ⟨hmem, hne⟩ := hdiff.mem_pairVars_replaced hv hw
              rw [find?_insert_of_ne σ t hne]
              exact hopen w hmem
            · have := hdiff.card_lt hv
              omega

/-! ### Unification of two terms -/

/-- The rounds granted to two terms are enough for their variables. -/
theorem card_pairVars_le (t u : Term) :
    (pairVars [(t, u)]).toFinset.card ≤ t.freeVars.length + u.freeVars.length := by
  have hsub : (pairVars [(t, u)]).toFinset ⊆ (t.freeVars ++ u.freeVars).toFinset := by
    intro w hw
    simpa [pairVars, Term.freeVars] using hw
  calc (pairVars [(t, u)]).toFinset.card
      ≤ (t.freeVars ++ u.freeVars).toFinset.card := Finset.card_le_card hsub
    _ ≤ (t.freeVars ++ u.freeVars).length := List.toFinset_card_le _
    _ = t.freeVars.length + u.freeVars.length := List.length_append

section

variable {σ τ : Bindings} {t u : Term}

/-- The verdict on two expressions is correct for the terms with the bindings applied. -/
theorem verdict_correct (hσ : σ.Acyclic) (he : σ.AreExprs) (ht : t.isExpr) (hu : u.isExpr) :
    Correct σ [(σ.apply t, σ.apply u)] (σ.verdict t u true) := by
  refine unifyRounds_correct hσ he ?_ ?_ (card_pairVars_le _ _)
  · intro p hp
    obtain rfl := List.mem_singleton.mp hp
    exact ⟨hσ.isExpr_apply he ht, hσ.isExpr_apply he hu⟩
  · intro w hw
    obtain ⟨p, hp, hw⟩ := mem_pairVars.mp hw
    obtain rfl := List.mem_singleton.mp hp
    rcases hw with hw | hw
    · exact hσ.unbound_of_mem_vars_apply hw
    · exact hσ.unbound_of_mem_vars_apply hw

/-- A map that respects the bindings solves an equation when it solves it after application. -/
theorem Acyclic.solves_apply_iff (hσ : σ.Acyclic) {θ : Var → Term} (hθ : σ.RespectedBy θ) :
    Solves θ [(σ.apply t, σ.apply u)] ↔ t.bind θ = u.bind θ := by
  simp [hσ.bind_apply hθ]

/-- Unification finds bindings when its verdict holds them. -/
theorem unify_eq_some_iff {check : Bool} :
    σ.unify t u check = some τ ↔ σ.verdict t u check = .unified τ := by
  rw [unify]
  cases σ.verdict t u check <;> simp [Verdict.bindings?]

/-- The bindings that unification finds are a most general solution. -/
theorem mostGeneral_of_unify (hσ : σ.Acyclic) (he : σ.AreExprs) (ht : t.isExpr)
    (hu : u.isExpr) (h : σ.unify t u true = some τ) :
    MostGeneral σ [(σ.apply t, σ.apply u)] τ := by
  have hc := verdict_correct hσ he ht hu
  rw [unify_eq_some_iff.mp h] at hc
  cases hc with
  | unified hτ => exact hτ

/-- The maps that respect the bindings found are those that respect the bindings before and
make the terms equal. -/
theorem respectedBy_unify_iff (hσ : σ.Acyclic) (he : σ.AreExprs) (ht : t.isExpr)
    (hu : u.isExpr) (h : σ.unify t u true = some τ) (θ : Var → Term) :
    τ.RespectedBy θ ↔ σ.RespectedBy θ ∧ t.bind θ = u.bind θ := by
  rw [(mostGeneral_of_unify hσ he ht hu h).respectedBy_iff]
  exact and_congr_right fun hθ => hσ.solves_apply_iff hθ

/-- Unification finds nothing only if there is nothing to find. -/
theorem no_solution_of_unify (hσ : σ.Acyclic) (he : σ.AreExprs) (ht : t.isExpr)
    (hu : u.isExpr) (h : σ.unify t u true = none) :
    ¬ ∃ θ, σ.RespectedBy θ ∧ t.bind θ = u.bind θ := by
  rintro ⟨θ, hθ, heq⟩
  have hc := verdict_correct hσ he ht hu
  rw [unify] at h
  cases hv : σ.verdict t u true with
  | unified τ => simp [hv, Verdict.bindings?] at h
  | failed =>
      rw [hv] at hc
      cases hc with
      | failed hno => exact hno θ hθ ((hσ.solves_apply_iff hθ).mpr heq)
  | unfinished =>
      rw [hv] at hc
      cases hc

/-- Bindings of expressions applied to an expression meet no compound without an operator. -/
theorem tryApply_eq_ok (hσ : σ.Acyclic) (he : σ.AreExprs) (ht : t.isExpr) :
    σ.tryApply t = .ok (σ.apply t) := by
  simp [tryApply, Term.meetsHollow_of_isExpr (hσ.isExpr_apply he ht)]

/-- On expressions unification meets no compound without an operator. -/
theorem tryUnify_eq_ok (hσ : σ.Acyclic) (he : σ.AreExprs) (ht : t.isExpr) (hu : u.isExpr)
    (check : Bool) : σ.tryUnify t u check = .ok (σ.unify t u check) := by
  rw [tryUnify, tryApply_eq_ok hσ he ht, tryApply_eq_ok hσ he hu]
  rfl

/-- **Unification is sound, complete and most general.** Under acyclic bindings of expressions,
unification of two expressions returns. If it returns bindings, they make the terms equal, and
every map that respects the old bindings and makes the terms equal respects the new ones. If
it returns none, no map does. -/
theorem tryUnify_mostGeneral (hσ : σ.Acyclic) (he : σ.AreExprs) (ht : t.isExpr)
    (hu : u.isExpr) :
    ∃ result, σ.tryUnify t u true = .ok result ∧
      (∀ τ, result = some τ → τ.apply t = τ.apply u ∧
        ∀ θ : Var → Term, σ.RespectedBy θ → t.bind θ = u.bind θ → τ.RespectedBy θ) ∧
      (result = none → ¬ ∃ θ : Var → Term, σ.RespectedBy θ ∧ t.bind θ = u.bind θ) := by
  refine ⟨_, tryUnify_eq_ok hσ he ht hu true, ?_, no_solution_of_unify hσ he ht hu⟩
  intro τ h
  have hiff := respectedBy_unify_iff hσ he ht hu h
  have hτ := (mostGeneral_of_unify hσ he ht hu h).acyclic
  refine ⟨?_, fun θ hθ heq => (hiff θ).mpr ⟨hθ, heq⟩⟩
  exact ((hiff τ.image).mp hτ.respectedBy_image).2

end

/-- Unification of `(and X Y)` with `(and (not P) P)` where `X` is already bound to `(not Y)`:
the binding of `Y` comes out of the application of the old one. -/
theorem tryUnify_mostGeneral_chain :
    let X : Var := ⟨"X", 1⟩
    let Y : Var := ⟨"Y", 2⟩
    let σ := Bindings.empty.insert X (.ofName "not" [.var Y])
    let t := Term.ofName "and" [.var X, .var Y]
    let u := Term.ofName "and" [.ofName "not" [.atom "P"], .atom "P"]
    let τ := σ.insert Y (.atom "P")
    σ.Acyclic ∧ σ.AreExprs ∧ t.isExpr ∧ u.isExpr ∧ σ.tryUnify t u true = .ok (some τ) ∧
      τ.apply t = τ.apply u ∧
      ∀ θ : Var → Term, σ.RespectedBy θ → t.bind θ = u.bind θ → τ.RespectedBy θ := by
  intro X Y σ t u τ
  have hσ : σ.Acyclic := acyclic_empty.insert fun w hw => by
    simp [Term.ofName, Term.vars, Term.varsIn] at hw
    simp [hw, X, Y]
  have he : σ.AreExprs := areExprs_empty.insert (by decide +kernel) X
  have ht : t.isExpr := by decide +kernel
  have hu : u.isExpr := by decide +kernel
  have hrun : σ.tryUnify t u true = .ok (some τ) := by rfl
  obtain ⟨result, hresult, hsome, -⟩ := tryUnify_mostGeneral hσ he ht hu
  rw [hrun, Except.ok.injEq] at hresult
  exact ⟨hσ, he, ht, hu, hrun, hsome τ hresult.symm⟩

end Bindings

end Deduction
