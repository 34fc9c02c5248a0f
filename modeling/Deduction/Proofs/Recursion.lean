import Deduction.Proofs.Triangular

/-!
# Application and unification by recursion

Bindings are applied by following every bound variable to its term and on to the variables there,
and two terms are unified by applying the bindings to both, binding a variable, or else unifying
their parts in order under the bindings found so far. Written down like this, neither recursion goes
down along the terms: a binding may lead to a larger term, and every call of unification applies
more bindings than the one before it. So we bound the depth of the calls, let a recursion that gets
deeper have no result, and show when it has one under every large enough bound.

Application ends on all terms exactly when the bindings are acyclic. Unification with the occurs
check ends under acyclic bindings, since a call that is not about parts of the terms comes after
another variable has been bound. In both cases the result is the one of `Bindings.apply` and of
`Bindings.unify`, which work in rounds that are counted in advance.

## Main definitions

* `ComesTo`: a recursion of bounded depth has a result under every large enough bound.
* `Bindings.applyWithin`, `Bindings.unifyWithin`: the two recursions.

## Main results

* `Bindings.acyclic_iff_applyWithin_comesTo`: application ends exactly for acyclic bindings.
* `Bindings.Ready.unifyRounds_append`: pairs in a row are unified one after the other.
* `Bindings.Acyclic.unifyWithin_comesTo`: under acyclic bindings unification ends.
-/

namespace Deduction

open Term

/-! ### Recursions of bounded depth -/

/-- A recursion whose depth is bounded comes to `a` when it does so under every bound that is large
enough. -/
def ComesTo {α : Type} (f : Nat → Option α) (a : α) : Prop :=
  ∃ depth, ∀ d, depth ≤ d → f d = some a

namespace ComesTo

variable {α β : Type} {f : Nat → Option α} {a : α}

/-- Without calls the bound does not matter. -/
theorem const (a : α) : ComesTo (fun _ => some a) a := ⟨0, fun _ _ => rfl⟩

/-- A call of what comes to `a` comes to `a`. -/
theorem of_succ (h : ComesTo (fun d => f (d + 1)) a) : ComesTo f a := by
  obtain ⟨depth, h⟩ := h
  refine ⟨depth + 1, fun d hd => ?_⟩
  obtain ⟨e, rfl⟩ : ∃ e, d = e + 1 := ⟨d - 1, by omega⟩
  exact h e (by omega)

/-- A call goes on with the result of another one. -/
theorem bind {g : Nat → α → Option β} {b : β} (hf : ComesTo f a)
    (hg : ComesTo (fun d => g d a) b) : ComesTo (fun d => f d >>= g d) b := by
  obtain ⟨m, hm⟩ := hf
  obtain ⟨n, hn⟩ := hg
  refine ⟨max m n, fun d hd => ?_⟩
  calc f d >>= g d = g d a := by rw [hm d (by omega)]; rfl
    _ = some b := hn d (by omega)

/-- One call for each item of a list. -/
theorem mapM {f : Nat → α → Option β} {g : α → β} {l : List α}
    (h : ∀ a ∈ l, ComesTo (fun d => f d a) (g a)) :
    ComesTo (fun d => l.mapM (f d)) (l.map g) := by
  induction l with
  | nil => exact const []
  | cons a l ih =>
      simp only [List.mapM_cons, List.map_cons]
      exact (h a (by simp)).bind ((ih fun b hb => h b (by simp [hb])).bind (const _))

end ComesTo

/-- If there is a result for a list, then there is one for each item. -/
theorem exists_of_mapM_eq_some {α β : Type} {f : α → Option β} {l : List α} {bs : List β}
    (h : l.mapM f = some bs) {a : α} (ha : a ∈ l) : ∃ b, f a = some b := by
  induction l generalizing bs with
  | nil => cases ha
  | cons c l ih =>
      rw [List.mapM_cons] at h
      obtain ⟨b, hb, h⟩ := Option.bind_eq_some_iff.mp h
      obtain ⟨cs, hcs, -⟩ := Option.bind_eq_some_iff.mp h
      rcases List.mem_cons.mp ha with rfl | ha
      · exact ⟨b, hb⟩
      · exact ih hcs ha

namespace Bindings

/-! ### Application -/

/-- Application by recursion, at most `depth` calls deep: a bound variable is followed to its term,
and a compound or group is built again from its parts. -/
def applyWithin (σ : Bindings) : (depth : Nat) → Term → Option Term
  | 0, _ => none
  | depth + 1, .var v => match σ.find? v with
    | some t => σ.applyWithin depth t
    | none => some (.var v)
  | depth + 1, .app op args => do return .app op (← args.mapM (σ.applyWithin depth))
  | depth + 1, .group items => do return .group (← items.mapM (σ.applyWithin depth))
  | _ + 1, t => some t

/-- Application ends on a term if it does so on the variables of the term. -/
theorem applyWithin_comesTo_of_vars {σ : Bindings} {t : Term}
    (h : ∀ v ∈ t.vars, ComesTo (σ.applyWithin · (.var v)) (σ.image v)) :
    ComesTo (σ.applyWithin · t) (σ.apply t) := by
  induction t using Term.walk with
  | var v => exact h v (by simp)
  | app op args ih =>
      rw [apply_eq_bind, Term.bind, bindAll_eq_map]
      have hargs : ∀ a ∈ args, ComesTo (σ.applyWithin · a) (σ.apply a) := fun a ha =>
        ih a ha fun v hv => h v (mem_vars_app.mpr ⟨a, ha, hv⟩)
      exact .of_succ ((ComesTo.mapM hargs).bind (.const _))
  | group items ih =>
      rw [apply_eq_bind, Term.bind, bindAll_eq_map]
      have hitems : ∀ a ∈ items, ComesTo (σ.applyWithin · a) (σ.apply a) := fun a ha =>
        ih a ha fun v hv => h v (mem_vars_group.mpr ⟨a, ha, hv⟩)
      exact .of_succ ((ComesTo.mapM hitems).bind (.const _))
  | _ => exact .of_succ (.const _)

/-- **Application of acyclic bindings ends.** Induction along the bindings. -/
theorem Acyclic.applyWithin_comesTo {σ : Bindings} (h : σ.Acyclic) (t : Term) :
    ComesTo (σ.applyWithin · t) (σ.apply t) := by
  have key (v : Var) : ComesTo (σ.applyWithin · (.var v)) (σ.image v) := by
    induction v using h.induction with
    | step v ih =>
        refine .of_succ ?_
        cases hv : σ.find? v with
        | none =>
            simp only [applyWithin, hv, image_of_unbound hv]
            exact .const _
        | some s =>
            simp only [applyWithin, hv, h.image_of_find? hv]
            exact applyWithin_comesTo_of_vars (ih s hv)
  exact applyWithin_comesTo_of_vars fun v _ => key v

/-- If application ends on all items of a list, then it ends on a variable in one of them, provided
that on each item the one leads to the other. -/
theorem exists_applyWithin_of_mapM {σ : Bindings} {depth : Nat} {items us : List Term} {w : Var}
    (h : items.mapM (σ.applyWithin depth) = some us)
    (hitems : ∀ a ∈ items, ∀ u, σ.applyWithin depth a = some u → w ∈ a.vars →
      ∃ d ≤ depth, ∃ s, σ.applyWithin d (.var w) = some s)
    (hw : ∃ a ∈ items, w ∈ a.vars) :
    ∃ d ≤ depth + 1, ∃ s, σ.applyWithin d (.var w) = some s := by
  obtain ⟨a, ha, hwa⟩ := hw
  obtain ⟨u, hu⟩ := exists_of_mapM_eq_some h ha
  obtain ⟨d, hd, hs⟩ := hitems a ha u hu hwa
  exact ⟨d, Nat.le_succ_of_le hd, hs⟩

/-- If application ends on a term, then it ends on the variables of the term, no deeper. -/
theorem exists_applyWithin_of_mem_vars {σ : Bindings} {depth : Nat} {t u : Term}
    (h : σ.applyWithin depth t = some u) {w : Var} (hw : w ∈ t.vars) :
    ∃ d ≤ depth, ∃ s, σ.applyWithin d (.var w) = some s := by
  induction t using Term.walk generalizing depth u with
  | var v =>
      obtain rfl := mem_vars_var.mp hw
      exact ⟨depth, le_refl depth, u, h⟩
  | app op args ih =>
      cases depth with
      | zero => cases h
      | succ depth =>
          obtain ⟨us, hus, -⟩ := Option.bind_eq_some_iff.mp h
          exact exists_applyWithin_of_mapM hus (fun a ha _ => ih a ha) (mem_vars_app.mp hw)
  | group items ih =>
      cases depth with
      | zero => cases h
      | succ depth =>
          obtain ⟨us, hus, -⟩ := Option.bind_eq_some_iff.mp h
          exact exists_applyWithin_of_mapM hus (fun a ha _ => ih a ha) (mem_vars_group.mp hw)
  | _ => simp [vars] at hw

/-- If application ends on a variable, then it ends with less depth on every variable that can be
reached from there. -/
theorem exists_applyWithin_of_reaches {σ : Bindings} {v w : Var}
    (h : Relation.TransGen σ.Mentions v w) {depth : Nat} {s : Term}
    (hs : σ.applyWithin depth (.var v) = some s) :
    ∃ d < depth, ∃ s, σ.applyWithin d (.var w) = some s := by
  have step {v w : Var} {depth : Nat} {s : Term} (hm : σ.Mentions v w)
      (hs : σ.applyWithin depth (.var v) = some s) :
      ∃ d < depth, ∃ s, σ.applyWithin d (.var w) = some s := by
    obtain ⟨t, hv, hw⟩ := hm
    cases depth with
    | zero => cases hs
    | succ depth =>
        simp only [applyWithin, hv] at hs
        obtain ⟨d, hd, hs⟩ := exists_applyWithin_of_mem_vars hs hw
        exact ⟨d, Nat.lt_succ_of_le hd, hs⟩
  induction h with
  | single hm => exact step hm hs
  | tail _ hm ih =>
      obtain ⟨d, hd, s', hs'⟩ := ih
      obtain ⟨e, he, hs''⟩ := step hm hs'
      exact ⟨e, he.trans hd, hs''⟩

/-- Application does not end on a variable that can be reached from itself. -/
theorem applyWithin_eq_none_of_cycle {σ : Bindings} {v : Var}
    (h : Relation.TransGen σ.Mentions v v) (depth : Nat) :
    σ.applyWithin depth (.var v) = none := by
  induction depth using Nat.strong_induction_on with
  | _ depth ih =>
      by_contra hne
      obtain ⟨s, hs⟩ := Option.ne_none_iff_exists'.mp hne
      obtain ⟨d, hd, s', hs'⟩ := exists_applyWithin_of_reaches h hs
      rw [ih d hd] at hs'
      cases hs'

/-- **Application ends on every term exactly when the bindings are acyclic.** -/
theorem acyclic_iff_applyWithin_comesTo {σ : Bindings} :
    σ.Acyclic ↔ ∀ t, ∃ u, ComesTo (σ.applyWithin · t) u := by
  constructor
  · intro h t
    exact ⟨_, h.applyWithin_comesTo t⟩
  · intro h v hv
    obtain ⟨u, depth, hu⟩ := h (.var v)
    have hnone : σ.applyWithin depth (.var v) = some u := hu depth (le_refl depth)
    rw [applyWithin_eq_none_of_cycle hv] at hnone
    cases hnone

/-! ### Unification -/

/-- The pairs in order, each under the bindings found so far, with `unify` for a single pair. -/
def inOrder (unify : Bindings → Term → Term → Option (Option Bindings)) :
    Bindings → List (Term × Term) → Option (Option Bindings)
  | σ, [] => some (some σ)
  | σ, (t, u) :: pairs => do
    match ← unify σ t u with
    | none => return none
    | some τ => inOrder unify τ pairs

/-- A variable bound to a term, in which it must not occur if `check` is set. -/
def bindVar (check : Bool) (σ : Bindings) (v : Var) (t : Term) : Option Bindings :=
  if check && Term.occurs (.var v) t then none else some (σ.insert v t)

/-- What a call does once the bindings have been applied to the two terms; `inner` is for their
parts. -/
def unifyApplied (check : Bool)
    (inner : Bindings → List (Term × Term) → Option (Option Bindings)) (σ : Bindings)
    (t u : Term) : Option (Option Bindings) :=
  if t.same u then some (some σ)
  else match t, u with
    | .var v, u => some (bindVar check σ v u)
    | t, .var w => some (bindVar check σ w t)
    | t, u => match Term.parts? t u with
      | some pairs => inner σ pairs
      | none => some none

/-- Unification by recursion, at most `depth` calls deep: the bindings are applied to both terms,
and unless these are the same then, a variable is bound or their parts are unified in order. -/
def unifyWithin (check : Bool) : (depth : Nat) → Bindings → Term → Term → Option (Option Bindings)
  | 0, _, _, _ => none
  | depth + 1, σ, t, u => do
    let t ← σ.applyWithin depth t
    let u ← σ.applyWithin depth u
    unifyApplied check (inOrder (unifyWithin check depth)) σ t u

section

variable {σ τ : Bindings} {t u : Term} {v : Var} {ps qs pairs rest : List (Term × Term)}
  {rounds n : Nat} {check : Bool}
  {inner : Bindings → List (Term × Term) → Option (Option Bindings)}

theorem meetPairs_append (ps qs : List (Term × Term)) :
    meetPairs (ps ++ qs) = match meetPairs ps with
      | .agree => meetPairs qs
      | .clash => .clash
      | .bind v t rest => .bind v t (rest ++ qs) := by
  induction ps with
  | nil => rfl
  | cons p ps ih =>
      rw [List.cons_append, meetPairs, meetPairs, ih]
      cases meet p.1 p.2 with
      | agree => rfl
      | clash => rfl
      | bind v t more => simp

theorem meetPairs_singleton (p : Term × Term) : meetPairs [p] = meet p.1 p.2 := by
  rw [meetPairs]
  cases meet p.1 p.2 <;> simp [meetPairs]

/-- A run depends on the first difference of its pairs only. -/
theorem unifyRounds_congr (h : meetPairs ps = meetPairs qs) :
    unifyRounds check rounds ps σ = unifyRounds check rounds qs σ := by
  cases rounds <;> rw [unifyRounds, unifyRounds, h]

theorem unifyRounds_of_agree (h : meetPairs pairs = .agree) :
    unifyRounds check rounds pairs σ = .unified σ := by
  cases rounds <;> rw [unifyRounds, h]

theorem unifyRounds_of_clash (h : meetPairs pairs = .clash) :
    unifyRounds check rounds pairs σ = .failed := by
  cases rounds <;> rw [unifyRounds, h]

theorem occurs_eq_false_of_not_mem (hv : v ∉ t.vars) : Term.occurs (.var v) t = false := by
  rw [← Bool.not_eq_true, occurs_var_iff]
  exact hv

theorem unifyRounds_of_occurs (h : meetPairs pairs = .bind v t rest) (hv : v ∈ t.vars) :
    unifyRounds true rounds pairs σ = .failed := by
  cases rounds <;> simp [unifyRounds, h, occurs_var_iff.mpr hv]

theorem unifyRounds_zero (h : meetPairs pairs = .bind v t rest) (hv : v ∉ t.vars) :
    unifyRounds true 0 pairs σ = .unfinished := by
  simp [unifyRounds, h, occurs_var_iff, hv]

theorem unifyRounds_succ (h : meetPairs pairs = .bind v t rest) (hv : v ∉ t.vars) :
    unifyRounds true (rounds + 1) pairs σ =
      unifyRounds true rounds (replacePairs v t rest) (σ.insert v t) := by
  rw [unifyRounds, h]
  simp only [occurs_eq_false_of_not_mem hv, Bool.and_false, Bool.false_eq_true, if_false]
  rfl

/-- Replacing a variable by what it is bound to makes no difference to the application of the
bindings. -/
theorem Acyclic.apply_replace (h : τ.Acyclic) (hv : τ.find? v = some t) (u : Term) :
    τ.apply (u.replace v t) = τ.apply u := by
  rw [apply_eq_bind, apply_eq_bind, bind_replace (h.image_of_find? hv)]

theorem replacePairs_append (v : Var) (t : Term) (ps qs : List (Term × Term)) :
    replacePairs v t (ps ++ qs) = replacePairs v t ps ++ replacePairs v t qs :=
  List.map_append

theorem Acyclic.applyPairs_replacePairs (h : τ.Acyclic) (hv : τ.find? v = some t)
    (pairs : List (Term × Term)) : τ.applyPairs (replacePairs v t pairs) = τ.applyPairs pairs := by
  simp only [applyPairs, replacePairs, List.map_map]
  exact List.map_congr_left fun p _ => by simp [h.apply_replace hv]

theorem applyPairs_of_unbound (h : ∀ w ∈ pairVars pairs, σ.find? w = none) :
    σ.applyPairs pairs = pairs := by
  refine (List.map_congr_left fun p hp => ?_).trans (List.map_id pairs)
  rw [apply_of_unbound fun w hw => h w (mem_pairVars.mpr ⟨p, hp, .inl hw⟩),
    apply_of_unbound fun w hw => h w (mem_pairVars.mpr ⟨p, hp, .inr hw⟩)]
  rfl

/-- **Pairs in a row are unified one after the other.** If there is a difference in the first pairs,
then the whole run fails with the run of the first pairs, or it goes on under the bindings found
there, with fewer rounds left. Induction on the rounds. -/
theorem Ready.unifyRounds_append (h : σ.Ready (ps ++ qs)) (hne : meetPairs ps ≠ .agree)
    (hfin : unifyRounds true n (ps ++ qs) σ ≠ .unfinished) :
    (unifyRounds true n ps σ = .failed ∧ unifyRounds true n (ps ++ qs) σ = .failed) ∨
      ∃ m < n, ∃ τ, unifyRounds true n ps σ = .unified τ ∧
        unifyRounds true n (ps ++ qs) σ = unifyRounds true m (τ.applyPairs qs) τ := by
  induction n using Nat.strong_induction_on generalizing ps qs σ with
  | _ n ih =>
  cases hm : meetPairs ps with
  | agree => exact absurd hm hne
  | clash =>
      have hclash : meetPairs (ps ++ qs) = .clash := by rw [meetPairs_append, hm]
      exact .inl ⟨unifyRounds_of_clash hm, unifyRounds_of_clash hclash⟩
  | bind v t rest =>
      have hbind : meetPairs (ps ++ qs) = .bind v t (rest ++ qs) := by rw [meetPairs_append, hm]
      by_cases hv : v ∈ t.vars
      · exact .inl ⟨unifyRounds_of_occurs hm hv, unifyRounds_of_occurs hbind hv⟩
      · cases n with
        | zero => exact absurd (unifyRounds_zero hbind hv) hfin
        | succ n =>
        have hready := h.round hbind hv
        rw [unifyRounds_succ hbind hv, replacePairs_append] at hfin ⊢
        rw [replacePairs_append] at hready
        rw [unifyRounds_succ hm hv]
        by_cases hagree : meetPairs (replacePairs v t rest) = .agree
        · -- The first pairs are done.
          refine .inr ⟨n, Nat.lt_succ_self n, _, unifyRounds_of_agree hagree, ?_⟩
          have hqs : (σ.insert v t).applyPairs qs = replacePairs v t qs := by
            rw [← hready.acyclic.applyPairs_replacePairs (find?_insert_self σ v t)]
            exact applyPairs_of_unbound fun w hw =>
              hready.unbound w (mem_pairVars_append.mpr (.inr hw))
          rw [hqs]
          exact unifyRounds_congr (by rw [meetPairs_append, hagree])
        · obtain hfailed | ⟨m, hmn, τ, hτ, hrest⟩ :=
            ih n (Nat.lt_succ_self n) hready hagree hfin
          · exact .inl hfailed
          · refine .inr ⟨m, Nat.lt_succ_of_lt hmn, τ, hτ, ?_⟩
            have hfirst : (σ.insert v t).Ready (replacePairs v t rest) :=
              ⟨hready.acyclic, fun w hw => hready.unbound w (mem_pairVars_append.mpr (.inl hw))⟩
            have hgrows := hfirst.growsBy hτ
            rw [hrest, hgrows.acyclic.applyPairs_replacePairs
              (hgrows.keeps v t (find?_insert_self σ v t))]

/-! ### The recursion and the rounds -/

theorem inOrder_comesTo_cons {f : Nat → Bindings → Term → Term → Option (Option Bindings)}
    {result : Option Bindings} (hf : ComesTo (fun d => f d σ t u) (some τ))
    (hrest : ComesTo (fun d => inOrder (f d) τ pairs) result) :
    ComesTo (fun d => inOrder (f d) σ ((t, u) :: pairs)) result :=
  hf.bind hrest

theorem inOrder_comesTo_none {f : Nat → Bindings → Term → Term → Option (Option Bindings)}
    (hf : ComesTo (fun d => f d σ t u) none) :
    ComesTo (fun d => inOrder (f d) σ ((t, u) :: pairs)) none :=
  hf.bind (.const _)

theorem unifyApplied_of_same (h : t.same u) :
    unifyApplied check inner σ t u = some (some σ) := by
  unfold unifyApplied
  rw [if_pos h]

theorem unifyApplied_var_left (h : ¬ (Term.var v).same u) :
    unifyApplied check inner σ (.var v) u = some (bindVar check σ v u) := by
  unfold unifyApplied
  rw [if_neg h]

theorem unifyApplied_var_right (ht : t.isVar = false) (h : ¬ t.same (.var v)) :
    unifyApplied check inner σ t (.var v) = some (bindVar check σ v t) := by
  unfold unifyApplied
  rw [if_neg h]
  cases t with
  | var w => cases ht
  | _ => rfl

theorem unifyApplied_of_not_isVar (ht : t.isVar = false) (hu : u.isVar = false)
    (h : ¬ t.same u) :
    unifyApplied check inner σ t u = match parts? t u with
      | some pairs => inner σ pairs
      | none => some none := by
  unfold unifyApplied
  rw [if_neg h]
  split
  · cases ht
  · cases hu
  · rfl

/-- A call first applies the bindings, which ends. -/
theorem Acyclic.unifyWithin_comesTo_of_applied (hσ : σ.Acyclic) {result : Option Bindings}
    (h : ComesTo (fun d => unifyApplied check (inOrder (unifyWithin check d)) σ (σ.apply t)
      (σ.apply u)) result) : ComesTo (fun d => unifyWithin check d σ t u) result :=
  .of_succ ((hσ.applyWithin_comesTo t).bind ((hσ.applyWithin_comesTo u).bind h))

/-- On two terms to which the bindings have been applied, the recursion ends as `n` rounds do, if
these suffice. -/
def Follows (n : Nat) (t u : Term) : Prop :=
  ∀ σ : Bindings, σ.Ready [(t, u)] → unifyRounds true n [(t, u)] σ ≠ .unfinished →
    ComesTo (fun d => unifyApplied true (inOrder (unifyWithin true d)) σ t u)
      (unifyRounds true n [(t, u)] σ).bindings?

/-- The same of pairs in a row, to which the bindings are still to be applied. -/
def FollowsAll (n : Nat) (σ : Bindings) (pairs : List (Term × Term)) : Prop :=
  unifyRounds true n (σ.applyPairs pairs) σ ≠ .unfinished →
    ComesTo (fun d => inOrder (unifyWithin true d) σ pairs)
      (unifyRounds true n (σ.applyPairs pairs) σ).bindings?

/-- Bindings that have grown out of others give a term the value that it has after these. -/
theorem GrowsBy.apply_apply {vs : List Var} (hσ : σ.Acyclic) (h : σ.GrowsBy vs τ) (t : Term) :
    τ.apply (σ.apply t) = τ.apply t :=
  hσ.bind_apply (fun v s hs => h.acyclic.image_of_find? (h.keeps v s hs)) t

/-- Pairs in a row, one after the other: a pair that agrees leaves all rounds for the next ones, and
any other pair takes at least one. Induction on the pairs. -/
theorem followsAll_of_forall (hσ : σ.Acyclic)
    (hfewer : ∀ m < n, ∀ (τ : Bindings) (qs : List (Term × Term)), τ.Acyclic → FollowsAll m τ qs)
    (h : ∀ p ∈ pairs, Follows n (σ.apply p.1) (σ.apply p.2)) : FollowsAll n σ pairs := by
  induction pairs with
  | nil =>
      intro _
      rw [unifyRounds_of_agree (by rfl)]
      exact .const _
  | cons p pairs ih =>
      intro hfin
      have hready : σ.Ready ([(σ.apply p.1, σ.apply p.2)] ++ σ.applyPairs pairs) :=
        hσ.ready (p :: pairs)
      have hfirst := h p (by simp) σ (hσ.ready [p])
      change unifyRounds true n ([(σ.apply p.1, σ.apply p.2)] ++ σ.applyPairs pairs) σ ≠ _ at hfin
      change ComesTo _
        (unifyRounds true n ([(σ.apply p.1, σ.apply p.2)] ++ σ.applyPairs pairs) σ).bindings?
      by_cases hagree : meetPairs [(σ.apply p.1, σ.apply p.2)] = .agree
      · have hrest : unifyRounds true n ([(σ.apply p.1, σ.apply p.2)] ++ σ.applyPairs pairs) σ =
            unifyRounds true n (σ.applyPairs pairs) σ :=
          unifyRounds_congr (by rw [meetPairs_append, hagree])
        rw [unifyRounds_of_agree hagree] at hfirst
        rw [hrest] at hfin ⊢
        exact inOrder_comesTo_cons (hσ.unifyWithin_comesTo_of_applied (hfirst (by simp)))
          (ih (fun q hq => h q (by simp [hq])) hfin)
      · obtain ⟨hfailed, hall⟩ | ⟨m, hmn, τ, hτ, hall⟩ := hready.unifyRounds_append hagree hfin
        · rw [hfailed] at hfirst
          rw [hall]
          exact inOrder_comesTo_none (hσ.unifyWithin_comesTo_of_applied (hfirst (by simp)))
        · rw [hτ] at hfirst
          have hgrows := (hσ.ready [p]).growsBy hτ
          have hpairs : τ.applyPairs (σ.applyPairs pairs) = τ.applyPairs pairs := by
            simp [applyPairs, hgrows.apply_apply hσ]
          rw [hall, hpairs] at hfin ⊢
          exact inOrder_comesTo_cons (hσ.unifyWithin_comesTo_of_applied (hfirst (by simp)))
            (hfewer m hmn τ pairs hgrows.acyclic hfin)

/-- A difference that is the last one is the binding of a variable. -/
theorem unifyRounds_of_bind_nil (hm : meetPairs pairs = .bind v t [])
    (hfin : unifyRounds true n pairs σ ≠ .unfinished) :
    (unifyRounds true n pairs σ).bindings? = bindVar true σ v t := by
  by_cases hv : v ∈ t.vars
  · rw [unifyRounds_of_occurs hm hv, bindVar, occurs_var_iff.mpr hv]
    rfl
  · cases n with
    | zero => exact absurd (unifyRounds_zero hm hv) hfin
    | succ n =>
        rw [unifyRounds_succ hm hv, unifyRounds_of_agree (by rfl), bindVar,
          occurs_eq_false_of_not_mem hv]
        rfl

theorem follows_of_same (h : t.same u) : Follows n t u := by
  intro σ _ _
  have hagree : meetPairs [(t, u)] = .agree := by
    rw [meetPairs_singleton, (meet_eq_agree_iff t u).mpr h]
  simp only [unifyApplied_of_same h, unifyRounds_of_agree hagree]
  exact .const _

/-- Induction on the two terms, side by side. -/
theorem follows_of_not_same
    (hfewer : ∀ m < n, ∀ (τ : Bindings) (qs : List (Term × Term)), τ.Acyclic → FollowsAll m τ qs)
    (h : ¬ t.same u) : Follows n t u := by
  induction t, u using sideBySide with
  | varLeft v u =>
      intro σ _ hfin
      have hm : meetPairs [(.var v, u)] = .bind v u [] := by
        rw [meetPairs_singleton, meet_var_left h]
      simp only [unifyApplied_var_left h, unifyRounds_of_bind_nil hm hfin]
      exact .const _
  | varRight t w ht =>
      intro σ _ hfin
      have hm : meetPairs [(t, .var w)] = .bind w t [] := by
        rw [meetPairs_singleton, meet_var_right ht]
      simp only [unifyApplied_var_right ht h, unifyRounds_of_bind_nil hm hfin]
      exact .const _
  | alike t u pairs ht hu hparts ih =>
      intro σ hready hfin
      have hunbound : ∀ w ∈ pairVars pairs, σ.find? w = none := fun w hw =>
        hready.unbound w (mem_pairVars_cons.mpr (.inl (mem_vars_of_parts? hparts hw)))
      have hrun : unifyRounds true n [(t, u)] σ = unifyRounds true n (σ.applyPairs pairs) σ := by
        rw [applyPairs_of_unbound hunbound]
        exact unifyRounds_congr (by rw [meetPairs_singleton, meet_of_parts? hparts])
      simp only [unifyApplied_of_not_isVar ht hu h, hparts]
      rw [hrun] at hfin ⊢
      refine followsAll_of_forall hready.acyclic hfewer (fun p hp => ?_) hfin
      rw [apply_of_unbound fun w hw => hunbound w (mem_pairVars.mpr ⟨p, hp, .inl hw⟩),
        apply_of_unbound fun w hw => hunbound w (mem_pairVars.mpr ⟨p, hp, .inr hw⟩)]
      by_cases hp' : p.1.same p.2
      · exact follows_of_same hp'
      · exact ih p hp hp'
  | other t u ht hu hparts =>
      intro σ _ _
      have hclash : meetPairs [(t, u)] = .clash := by
        rw [meetPairs_singleton, meet_of_parts?_eq_none ht hu hparts, if_neg h]
      simp only [unifyApplied_of_not_isVar ht hu h, hparts, unifyRounds_of_clash hclash]
      exact .const _

theorem follows_of_fewer
    (hfewer : ∀ m < n, ∀ (τ : Bindings) (qs : List (Term × Term)), τ.Acyclic → FollowsAll m τ qs)
    (t u : Term) : Follows n t u := by
  by_cases h : t.same u
  · exact follows_of_same h
  · exact follows_of_not_same hfewer h

/-- **The recursion ends as the rounds do.** Induction on the rounds, with the terms at each of
them. -/
theorem followsAll (n : Nat) (hσ : σ.Acyclic) (pairs : List (Term × Term)) :
    FollowsAll n σ pairs := by
  induction n using Nat.strong_induction_on generalizing σ pairs with
  | _ n ih =>
      have hfewer : ∀ m < n, ∀ (τ : Bindings) (qs : List (Term × Term)), τ.Acyclic →
          FollowsAll m τ qs := fun m hm τ qs hτ => ih m hm hτ qs
      exact followsAll_of_forall hσ hfewer fun p _ => follows_of_fewer hfewer _ _

/-- **Under acyclic bindings unification with the occurs check ends.** -/
theorem Acyclic.unifyWithin_comesTo (hσ : σ.Acyclic) (t u : Term) :
    ComesTo (fun d => unifyWithin true d σ t u) (σ.unify t u true) :=
  hσ.unifyWithin_comesTo_of_applied
    (follows_of_fewer (fun m _ _ qs hτ => followsAll m hτ qs) _ _ σ (hσ.ready [(t, u)])
      (σ.verdict_ne_unfinished t u))

end

end Bindings

end Deduction
