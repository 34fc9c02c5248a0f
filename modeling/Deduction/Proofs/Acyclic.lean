import Mathlib.Data.Finset.Card
import Mathlib.Logic.Relation
import Deduction.Bindings
import Deduction.Proofs.Terms

/-!
# Acyclic bindings

Bindings are triangular: a bound term may mention variables that are bound themselves. They
are *acyclic* when no variable reaches itself that way. Then the variables can be ranked, with
ranks that fall along every mention and never exceed the number of bindings, and following the
chains that many times reaches their ends.

A map `θ : Var → Term` *respects* bindings when it sends every bound variable where it sends
the term of that variable. The maps that respect bindings are their instances; among them is
the map `Bindings.image` of the bindings themselves.

## Main definitions

* `Bindings.Acyclic`, `Bindings.AreExprs`: the two conditions on bindings.
* `Bindings.RespectedBy`: the maps that agree with bindings.

## Main results

* `Bindings.Acyclic.apply_var`: application follows one binding and then the others.
* `Bindings.Acyclic.unbound_of_mem_vars_apply`: application leaves no bound variable.
* `Bindings.Acyclic.bind_apply`: a map that respects bindings does not see their application.
* `Bindings.Acyclic.insert`: a new binding with open variables keeps bindings acyclic.
-/

namespace Deduction.Bindings

/-- The term bound to `v` mentions `w`. -/
def Mentions (σ : Bindings) (v w : Var) : Prop := ∃ t, σ.find? v = some t ∧ w ∈ t.vars

/-- No variable reaches itself through the bindings. -/
def Acyclic (σ : Bindings) : Prop := ∀ v, ¬ Relation.TransGen σ.Mentions v v

/-- All bound terms are expressions. -/
def AreExprs (σ : Bindings) : Prop := ∀ v t, σ.find? v = some t → t.isExpr

/-- The map sends every bound variable where it sends the term of that variable. -/
def RespectedBy (σ : Bindings) (θ : Var → Term) : Prop :=
  ∀ v t, σ.find? v = some t → θ v = t.bind θ

/-- The term that a variable comes to when all chains are followed. -/
def image (σ : Bindings) (v : Var) : Term := σ.apply (.var v)

/-- Application is the extension of the image to terms. -/
theorem apply_eq_bind (σ : Bindings) (t : Term) : σ.apply t = t.bind σ.image := rfl

/-! ### Ranks -/

/-- A bound variable is among the finitely many keys. -/
theorem mem_keys_of_find? {σ : Bindings} {v : Var} {t : Term} (h : σ.find? v = some t) :
    v ∈ σ.pairs.map Prod.fst := by
  obtain ⟨p, hp, -⟩ := Option.map_eq_some_iff.mp h
  have hv : p.1 = v := by simpa using List.find?_some hp
  exact hv ▸ List.mem_map_of_mem (List.mem_of_find?_eq_some hp)

/-- Ranks that fall along every mention leave no room for a cycle. -/
theorem acyclic_of_rank {σ : Bindings} (rank : Var → Nat)
    (h : ∀ v w, σ.Mentions v w → rank w < rank v) : σ.Acyclic := by
  have fall {v w : Var} (hvw : Relation.TransGen σ.Mentions v w) : rank w < rank v := by
    induction hvw with
    | single hm => exact h _ _ hm
    | tail _ hm ih => exact lt_trans (h _ _ hm) ih
  intro v hv
  exact lt_irrefl _ (fall hv)

/-- **Acyclic bindings have ranks.** The rank of a variable is the number of bound variables
that it reaches, itself included, so it is positive for a bound variable and falls along every
mention. -/
theorem Acyclic.exists_rank {σ : Bindings} (h : σ.Acyclic) :
    ∃ rank : Var → Nat, (∀ v, rank v ≤ σ.size) ∧
      ∀ v t, σ.find? v = some t → 0 < rank v ∧ ∀ w ∈ t.vars, rank w < rank v := by
  classical
  let keys := (σ.pairs.map Prod.fst).toFinset
  let reached (v : Var) := keys.filter fun x => Relation.ReflTransGen σ.Mentions v x
  refine ⟨fun v => (reached v).card, ?_, ?_⟩
  · intro v
    calc (reached v).card ≤ keys.card := Finset.card_filter_le _ _
      _ ≤ (σ.pairs.map Prod.fst).length := List.toFinset_card_le _
      _ = σ.size := List.length_map _
  · intro v t hv
    have hself : v ∈ reached v :=
      Finset.mem_filter.mpr ⟨List.mem_toFinset.mpr (mem_keys_of_find? hv), .refl⟩
    refine ⟨Finset.card_pos.mpr ⟨v, hself⟩, ?_⟩
    intro w hw
    have hm : σ.Mentions v w := ⟨t, hv, hw⟩
    refine Finset.card_lt_card ⟨?_, ?_⟩
    · intro x hx
      obtain ⟨hk, hwx⟩ := Finset.mem_filter.mp hx
      exact Finset.mem_filter.mpr ⟨hk, .head hm hwx⟩
    · intro hsub
      exact h v (.head' hm (Finset.mem_filter.mp (hsub hself)).2)

/-- Induction along acyclic bindings: what holds of a variable as soon as it holds of all
variables that its term mentions, holds of every variable. -/
theorem Acyclic.induction {σ : Bindings} (h : σ.Acyclic) {P : Var → Prop}
    (step : ∀ v, (∀ t, σ.find? v = some t → ∀ w ∈ t.vars, P w) → P v) (v : Var) : P v := by
  obtain ⟨rank, -, hrank⟩ := h.exists_rank
  induction hn : rank v using Nat.strong_induction_on generalizing v with
  | _ n ih =>
      refine step v fun t ht w hw => ih (rank w) ?_ w rfl
      rw [← hn]
      exact (hrank v t ht).2 w hw

/-! ### Application -/

/-- Once a variable has been followed as often as its rank says, nothing is left to follow. -/
theorem chase_succ_of_rank_le {σ : Bindings} {rank : Var → Nat}
    (hrank : ∀ v t, σ.find? v = some t → 0 < rank v ∧ ∀ w ∈ t.vars, rank w < rank v)
    {n : Nat} {v : Var} (hv : rank v ≤ n) : σ.chase (n + 1) v = σ.chase n v := by
  induction n generalizing v with
  | zero =>
      cases hf : σ.find? v with
      | none => simp [chase, hf]
      | some t =>
          have := (hrank v t hf).1
          omega
  | succ n ih =>
      rw [chase, chase]
      cases hf : σ.find? v with
      | none => rfl
      | some t =>
          refine Term.bind_congr fun w hw => ih ?_
          have := (hrank v t hf).2 w hw
          omega

/-- The image of a variable that is not bound is the variable. -/
theorem image_of_unbound {σ : Bindings} {v : Var} (h : σ.find? v = none) :
    σ.image v = .var v := by
  rw [image, apply, Term.bind]
  cases σ.size with
  | zero => rfl
  | succ n => simp [chase, h]

/-- The image of a bound variable is the image of its term. -/
theorem Acyclic.image_of_find? {σ : Bindings} (h : σ.Acyclic) {v : Var} {t : Term}
    (hv : σ.find? v = some t) : σ.image v = t.bind σ.image := by
  obtain ⟨rank, hle, hrank⟩ := h.exists_rank
  have hsize : σ.chase (σ.size + 1) v = σ.chase σ.size v :=
    chase_succ_of_rank_le hrank (hle v)
  calc σ.image v = σ.chase σ.size v := rfl
    _ = σ.chase (σ.size + 1) v := hsize.symm
    _ = t.bind σ.image := by rw [chase, hv]; rfl

/-- Application follows one binding and then the others. -/
theorem Acyclic.apply_var {σ : Bindings} (h : σ.Acyclic) (v : Var) :
    σ.apply (.var v) = match σ.find? v with
      | some t => σ.apply t
      | none => .var v := by
  cases hv : σ.find? v with
  | none => exact image_of_unbound hv
  | some t => exact h.image_of_find? hv

/-- Acyclic bindings are respected by their own image. -/
theorem Acyclic.respectedBy_image {σ : Bindings} (h : σ.Acyclic) : σ.RespectedBy σ.image :=
  fun _ _ hv => h.image_of_find? hv

/-- Application leaves no bound variable. -/
theorem Acyclic.unbound_of_mem_vars_apply {σ : Bindings} (h : σ.Acyclic) {t : Term} {w : Var}
    (hw : w ∈ (σ.apply t).vars) : σ.find? w = none := by
  have key (v : Var) : ∀ x ∈ (σ.image v).vars, σ.find? x = none := by
    induction v using h.induction with
    | step v ih =>
        intro x hx
        cases hv : σ.find? v with
        | none =>
            rw [image_of_unbound hv, Term.mem_vars_var] at hx
            exact hx ▸ hv
        | some t =>
            rw [h.image_of_find? hv, Term.mem_vars_bind] at hx
            obtain ⟨y, hy, hxy⟩ := hx
            exact ih t hv y hy x hxy
  rw [apply_eq_bind, Term.mem_vars_bind] at hw
  obtain ⟨v, -, hwv⟩ := hw
  exact key v w hwv

/-- A map that respects bindings does not see their application. -/
theorem Acyclic.bind_apply {σ : Bindings} (h : σ.Acyclic) {θ : Var → Term}
    (hθ : σ.RespectedBy θ) (t : Term) : (σ.apply t).bind θ = t.bind θ := by
  have key (v : Var) : (σ.image v).bind θ = θ v := by
    induction v using h.induction with
    | step v ih =>
        cases hv : σ.find? v with
        | none => rw [image_of_unbound hv, Term.bind]
        | some t =>
            rw [h.image_of_find? hv, Term.bind_bind, hθ v t hv]
            exact Term.bind_congr fun w hw => ih t hv w hw
  rw [apply_eq_bind, Term.bind_bind]
  exact Term.bind_congr fun v _ => key v

/-- The image of a variable under bindings of expressions is an expression. -/
theorem Acyclic.isExpr_image {σ : Bindings} (h : σ.Acyclic) (he : σ.AreExprs) (v : Var) :
    (σ.image v).isExpr := by
  induction v using h.induction with
  | step v ih =>
      cases hv : σ.find? v with
      | none => rw [image_of_unbound hv, Term.isExpr]
      | some t =>
          rw [h.image_of_find? hv]
          exact Term.isExpr_bind (he v t hv) fun w hw => ih t hv w hw

/-- Application of bindings of expressions gives expressions. -/
theorem Acyclic.isExpr_apply {σ : Bindings} (h : σ.Acyclic) (he : σ.AreExprs) {t : Term}
    (ht : t.isExpr) : (σ.apply t).isExpr :=
  Term.isExpr_bind ht fun v _ => h.isExpr_image he v

/-! ### No bindings -/

theorem acyclic_empty : empty.Acyclic :=
  acyclic_of_rank (fun _ => 0) fun v w ⟨t, ht, _⟩ => by simp at ht

theorem areExprs_empty : empty.AreExprs := fun v t ht => by simp at ht

theorem respectedBy_empty (θ : Var → Term) : empty.RespectedBy θ := fun v t ht => by simp at ht

/-! ### A new binding -/

/-- Binding a variable to a term whose variables are open and other than it makes no cycle:
the new mentions lead to ends of chains. -/
theorem Acyclic.insert {σ : Bindings} (h : σ.Acyclic) {v : Var} {t : Term}
    (ht : ∀ w ∈ t.vars, w ≠ v ∧ σ.find? w = none) : (σ.insert v t).Acyclic := by
  obtain ⟨rank, -, hrank⟩ := h.exists_rank
  -- The new variable stands above the open ones and below everything bound before.
  let rank' (w : Var) : Nat :=
    if w = v then 1 else if σ.find? w = none then 0 else rank w + 2
  refine acyclic_of_rank rank' ?_
  rintro x w ⟨s, hs, hw⟩
  by_cases hx : x = v
  · subst hx
    rw [find?_insert_self, Option.some.injEq] at hs
    subst hs
    obtain ⟨hwx, hopen⟩ := ht w hw
    simp [rank', hwx, hopen]
  · rw [find?_insert_of_ne σ t hx] at hs
    have hlt := (hrank x s hs).2 w hw
    by_cases hwv : w = v
    · simp [rank', hwv, hx, hs]
    · by_cases hopen : σ.find? w = none
      · simp [rank', hwv, hx, hs, hopen]
      · simpa [rank', hwv, hx, hs, hopen] using hlt

/-- Binding an open variable changes no binding. -/
theorem find?_insert_of_find? {σ : Bindings} {v w : Var} (hv : σ.find? v = none) (t : Term)
    {s : Term} (hw : σ.find? w = some s) : (σ.insert v t).find? w = some s := by
  have hwv : w ≠ v := by
    rintro rfl
    simp [hv] at hw
  rw [find?_insert_of_ne σ t hwv, hw]

/-- Respecting one binding more is solving one equation more. -/
theorem respectedBy_insert {σ : Bindings} {v : Var} (hv : σ.find? v = none) (t : Term)
    (θ : Var → Term) : (σ.insert v t).RespectedBy θ ↔ σ.RespectedBy θ ∧ θ v = t.bind θ := by
  constructor
  · intro h
    refine ⟨?_, h v t (find?_insert_self σ v t)⟩
    intro w s hs
    exact h w s (find?_insert_of_find? hv t hs)
  · rintro ⟨h, hvt⟩ w s hs
    by_cases hwv : w = v
    · subst hwv
      rw [find?_insert_self, Option.some.injEq] at hs
      exact hs ▸ hvt
    · exact h w s (by rwa [find?_insert_of_ne σ t hwv] at hs)

/-- Bindings of expressions stay so when another expression is bound. -/
theorem AreExprs.insert {σ : Bindings} (h : σ.AreExprs) {t : Term} (ht : t.isExpr) (v : Var) :
    (σ.insert v t).AreExprs := by
  intro w s hs
  by_cases hwv : w = v
  · subst hwv
    rw [find?_insert_self, Option.some.injEq] at hs
    exact hs ▸ ht
  · exact h w s (by rwa [find?_insert_of_ne σ t hwv] at hs)

end Deduction.Bindings
