import Deduction.Proofs.Templates
import Deduction.Proofs.Unification
import Deduction.Relation.Search

/-!
# Solving equations with deferred checks

A run solves its equations one after the other and evaluates a check as soon as it has no
variables left. `Bindings.unifyAll` is the run with the checks and the step limit left out.
A check that has become ground keeps its value for the rest of the run, because the later
bindings only refine the earlier ones. So it does not matter when a check is evaluated: a run
ends well exactly when the equations have a solution, the steps suffice, and under the final
bindings every check is ground and holds.

## Main definitions

* `Bindings.unifyAll`: the equations alone, one after the other.
* `Search.Affords`: the step limit leaves room for some more steps.

## Main results

* `Bindings.unifyAll_spec`, `Bindings.exists_unifyAll`: equations in a row are solved most
  generally, and whenever they can be.
* `Relation.solve_eq_solved_iff`: when a run ends well.
* `Relation.solve_nil_cases`: how a run without checks ends.
-/

namespace Deduction

namespace Bindings

/-- Unification of the pairs in order, each under the bindings found so far. -/
def unifyAll (σ : Bindings) : List (Term × Term) → Option Bindings
  | [] => some σ
  | (t, u) :: pairs => (σ.unify t u true).bind fun τ => τ.unifyAll pairs

/-- **Equations in a row are solved most generally**: the maps that respect the final bindings
are those that respect the first ones and solve every equation. -/
theorem unifyAll_spec {σ τ : Bindings} {pairs : List (Term × Term)} (hσ : σ.Acyclic)
    (he : σ.AreExprs) (hp : PairsOfExprs pairs) (h : σ.unifyAll pairs = some τ) :
    τ.Acyclic ∧ τ.AreExprs ∧ ∀ θ, τ.RespectedBy θ ↔ σ.RespectedBy θ ∧ Solves θ pairs := by
  induction pairs generalizing σ with
  | nil =>
      rw [unifyAll, Option.some.injEq] at h
      subst h
      exact ⟨hσ, he, fun θ => by simp⟩
  | cons p pairs ih =>
      obtain ⟨t, u⟩ := p
      obtain ⟨ρ, hρ, hrest⟩ := Option.bind_eq_some_iff.mp h
      obtain ⟨ht, hu⟩ := hp (t, u) (by simp)
      have hm := mostGeneral_of_unify hσ he ht hu hρ
      obtain ⟨hτ, heτ, hiff⟩ :=
        ih hm.acyclic hm.areExprs (fun q hq => hp q (by simp [hq])) hrest
      refine ⟨hτ, heτ, fun θ => ?_⟩
      rw [hiff, respectedBy_unify_iff hσ he ht hu hρ, solves_cons, and_assoc]

/-- Equations in a row are solved whenever some map solves them. -/
theorem exists_unifyAll {σ : Bindings} {pairs : List (Term × Term)} (hσ : σ.Acyclic)
    (he : σ.AreExprs) (hp : PairsOfExprs pairs) {θ : Var → Term} (hθ : σ.RespectedBy θ)
    (hs : Solves θ pairs) : ∃ τ, σ.unifyAll pairs = some τ := by
  induction pairs generalizing σ with
  | nil => exact ⟨σ, rfl⟩
  | cons p pairs ih =>
      obtain ⟨t, u⟩ := p
      obtain ⟨ht, hu⟩ := hp (t, u) (by simp)
      rw [solves_cons] at hs
      cases hρ : σ.unify t u true with
      | none => exact absurd ⟨θ, hθ, hs.1⟩ (no_solution_of_unify hσ he ht hu hρ)
      | some ρ =>
          have hm := mostGeneral_of_unify hσ he ht hu hρ
          have hθρ := (respectedBy_unify_iff hσ he ht hu hρ θ).mpr ⟨hθ, hs.1⟩
          obtain ⟨τ, hτ⟩ :=
            ih hm.acyclic hm.areExprs (fun q hq => hp q (by simp [hq])) hθρ hs.2
          exact ⟨τ, Option.bind_eq_some_iff.mpr ⟨ρ, hρ, hτ⟩⟩

/-- A term that is ground under bindings keeps its value under all later ones. -/
theorem apply_eq_of_isGround {σ τ : Bindings} (hσ : σ.Acyclic) (hτ : τ.Acyclic)
    (h : ∀ θ, τ.RespectedBy θ → σ.RespectedBy θ) {t : Term} (ht : (σ.apply t).isGround) :
    τ.apply t = σ.apply t := by
  have hrespect := h τ.image hτ.respectedBy_image
  calc τ.apply t = t.bind τ.image := apply_eq_bind τ t
    _ = (σ.apply t).bind τ.image := (hσ.bind_apply hrespect t).symm
    _ = σ.apply t := Term.bind_of_isGround ht _

end Bindings

/-- After `steps` steps, `n` more are within the limit. -/
def Search.Affords (search : Search) (steps n : Nat) : Prop :=
  n = 0 ∨ ((steps + n : Nat) : Int) ≤ search.limit

/-- One step more is affordable when the next one is and the others are after it. -/
theorem Search.affords_succ {search : Search} {steps n : Nat} :
    search.Affords steps (n + 1) ↔
      ¬ search.limit < (steps : Int) + 1 ∧ search.Affords (steps + 1) n := by
  simp only [Search.Affords]
  omega

namespace Relation

/-! ### Checks -/

/-- The check is ground under the bindings and holds. -/
def Passes (predicates : PredicateTable) (σ : Bindings) (check : Term) : Prop :=
  (σ.apply check).isGround ∧ predicates.holds (σ.apply check) = .ok true

/-- Firing succeeds when every ground check holds; the others wait. -/
theorem fireReady_eq_some_iff {predicates : PredicateTable} {σ : Bindings}
    {checks waiting : List Term} :
    fireReady predicates σ checks = .ok (some waiting) ↔
      (∀ c ∈ checks, (σ.apply c).isGround → predicates.holds (σ.apply c) = .ok true) ∧
        waiting = checks.filter fun c => !(σ.apply c).isGround := by
  induction checks generalizing waiting with
  | nil =>
      rw [fireReady, Except.ok.injEq, Option.some.injEq, eq_comm]
      simp
  | cons c checks ih =>
      rw [fireReady]
      by_cases hc : (σ.apply c).isGround
      · simp only [hc, if_true, bind_eq_ok_iff]
        constructor
        · rintro ⟨holds, hholds, h⟩
          cases holds with
          | false => simp [pure, Except.pure] at h
          | true =>
              obtain ⟨hall, rfl⟩ := ih.mp h
              simp only [List.forall_mem_cons, hc, Bool.not_true, Bool.false_eq_true,
                not_false_eq_true, List.filter_cons_of_neg, and_true]
              exact ⟨fun _ => hholds, hall⟩
        · rintro ⟨hall, rfl⟩
          rw [List.forall_mem_cons] at hall
          refine ⟨true, hall.1 hc, ?_⟩
          simpa [hc] using ih.mpr ⟨hall.2, rfl⟩
      · simp only [hc, Bool.false_eq_true, if_false, bind_eq_ok_iff]
        constructor
        · rintro ⟨rest, hrest, h⟩
          obtain ⟨waiting', rfl, rfl⟩ := Option.map_eq_some_iff.mp (Except.ok.inj h)
          obtain ⟨hall, rfl⟩ := ih.mp hrest
          simp only [List.forall_mem_cons, hc, Bool.false_eq_true, false_implies, true_and,
            Bool.not_false, List.filter_cons_of_pos, and_true]
          exact hall
        · rintro ⟨hall, rfl⟩
          rw [List.forall_mem_cons] at hall
          refine ⟨_, ih.mpr ⟨hall.2, rfl⟩, ?_⟩
          simp [hc, pure, Except.pure]

/-- All checks pass at the end when those that are ready now hold and the others pass at the
end: what is ready keeps its value. -/
theorem forall_passes_iff {predicates : PredicateTable} {σ τ : Bindings} (hσ : σ.Acyclic)
    (hτ : τ.Acyclic) (h : ∀ θ, τ.RespectedBy θ → σ.RespectedBy θ) (checks : List Term) :
    (∀ c ∈ checks, Passes predicates τ c) ↔
      (∀ c ∈ checks, (σ.apply c).isGround → predicates.holds (σ.apply c) = .ok true) ∧
        ∀ c ∈ checks.filter (fun c => !(σ.apply c).isGround), Passes predicates τ c := by
  constructor
  · intro hpass
    refine ⟨fun c hc hground => ?_, fun c hc => hpass c (List.mem_filter.mp hc).1⟩
    rw [← Bindings.apply_eq_of_isGround hσ hτ h hground]
    exact (hpass c hc).2
  · rintro ⟨hready, hwait⟩ c hc
    by_cases hground : (σ.apply c).isGround
    · rw [Passes, Bindings.apply_eq_of_isGround hσ hτ h hground]
      exact ⟨hground, hready c hc hground⟩
    · exact hwait c (List.mem_filter.mpr ⟨hc, by simpa using hground⟩)

/-- Firing what is ready does not change when a run ends well. Here `next` is the rest of the
run, of which we know when it ends well with checks that are not ready, and `P` is what that
takes apart from the checks. -/
theorem fire_then_eq_solved_iff {predicates : PredicateTable} {σ τ : Bindings} {P : Prop}
    {next : List Term → Except Error Outcome} (hσ : σ.Acyclic)
    (hP : P → τ.Acyclic ∧ ∀ θ, τ.RespectedBy θ → σ.RespectedBy θ)
    (hnext : ∀ waiting : List Term, (∀ c ∈ waiting, ¬ (σ.apply c).isGround) →
      (next waiting = .ok (.solved τ) ↔ P ∧ ∀ c ∈ waiting, Passes predicates τ c))
    (checks : List Term) :
    (fireReady predicates σ checks >>= fun fired =>
        match fired with
        | none => .ok .refuted
        | some waiting => next waiting) = .ok (.solved τ) ↔
      P ∧ ∀ c ∈ checks, Passes predicates τ c := by
  have hwait : ∀ c ∈ checks.filter (fun c => !(σ.apply c).isGround),
      ¬ (σ.apply c).isGround := by
    intro c hc
    simpa using (List.mem_filter.mp hc).2
  rw [bind_eq_ok_iff]
  constructor
  · rintro ⟨fired, hfired, h⟩
    cases fired with
    | none => simp at h
    | some waiting =>
        obtain ⟨hready, rfl⟩ := fireReady_eq_some_iff.mp hfired
        obtain ⟨p, hpass⟩ := (hnext _ hwait).mp h
        obtain ⟨hτ, hext⟩ := hP p
        exact ⟨p, (forall_passes_iff hσ hτ hext checks).mpr ⟨hready, hpass⟩⟩
  · rintro ⟨p, hpass⟩
    obtain ⟨hτ, hext⟩ := hP p
    obtain ⟨hready, hrest⟩ := (forall_passes_iff hσ hτ hext checks).mp hpass
    exact ⟨_, fireReady_eq_some_iff.mpr ⟨hready, rfl⟩, (hnext _ hwait).mpr ⟨p, hrest⟩⟩

/-! ### Runs -/

/-- **When a run ends well.** The steps suffice, the equations alone have that solution, and all
waiting checks pass under it. Induction on the equations; the checks that wait are not ground
under the bindings so far. -/
theorem solve_eq_solved_iff {id : String} {search : Search} (hoc : search.occursCheck = true)
    {pairs : List (Term × Term)} {steps : Nat} {σ τ : Bindings} {waiting : List Term}
    (hσ : σ.Acyclic) (he : σ.AreExprs) (hp : PairsOfExprs pairs)
    (hw : ∀ c ∈ waiting, ¬ (σ.apply c).isGround) :
    solve id search pairs steps σ waiting = .ok (.solved τ) ↔
      search.Affords steps pairs.length ∧ σ.unifyAll pairs = some τ ∧
        ∀ c ∈ waiting, Passes search.predicates τ c := by
  induction pairs generalizing steps σ waiting with
  | nil =>
      rw [solve, Bindings.unifyAll]
      cases waiting with
      | nil => simp [Search.Affords]
      | cons c waiting =>
          simp only [List.isEmpty_cons, Bool.false_eq_true, if_false, Except.ok.injEq,
            reduceCtorEq, false_iff, not_and]
          rintro - hτ hpass
          obtain rfl := Option.some.inj hτ
          exact hw c (by simp) (hpass c (by simp)).1
  | cons p pairs ih =>
      obtain ⟨t, u⟩ := p
      obtain ⟨ht, hu⟩ := hp (t, u) (by simp)
      have hps : PairsOfExprs pairs := fun q hq => hp q (by simp [hq])
      rw [solve, List.length_cons, Search.affords_succ, hoc,
        Bindings.tryUnify_eq_ok hσ he ht hu true]
      by_cases hlimit : search.limit < (steps : Int) + 1
      · simp [hlimit, throw, throwThe, MonadExceptOf.throw, bind, Except.bind]
      · simp only [hlimit, if_false, not_false_eq_true, true_and, Bindings.unifyAll]
        cases hρ : σ.unify t u true with
        | none => simp [bind, Except.bind, pure, Except.pure]
        | some ρ =>
            have hm := Bindings.mostGeneral_of_unify hσ he ht hu hρ
            simp only [Option.bind_some]
            rw [← and_assoc]
            refine fire_then_eq_solved_iff hm.acyclic ?_ (fun waiting' hw' => ?_) waiting
            · rintro ⟨-, hτ⟩
              obtain ⟨hτa, -, hiff⟩ := Bindings.unifyAll_spec hm.acyclic hm.areExprs hps hτ
              exact ⟨hτa, fun θ hθ => ((hiff θ).mp hθ).1⟩
            · rw [ih hm.acyclic hm.areExprs hps hw', and_assoc]

/-- How a run without checks ends: cut short by the limit, or as the equations alone end. -/
theorem solve_nil_cases {id : String} {search : Search} (hoc : search.occursCheck = true)
    {pairs : List (Term × Term)} {steps : Nat} {σ : Bindings} (hσ : σ.Acyclic)
    (he : σ.AreExprs) (hp : PairsOfExprs pairs) :
    solve id search pairs steps σ [] = .error (.searchLimit id search.limit) ∨
      (∃ τ, σ.unifyAll pairs = some τ ∧ solve id search pairs steps σ [] = .ok (.solved τ)) ∨
      (σ.unifyAll pairs = none ∧ solve id search pairs steps σ [] = .ok .refuted) := by
  induction pairs generalizing steps σ with
  | nil => exact .inr (.inl ⟨σ, rfl, rfl⟩)
  | cons p pairs ih =>
      obtain ⟨t, u⟩ := p
      obtain ⟨ht, hu⟩ := hp (t, u) (by simp)
      have hps : PairsOfExprs pairs := fun q hq => hp q (by simp [hq])
      rw [solve, hoc, Bindings.tryUnify_eq_ok hσ he ht hu true, Bindings.unifyAll]
      by_cases hlimit : search.limit < (steps : Int) + 1
      · left
        simp [hlimit, throw, throwThe, MonadExceptOf.throw, bind, Except.bind]
      · simp only [hlimit, if_false]
        cases hρ : σ.unify t u true with
        | none => exact .inr (.inr ⟨rfl, rfl⟩)
        | some ρ =>
            -- With nothing to fire, the rest of the run is the run of the rest.
            have hm := Bindings.mostGeneral_of_unify hσ he ht hu hρ
            exact ih hm.acyclic hm.areExprs hps

end Relation

end Deduction
