import Deduction.Proofs.Termination

/-!
# The occurs check

Without the occurs check a variable may be bound to a term in which it occurs. Under such a binding
application does not end, and with it neither do unification and runs. But where the check is made
and nothing comes of it, leaving it out changes nothing. If unification with the check finds
bindings, then each of its steps is also a step without the check, and all bindings on the way are
acyclic. So unification without the check ends with the same bindings. The same is true of the runs
of relations, where the checks that are fired between the equations see the same bindings too.

The converse is false: without the check there may be bindings where with it there are none.

## Main results

* `Bindings.unifyWithin_unchecked`: the recursion without the check has the successes of the one
  with it.
* `Relation.run_unchecked`, `Relation.runWithin_unchecked_comesTo`: so have the runs of a relation.
* `success_without_occursCheck`: the whole statement.
-/

namespace Deduction

namespace Bindings

/-! ### Unification -/

section

variable {σ τ : Bindings} {t u : Term} {pairs : List (Term × Term)}

/-- Rounds with the check that find bindings are rounds without it. -/
theorem unifyRounds_unchecked {rounds : Nat} (h : unifyRounds true rounds pairs σ = .unified τ) :
    unifyRounds false rounds pairs σ = .unified τ := by
  fun_induction unifyRounds true rounds pairs σ with
  | case1 rounds pairs σ hm => rw [unifyRounds_of_agree hm, h]
  | case2 rounds pairs σ hm => cases h
  | case3 rounds pairs σ v t rest hm hocc => cases h
  | case4 pairs σ v t rest hm hocc => cases h
  | case5 pairs σ v t rest hm hocc rounds ih =>
      rw [unifyRounds, hm]
      exact ih h

theorem unify_unchecked (h : σ.unify t u true = some τ) : σ.unify t u false = some τ := by
  rw [unify_eq_some_iff] at h
  rw [unify, verdict, unifyRounds_unchecked h, Verdict.bindings?]

theorem tryUnify_unchecked (h : σ.tryUnify t u true = .ok (some τ)) :
    σ.tryUnify t u false = .ok (some τ) := by
  simp only [tryUnify, bind_eq_ok_iff] at h ⊢
  obtain ⟨t', ht, u', hu, h⟩ := h
  exact ⟨t', ht, u', hu, congrArg Except.ok (unify_unchecked (Except.ok.inj h))⟩

/-- If each pair may be unified in another way with the same success, then so may pairs in a row. -/
theorem inOrder_of_successes {f g : Bindings → Term → Term → Option (Option Bindings)}
    (hfg : ∀ σ t u τ, f σ t u = some (some τ) → g σ t u = some (some τ))
    (h : inOrder f σ pairs = some (some τ)) : inOrder g σ pairs = some (some τ) := by
  induction pairs generalizing σ with
  | nil => exact h
  | cons p pairs ih =>
      obtain ⟨result, hf, hrest⟩ := Option.bind_eq_some_iff.mp h
      cases result with
      | none => cases hrest
      | some ρ => exact Option.bind_eq_some_iff.mpr ⟨some ρ, hfg _ _ _ _ hf, ih hrest⟩

theorem bindVar_unchecked {v : Var} (h : bindVar true σ v t = some τ) :
    bindVar false σ v t = some τ := by
  rw [bindVar] at h
  split at h
  · cases h
  · exact h

/-- **The recursion without the check has the successes of the recursion with it**, and at the same
depth. Induction on the depth; both ways to bind a variable and the loop over the parts are cases of
one call. -/
theorem unifyWithin_unchecked {depth : Nat} (h : unifyWithin true depth σ t u = some (some τ)) :
    unifyWithin false depth σ t u = some (some τ) := by
  induction depth generalizing σ t u τ with
  | zero => cases h
  | succ depth ih =>
      obtain ⟨t', ht, h⟩ := Option.bind_eq_some_iff.mp h
      obtain ⟨u', hu, h⟩ := Option.bind_eq_some_iff.mp h
      refine Option.bind_eq_some_iff.mpr ⟨t', ht, Option.bind_eq_some_iff.mpr ⟨u', hu, ?_⟩⟩
      unfold unifyApplied at h ⊢
      split_ifs at h ⊢ with hsame
      · exact h
      · split at h
        · exact congrArg some (bindVar_unchecked (Option.some.inj h))
        · exact congrArg some (bindVar_unchecked (Option.some.inj h))
        · split at h
          · exact inOrder_of_successes (fun _ _ _ _ => ih) h
          · cases h

/-- So it ends where unification with the check finds bindings. -/
theorem Acyclic.unifyWithin_unchecked_comesTo (hσ : σ.Acyclic) (h : σ.unify t u true = some τ) :
    ComesTo (unifyWithin false · σ t u) (some τ) := by
  obtain ⟨depth, hdepth⟩ := hσ.unifyWithin_comesTo t u
  exact ⟨depth, fun d hd => unifyWithin_unchecked ((hdepth d hd).trans (congrArg some h))⟩

end

end Bindings

namespace Relation

/-! ### Runs -/

section

variable {id : String} {search : Search} {σ τ : Bindings} {t u : Term}
  {pairs : List (Term × Term)} {steps : Nat} {waiting : List Term} {rel : Relation}
  {args : List Term}

/-- The first equation on the way to a solution: it is within the limit and has bindings under which
no check fails. -/
theorem solve_cons_eq_solved_iff :
    solve id search ((t, u) :: pairs) steps σ waiting = .ok (.solved τ) ↔
      ¬ search.limit < (steps : Int) + 1 ∧
        ∃ ρ waiting', σ.tryUnify t u search.occursCheck = .ok (some ρ) ∧
          fireReady search.predicates ρ waiting = .ok (some waiting') ∧
            solve id search pairs (steps + 1) ρ waiting' = .ok (.solved τ) := by
  rw [solve]
  by_cases hlimit : search.limit < (steps : Int) + 1
  · simp only [hlimit, if_true, not_true_eq_false, false_and, iff_false]
    intro h
    cases h
  · simp only [hlimit, if_false, not_false_eq_true, true_and, bind_eq_ok_iff]
    constructor
    · rintro ⟨result, hunify, h⟩
      cases result with
      | none => cases h
      | some ρ =>
          obtain ⟨fired, hfired, h⟩ := bind_eq_ok_iff.mp h
          cases fired with
          | none => cases h
          | some waiting' => exact ⟨ρ, waiting', hunify, hfired, h⟩
    · rintro ⟨ρ, waiting', hunify, hfired, h⟩
      exact ⟨some ρ, hunify, bind_eq_ok_iff.mpr ⟨some waiting', hfired, h⟩⟩

/-- When a run of any relation on any terms ends well. -/
theorem run_eq_solved_iff :
    rel.run search args = .ok (.solved τ) ↔ args.length = rel.arity ∧
      ∃ checks goals waiting,
        Term.instantiateAll (slotVar? (slotVars search.serial rel.slots)) rel.checks = .ok checks ∧
        goalEquations (slotVar? (slotVars search.serial rel.slots)) rel.equalities = .ok goals ∧
        fireReady search.predicates .empty checks = .ok (some waiting) ∧
        solve rel.id search
          (argEquations (slotVar? (slotVars search.serial rel.slots)) rel.params args ++ goals) 0
          .empty waiting = .ok (.solved τ) := by
  rw [run]
  split_ifs with hlen
  · simp only [hlen, true_and, bind_eq_ok_iff]
    constructor
    · rintro ⟨checks, hchecks, goals, hgoals, fired, hfired, h⟩
      cases fired with
      | none => cases h
      | some waiting => exact ⟨checks, goals, waiting, hchecks, hgoals, hfired, h⟩
    · rintro ⟨checks, goals, waiting, hchecks, hgoals, hfired, h⟩
      exact ⟨checks, hchecks, goals, hgoals, some waiting, hfired, h⟩
  · simp [hlen]

/-- **Equations that are solved with the check are solved without it.** Induction on the
equations. -/
theorem solve_unchecked (hoc : search.occursCheck = true)
    (h : solve id search pairs steps σ waiting = .ok (.solved τ)) :
    solve id { search with occursCheck := false } pairs steps σ waiting = .ok (.solved τ) := by
  induction pairs generalizing steps σ waiting with
  | nil => exact h
  | cons p pairs ih =>
      obtain ⟨hlimit, ρ, waiting', hunify, hfired, h⟩ := solve_cons_eq_solved_iff.mp h
      rw [hoc] at hunify
      exact solve_cons_eq_solved_iff.mpr
        ⟨hlimit, ρ, waiting', Bindings.tryUnify_unchecked hunify, hfired, ih h⟩

/-- A firing by recursion goes on with the checks that wait after the firing. -/
theorem fireWithin_then_of_fired (hσ : σ.Acyclic) {predicates : PredicateTable}
    {checks : List Term} (hfired : fireReady predicates σ checks = .ok (some waiting))
    {next : Nat → List Term → ExceptT Error Option Outcome} {result : Except Error Outcome}
    (hnext : ComesTo (fun d => (next d waiting).run) result) :
    ComesTo
      (fun d => (fireWithin d predicates σ checks >>= fun fired =>
        match fired with
        | none => pure .refuted
        | some waiting => next d waiting).run) result := by
  have hfire : ComesTo (fun d => (fireWithin d predicates σ checks).run) _ :=
    fireWithin_comesTo hσ checks
  rw [hfired] at hfire
  exact hfire.bind hnext

/-- The recursions on the way end: the bindings found so far are those found with the check, hence
acyclic. Induction on the equations. -/
theorem solveWithin_unchecked_comesTo (hoc : search.occursCheck = true) (hσ : σ.Acyclic)
    (h : solve id search pairs steps σ waiting = .ok (.solved τ)) :
    ComesTo
      (fun d => (solveWithin d id { search with occursCheck := false } pairs steps σ waiting).run)
      (.ok (.solved τ)) := by
  induction pairs generalizing steps σ waiting with
  | nil =>
      rw [solve] at h
      split_ifs at h with hw
      · simp only [solveWithin, hw, if_true]
        exact ⟨0, fun _ _ => congrArg some h⟩
      · cases h
  | cons p pairs ih =>
      obtain ⟨hlimit, ρ, waiting', hunify, hfired, h⟩ := solve_cons_eq_solved_iff.mp h
      rw [hoc] at hunify
      have hunify := Bindings.unify_of_tryUnify hunify
      have hρ := (Bindings.growsBy_of_unify hσ hunify).acyclic
      simp only [solveWithin, hlimit, if_false]
      refine (hσ.unifyWithin_unchecked_comesTo hunify).lift_bind ?_
      exact fireWithin_then_of_fired hρ hfired (ih hρ h)

theorem runWithin_unchecked_comesTo (hoc : search.occursCheck = true)
    (h : rel.run search args = .ok (.solved τ)) :
    ComesTo (fun d => (rel.runWithin d { search with occursCheck := false } args).run)
      (.ok (.solved τ)) := by
  obtain ⟨hlen, checks, goals, waiting, hchecks, hgoals, hfired, h⟩ := run_eq_solved_iff.mp h
  simp only [runWithin, if_pos hlen, hchecks, hgoals]
  exact fireWithin_then_of_fired Bindings.acyclic_empty hfired
    (solveWithin_unchecked_comesTo hoc Bindings.acyclic_empty h)

theorem run_unchecked (hoc : search.occursCheck = true)
    (h : rel.run search args = .ok (.solved τ)) :
    rel.run { search with occursCheck := false } args = .ok (.solved τ) := by
  obtain ⟨hlen, checks, goals, waiting, hchecks, hgoals, hfired, h⟩ := run_eq_solved_iff.mp h
  exact run_eq_solved_iff.mpr
    ⟨hlen, checks, goals, waiting, hchecks, hgoals, hfired, solve_unchecked hoc h⟩

end

end Relation

/-! ### Success -/

/-- **Leaving out the occurs check never changes a success.** If unification with the check finds
bindings under acyclic ones, then without the check it finds the same ones, and as a recursion it
ends with them. If the relation of a rule has a solution with the check, then without the check it
has the same one, with the same predicates, limit and first serial, and its recursions end. -/
theorem success_without_occursCheck :
    (∀ σ : Bindings, σ.Acyclic → ∀ (t u : Term) (τ : Bindings),
      σ.tryUnify t u true = .ok (some τ) →
        σ.tryUnify t u false = .ok (some τ) ∧
          ComesTo (Bindings.unifyWithin false · σ t u) (some τ)) ∧
      ∀ (r : Rule) (search : Search) (args : List Term) (τ : Bindings),
        search.occursCheck = true → r.compile.first search args = .ok (some τ) →
          r.compile.first { search with occursCheck := false } args = .ok (some τ) ∧
            ComesTo
              (fun depth =>
                (r.compile.runWithin depth { search with occursCheck := false } args).run)
              (.ok (.solved τ)) := by
  constructor
  · intro σ hσ t u τ h
    exact ⟨Bindings.tryUnify_unchecked h,
      hσ.unifyWithin_unchecked_comesTo (Bindings.unify_of_tryUnify h)⟩
  · intro r search args τ hoc h
    rw [Relation.first_eq_some_iff] at h ⊢
    exact ⟨Relation.run_unchecked hoc h, Relation.runWithin_unchecked_comesTo hoc h⟩

/-- Variables are bound on both sides, `X` to `(not Y)` and `Z` to `(not Y)`; and an unknown is
solved for by a rule. -/
theorem success_without_occursCheck_both_sides :
    let X : Var := ⟨"X", 1⟩
    let Y : Var := ⟨"Y", 2⟩
    let Z : Var := ⟨"Z", 3⟩
    let t := Term.ofName "and" [.var X, .ofName "not" [.var Y]]
    let u := Term.ofName "and" [.ofName "not" [.var Y], .var Z]
    let τ := (Bindings.empty.insert X (.ofName "not" [.var Y])).insert Z (.ofName "not" [.var Y])
    let args : List Term := [.var X, .ofName "not" [.atom "P"]]
    let ρ : Bindings := ⟨[(X, .atom "P"), (⟨"q#1", 8⟩, .ofName "not" [.atom "P"]),
      (⟨"A", 7⟩, .var X)]⟩
    Bindings.empty.tryUnify t u true = .ok (some τ) ∧
      Bindings.empty.tryUnify t u false = .ok (some τ) ∧
      ComesTo (Bindings.unifyWithin false · .empty t u) (some τ) ∧
      Rule.negating.compile.first ⟨⟨[]⟩, 3, true, 7⟩ args = .ok (some ρ) ∧
      Rule.negating.compile.first ⟨⟨[]⟩, 3, false, 7⟩ args = .ok (some ρ) := by
  intro X Y Z t u τ args ρ
  have hunify : Bindings.empty.tryUnify t u true = .ok (some τ) := by rfl
  have hfirst : Rule.negating.compile.first ⟨⟨[]⟩, 3, true, 7⟩ args = .ok (some ρ) := by rfl
  obtain ⟨hsame, hcomes⟩ :=
    success_without_occursCheck.1 .empty Bindings.acyclic_empty t u τ hunify
  exact ⟨hunify, hsame, hcomes, hfirst,
    (success_without_occursCheck.2 Rule.negating _ args ρ rfl hfirst).1⟩

/-- Without the check a rule may have bindings with a cycle, where with it there are none. -/
example :
    let V : Term := .var ⟨"V", 9⟩
    Rule.negating.compile.first ⟨⟨[]⟩, 3, true, 1⟩ [V, V] = .ok none ∧
      Rule.negating.compile.first ⟨⟨[]⟩, 3, false, 1⟩ [V, V] =
        .ok (some ⟨[(⟨"V", 9⟩, .ofName "not" [V]), (⟨"q#1", 2⟩, V), (⟨"A", 1⟩, V)]⟩) :=
  ⟨rfl, rfl⟩

end Deduction
