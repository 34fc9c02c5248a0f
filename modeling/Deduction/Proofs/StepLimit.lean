import Deduction.Proofs.Backward
import Deduction.Proofs.Deferral

/-!
# The step limit

Each equation of a run costs one step, and the limit on the steps is looked at before the equation
is solved. Nothing else in a run depends on the limit. So of two runs that differ in the limit only,
the one with the smaller limit is either cut short or ends exactly as the other one does, with the
same bindings, the same refusal or the same error. A limit that suffices for all equations cuts
nothing short: a relation has as many equations as parameters and goals that are no checks, and
since there is at most one such goal for each parameter, twice the number of slots of a rule is
enough.

## Main results

* `Relation.solve_limit`: one step after the other under two limits.
* `Relation.run_limit`: the run of a relation under two limits.
* `Relation.eq_searchLimit_of_first`: a run that is cut short reports its own limit.
* `Rule.first_limit_mono`: the step limit only cuts runs short.
-/

namespace Deduction

namespace Relation

/-! ### The number of equations -/

/-- As many equations are set up for the goals as there are equalities. -/
theorem length_of_goalEquations {env : String → Option Term} {equalities : List (String × Term)}
    {goals : List (Term × Term)} (h : goalEquations env equalities = .ok goals) :
    goals.length = equalities.length := by
  induction equalities generalizing goals with
  | nil =>
      cases h
      rfl
  | cons p equalities ih =>
      obtain ⟨t, -, h⟩ := bind_eq_ok_iff.mp h
      obtain ⟨rest, hrest, h⟩ := bind_eq_ok_iff.mp h
      cases h
      rw [List.length_cons, List.length_cons, ih hrest]

/-- The equalities are the goals that are no checks. -/
theorem length_equalities (rel : Relation) :
    rel.equalities.length = rel.goals.countP Goal.isEquation := by
  rw [equalities, List.length_filterMap_eq_countP]
  refine List.countP_congr fun goal _ => ?_
  cases goal <;> simp [Goal.isEquation]

/-! ### Two limits -/

section

variable {id : String} {search : Search} {m m' : Int} {pairs : List (Term × Term)} {steps : Nat}
  {σ : Bindings} {waiting : List Term} {rel : Relation} {args : List Term} {e : Error}

/-- If two ways to go on after a firing are alike unless the first one is cut short, then so are the
firings with what follows them. -/
theorem fire_then_limit {predicates : PredicateTable} {P : Prop}
    {next next' : List Term → Except Error Outcome}
    (hnext : ∀ waiting, next waiting = .error e ∧ P ∨ next' waiting = next waiting) :
    ((fireReady predicates σ waiting >>= fun fired =>
        match fired with
        | none => .ok .refuted
        | some waiting => next waiting) = .error e ∧ P) ∨
      (fireReady predicates σ waiting >>= fun fired =>
        match fired with
        | none => .ok .refuted
        | some waiting => next' waiting) =
      fireReady predicates σ waiting >>= fun fired =>
        match fired with
        | none => .ok .refuted
        | some waiting => next waiting := by
  cases fireReady predicates σ waiting with
  | error e => exact .inr rfl
  | ok fired => cases fired with
    | none => exact .inr rfl
    | some waiting' => exact hnext waiting'

/-- **One step after the other under two limits.** Under the smaller one the run is cut short, and
then it does not suffice for all equations; or the two runs end alike. Induction on the equations: a
step within the smaller limit is within the larger one. -/
theorem solve_limit (hm : m ≤ m') :
    solve id { search with limit := m } pairs steps σ waiting = .error (.searchLimit id m) ∧
        m < ((steps + pairs.length : Nat) : Int) ∨
      solve id { search with limit := m' } pairs steps σ waiting =
        solve id { search with limit := m } pairs steps σ waiting := by
  induction pairs generalizing steps σ waiting with
  | nil => exact .inr rfl
  | cons p pairs ih =>
      obtain ⟨t, u⟩ := p
      by_cases hlimit : m < (steps : Int) + 1
      · left
        rw [solve, if_pos hlimit, List.length_cons]
        exact ⟨rfl, by omega⟩
      · have hlimit' : ¬ m' < (steps : Int) + 1 := by omega
        rw [solve, solve, if_neg hlimit, if_neg hlimit']
        cases σ.tryUnify t u search.occursCheck with
        | error e => exact .inr rfl
        | ok found => cases found with
          | none => exact .inr rfl
          | some ρ =>
              rw [List.length_cons, Nat.add_comm pairs.length, ← Nat.add_assoc]
              exact fire_then_limit fun waiting' => ih

/-- **The run of a relation under two limits.** -/
theorem run_limit (hm : m ≤ m') :
    rel.run { search with limit := m } args = .error (.searchLimit rel.id m) ∧
        m < ((rel.arity + rel.equalities.length : Nat) : Int) ∨
      rel.run { search with limit := m' } args = rel.run { search with limit := m } args := by
  by_cases hlen : args.length = rel.arity
  · simp only [run, if_pos hlen]
    cases Term.instantiateAll (slotVar? (slotVars search.serial rel.slots)) rel.checks with
    | error e => exact .inr rfl
    | ok checks =>
        cases hgoals : goalEquations (slotVar? (slotVars search.serial rel.slots))
          rel.equalities with
        | error e => exact .inr rfl
        | ok goals =>
            have hlength : (argEquations (slotVar? (slotVars search.serial rel.slots)) rel.params
                args ++ goals).length = rel.arity + rel.equalities.length := by
              simp [argEquations, hlen, arity, length_of_goalEquations hgoals]
            rw [← hlength, ← Nat.zero_add (List.length _)]
            exact fire_then_limit fun waiting => solve_limit hm
  · rw [run, run, if_neg hlen, if_neg hlen]
    exact .inr rfl

/-- **The solution of a relation under two limits.** -/
theorem first_limit (hm : m ≤ m') :
    rel.first { search with limit := m } args = .error (.searchLimit rel.id m) ∧
        m < ((rel.arity + rel.equalities.length : Nat) : Int) ∨
      rel.first { search with limit := m' } args = rel.first { search with limit := m } args := by
  rw [first, first]
  obtain ⟨hcut, hneeded⟩ | hsame := @run_limit search m m' rel args hm
  · rw [hcut]
    exact .inl ⟨rfl, hneeded⟩
  · rw [hsame]
    exact .inr rfl

/-- A run that is cut short reports its own limit. -/
theorem eq_searchLimit_of_first (h : rel.first search args = .error e)
    (hkind : e.kind = .exhausted) : e = .searchLimit rel.id search.limit := by
  rcases bind_eq_error_iff.mp h with h | ⟨outcome, -, h⟩
  · by_cases hlen : args.length = rel.arity
    · cases runFailure_of_run hlen h with
      | outOfSteps => rfl
      | _ => cases hkind
    · rw [run, if_neg hlen] at h
      cases h
      cases hkind
  · cases outcome <;> cases h

/-- A limit that suffices for all equations cuts nothing short: a larger one would report itself. -/
theorem failureKind_ne_exhausted
    (h : ((rel.arity + rel.equalities.length : Nat) : Int) ≤ m) :
    failureKind (rel.first { search with limit := m } args) ≠ some .exhausted := by
  obtain ⟨-, hneeded⟩ | hsame := @first_limit search m (m + 1) rel args (by omega)
  · omega
  · intro hkind
    cases hfirst : rel.first { search with limit := m } args with
    | ok result =>
        rw [hfirst] at hkind
        cases hkind
    | error e =>
        rw [hfirst] at hkind hsame
        have hm := eq_searchLimit_of_first hfirst (Option.some.inj hkind)
        have hm' := eq_searchLimit_of_first hsame (Option.some.inj hkind)
        have hlimits : m = m + 1 := (Error.searchLimit.inj (hm.symm.trans hm')).2
        omega

end

end Relation

namespace Rule

/-- There is at most one equality for each input. -/
theorem length_inputEqualities_le (n : Nat) (ts : List Term) :
    (inputEqualities n ts).length ≤ ts.length := by
  induction ts generalizing n with
  | nil => exact le_refl _
  | cons t ts ih =>
      rw [inputEqualities, List.length_cons]
      split
      · exact Nat.le_succ_of_le (ih (n + 1))
      · exact Nat.succ_le_succ (ih (n + 1))

theorem length_outputEqualities (n : Nat) (ts : List Term) :
    (outputEqualities n ts).length = ts.length := by
  induction ts generalizing n with
  | nil => rfl
  | cons t ts ih => simp [outputEqualities, ih]

/-- A compiled rule has at most one equality for each slot of the rule. -/
theorem length_equalities_compile_le (r : Rule) : r.compile.equalities.length ≤ r.arity := by
  calc r.compile.equalities.length
      = (inputEqualities 1 r.inputs).length + r.conclusion.length := by
        rw [equalities_compile, List.length_append, length_outputEqualities]
    _ ≤ r.inputs.length + r.conclusion.length :=
        Nat.add_le_add_right (length_inputEqualities_le 1 r.inputs) _
    _ = r.arity := by rw [inputs, List.length_append, arity]

/-- **The step limit only cuts runs short.** If a run of the relation of a rule ends in anything but
running out of steps, be it with bindings, without them, or with an error, then it ends in the same
way under every larger limit. The steps never run out if there are as many as the relation has
parameters and goals that are no checks, and these are at most twice as many as the rule has
slots. -/
theorem first_limit_mono (r : Rule) (search : Search) (args : List Term) :
    (∀ m m' : Int, m ≤ m' →
      failureKind (r.compile.first { search with limit := m } args) ≠ some .exhausted →
        r.compile.first { search with limit := m' } args =
          r.compile.first { search with limit := m } args) ∧
      (∀ m : Int, ((r.compile.arity + r.compile.goals.countP Goal.isEquation : Nat) : Int) ≤ m →
        failureKind (r.compile.first { search with limit := m } args) ≠ some .exhausted) ∧
      r.compile.arity + r.compile.goals.countP Goal.isEquation ≤ 2 * r.arity := by
  rw [← Relation.length_equalities]
  refine ⟨fun m m' hm hkind => ?_, fun m hm => Relation.failureKind_ne_exhausted hm, ?_⟩
  · obtain ⟨hcut, -⟩ | hsame := @Relation.first_limit search m m' r.compile args hm
    · rw [hcut] at hkind
      exact absurd rfl hkind
    · exact hsame
  · have := length_equalities_compile_le r
    rw [arity_compile]
    omega

/-- A rule with the side condition `(ok? A)`, which is ready after the first step. -/
def earlyCheck : Rule :=
  ⟨"r", [.atom "A"], [], [.ofName "f" [.atom "A"]], some [.ofName "ok?" [.atom "A"]]⟩

/-- The search with a predicate that always breaks down, under a limit. -/
def brokenSearch (limit : Int) : Search :=
  ⟨⟨[("ok?", fun _ => .error "broken")]⟩, limit, true, 1⟩

/-- Without steps the run is cut short. With one step it comes to the predicate, which breaks down,
and there it ends with any number of steps more. Three steps are enough for all arguments, here for
the wrong number of them. -/
theorem first_limit_mono_broken :
    let args : List Term := [.atom "P", .ofName "f" [.atom "P"]]
    let failure : Error := .prereqFailed (.ofName "ok?" [.atom "P"]) "broken"
    earlyCheck.compile.first (brokenSearch 0) args = .error (.searchLimit "r" 0) ∧
      earlyCheck.compile.first (brokenSearch 1) args = .error failure ∧
      earlyCheck.compile.first (brokenSearch 10000) args = .error failure ∧
      earlyCheck.compile.arity + earlyCheck.compile.goals.countP Goal.isEquation = 3 ∧
      failureKind (earlyCheck.compile.first (brokenSearch 3) [.atom "P"]) ≠ some .exhausted := by
  intro args failure
  have hone : earlyCheck.compile.first (brokenSearch 1) args = .error failure := by rfl
  have hkind : failureKind (earlyCheck.compile.first (brokenSearch 1) args) ≠ some .exhausted := by
    rw [hone]
    decide
  have hmore := (first_limit_mono earlyCheck (brokenSearch 1) args).1 1 10000 (by decide) hkind
  exact ⟨by rfl, hone, hmore.trans hone, by rfl,
    (first_limit_mono earlyCheck (brokenSearch 3) [.atom "P"]).2.1 3 (by decide)⟩

end Rule

end Deduction
