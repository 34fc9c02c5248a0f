import Deduction.Proofs.Compile

/-!
# Checks during a run and checks at its end

A run evaluates a check as soon as it has no variables left, which may be before the first
argument is bound or only after the last goal. We compare it with a run that leaves all checks
to the end: solve the equations alone, apply the bindings to every side condition, and evaluate
what comes out. With predicates that never break down and with enough steps, the two agree on
every relation of an accepted rule. Moreover, a run asks the predicates for nothing else than
the values that the side conditions have at the end. We say so by changing the predicates: a
table that agrees with the given one on those values leads to the same result, whatever it
answers elsewhere and even if it breaks down there.

## Main definitions

* `Relation.unchecked`: a relation without its checks.
* `Relation.checkValue`: a side condition as it stands under bindings.
* `PredicateTable.NeverBreaks`: the predicates answer all arguments.
* `PredicateTable.AgreesFinally`: two tables agree on what the checks come to in the end.

## Main results

* `Relation.solve_total`: unless the steps run out, a run comes to an outcome.
* `Relation.solve_congr`: a run sees the final values of its checks only.
* `Rule.first_eq_deferred`: checking early is checking at the end.
-/

namespace Deduction

/-- Is the goal an equation? -/
def Goal.isEquation : Goal → Bool
  | .unify _ _ => true
  | .check _ => false

/-- The predicates answer all arguments. -/
def PredicateTable.NeverBreaks (table : PredicateTable) : Prop :=
  ∀ p ∈ table.entries, ∀ args, ∃ answer, p.2 args = .ok answer

/-- Predicates that never break down decide every expression. -/
theorem PredicateTable.NeverBreaks.holds_total {table : PredicateTable} (h : table.NeverBreaks)
    {t : Term} (ht : t.isExpr) : ∃ b, table.holds t = .ok b := by
  cases t with
  | app op args =>
      obtain ⟨⟨name, rfl, -⟩, -, -⟩ := Term.isExpr_app_iff.mp ht
      by_cases hempty : table.entries.isEmpty
      · exact ⟨false, by rw [holds, if_pos hempty]⟩
      · simp only [holds, hempty, Bool.false_eq_true, if_false]
        cases hfind : table.find? name with
        | none => exact ⟨false, rfl⟩
        | some predicate =>
            obtain ⟨p, hp, rfl⟩ := Option.map_eq_some_iff.mp hfind
            obtain ⟨answer, hanswer⟩ := h p (List.mem_of_find?_eq_some hp) args
            exact ⟨isTrue answer, by simp only [hanswer]⟩
  | atom s => exact ⟨_, rfl⟩
  | hollow | wildcard | list | datum | group | var => exact ⟨_, rfl⟩

/-- The two tables agree on every value without variables that, if there are final bindings, is
what one of the checks comes to under them. -/
def PredicateTable.AgreesFinally (table predicates : PredicateTable) (final : Option Bindings)
    (checks : List Term) : Prop :=
  ∀ value : Term, value.isGround →
    (∀ τ, final = some τ → ∃ c ∈ checks, τ.apply c = value) →
    table.holds value = predicates.holds value

theorem PredicateTable.AgreesFinally.mono {table predicates : PredicateTable}
    {final : Option Bindings} {checks waiting : List Term}
    (h : table.AgreesFinally predicates final checks) (hsub : ∀ c ∈ waiting, c ∈ checks) :
    table.AgreesFinally predicates final waiting := by
  intro value hground hvalue
  refine h value hground fun τ hτ => ?_
  obtain ⟨c, hc, hcv⟩ := hvalue τ hτ
  exact ⟨c, hsub c hc, hcv⟩

namespace Relation

/-! ### Relations without checks -/

/-- The relation without its checks. -/
def unchecked (rel : Relation) : Relation := { rel with goals := rel.goals.filter Goal.isEquation }

@[simp] theorem equalities_unchecked (rel : Relation) :
    rel.unchecked.equalities = rel.equalities := by
  rw [equalities, equalities, unchecked, List.filterMap_filter]
  refine List.filterMap_congr fun goal _ => ?_
  cases goal with
  | unify slot template => rfl
  | check template => rfl

@[simp] theorem checks_unchecked (rel : Relation) : rel.unchecked.checks = [] := by
  rw [checks, unchecked, List.filterMap_filter, List.filterMap_eq_nil_iff]
  intro goal _
  cases goal with
  | unify slot template => rfl
  | check template => rfl

theorem equations_unchecked (rel : Relation) (serial : Int) (args : List Term) :
    rel.unchecked.equations serial args = rel.equations serial args := by
  rw [equations, equations, equalities_unchecked]
  rfl

/-- Without its checks a relation still mentions slots only. -/
theorem Scoped.unchecked {rel : Relation} (h : rel.Scoped) : rel.unchecked.Scoped where
  slot_mem p hp := h.slot_mem p (by simpa using hp)
  isExpr t ht := h.isExpr t (List.mem_append_left _ (by simpa using ht))
  names_mem t ht := h.names_mem t (List.mem_append_left _ (by simpa using ht))

/-- A relation has a solution when its run ends well. -/
theorem first_eq_some_iff {rel : Relation} {search : Search} {args : List Term} {σ : Bindings} :
    rel.first search args = .ok (some σ) ↔ rel.run search args = .ok (.solved σ) := by
  rw [first, bind_eq_ok_iff]
  constructor
  · rintro ⟨outcome, hrun, h⟩
    cases outcome with
    | solved τ =>
        obtain rfl : τ = σ := by simpa [pure, Except.pure] using h
        exact hrun
    | refuted => simp [pure, Except.pure] at h
    | suspended waiting => simp [pure, Except.pure] at h
  · intro hrun
    exact ⟨_, hrun, rfl⟩

/-- The solution without the checks is the one of the equations alone. -/
theorem Scoped.first_unchecked_iff {rel : Relation} (h : rel.Scoped) {search : Search}
    (hoc : search.occursCheck = true) {args : List Term} (hargs : ∀ a ∈ args, a.isExpr)
    (hlen : args.length = rel.arity) {σ : Bindings} :
    rel.unchecked.first search args = .ok (some σ) ↔
      search.Affords 0 (rel.arity + rel.equalities.length) ∧
        Bindings.empty.unifyAll (rel.equations search.serial args) = some σ := by
  rw [first_eq_some_iff, h.unchecked.run_eq_solved_iff hoc hargs hlen, equations_unchecked,
    equalities_unchecked, checks_unchecked]
  simp [arity, Relation.unchecked]

/-! ### Runs come to an outcome -/

/-- What is fired among checks whose values are decided comes to a result. -/
theorem fireReady_total {predicates : PredicateTable} {σ : Bindings} {checks : List Term}
    (h : ∀ c ∈ checks, ∃ b, predicates.holds (σ.apply c) = .ok b) :
    ∃ fired, fireReady predicates σ checks = .ok fired := by
  induction checks with
  | nil => exact ⟨some [], rfl⟩
  | cons c checks ih =>
      obtain ⟨fired, hfired⟩ := ih fun d hd => h d (by simp [hd])
      obtain ⟨b, hb⟩ := h c (by simp)
      rw [fireReady, hfired, hb]
      by_cases hc : (σ.apply c).isGround
      · cases b with
        | false => exact ⟨none, by simp [hc, bind, Except.bind, pure, Except.pure]⟩
        | true => exact ⟨fired, by simp [hc, bind, Except.bind]⟩
      · exact ⟨fired.map (c :: ·), by simp [hc, bind, Except.bind, pure, Except.pure]⟩

/-- What still waits was there before. -/
theorem mem_of_fireReady {predicates : PredicateTable} {σ : Bindings} {checks waiting : List Term}
    (h : fireReady predicates σ checks = .ok (some waiting)) : ∀ c ∈ waiting, c ∈ checks := by
  obtain ⟨-, rfl⟩ := fireReady_eq_some_iff.mp h
  exact fun c hc => (List.mem_filter.mp hc).1

/-- If going on after a firing comes to an outcome, or to the error `e` under the condition `P`,
then so does the firing with what follows it. -/
theorem fire_then_total {predicates : PredicateTable} (hpred : predicates.NeverBreaks)
    {σ : Bindings} (hσ : σ.Acyclic) (he : σ.AreExprs) {checks : List Term}
    (hchecks : ∀ c ∈ checks, c.isExpr) {e : Error} {P : Prop}
    {next : List Term → Except Error Outcome}
    (hnext : ∀ waiting : List Term, (∀ c ∈ waiting, c.isExpr) →
      next waiting = .error e ∧ P ∨ ∃ outcome, next waiting = .ok outcome) :
    ((fireReady predicates σ checks >>= fun fired =>
        match fired with
        | none => .ok .refuted
        | some waiting => next waiting) = .error e ∧ P) ∨
      ∃ outcome, (fireReady predicates σ checks >>= fun fired =>
        match fired with
        | none => .ok .refuted
        | some waiting => next waiting) = .ok outcome := by
  have hholds : ∀ c ∈ checks, ∃ b, predicates.holds (σ.apply c) = .ok b := fun c hc =>
    hpred.holds_total (hσ.isExpr_apply he (hchecks c hc))
  obtain ⟨fired, hfired⟩ := fireReady_total hholds
  rw [hfired]
  cases fired with
  | none => exact .inr ⟨_, rfl⟩
  | some waiting =>
      exact hnext waiting fun c hc => hchecks c (mem_of_fireReady hfired c hc)

/-- **A run comes to an outcome unless the steps run out**, and they do so only if they do not
suffice for all equations. Induction on the equations. -/
theorem solve_total {id : String} {search : Search} (hoc : search.occursCheck = true)
    (hpred : search.predicates.NeverBreaks) {pairs : List (Term × Term)} {steps : Nat}
    {σ : Bindings} {waiting : List Term} (hσ : σ.Acyclic) (he : σ.AreExprs)
    (hp : PairsOfExprs pairs) (hw : ∀ c ∈ waiting, c.isExpr) :
    solve id search pairs steps σ waiting = .error (.searchLimit id search.limit) ∧
        ¬ search.Affords steps pairs.length ∨
      ∃ outcome, solve id search pairs steps σ waiting = .ok outcome := by
  induction pairs generalizing steps σ waiting with
  | nil =>
      right
      rw [solve]
      split
      · exact ⟨_, rfl⟩
      · exact ⟨_, rfl⟩
  | cons p pairs ih =>
      obtain ⟨t, u⟩ := p
      obtain ⟨ht, hu⟩ := hp (t, u) (by simp)
      rw [solve, hoc, Bindings.tryUnify_eq_ok hσ he ht hu true, List.length_cons,
        Search.affords_succ]
      by_cases hlimit : search.limit < (steps : Int) + 1
      · left
        simp [hlimit, throw, throwThe, MonadExceptOf.throw, bind, Except.bind]
      · simp only [hlimit, if_false, not_false_eq_true, true_and]
        cases hρ : σ.unify t u true with
        | none => exact .inr ⟨_, rfl⟩
        | some ρ =>
            have hm := Bindings.mostGeneral_of_unify hσ he ht hu hρ
            exact fire_then_total hpred hm.acyclic hm.areExprs hw fun waiting' hw' =>
              ih hm.acyclic hm.areExprs (fun q hq => hp q (by simp [hq])) hw'

/-- The same of the run of a relation. -/
theorem Scoped.run_total {rel : Relation} (h : rel.Scoped) {search : Search}
    (hoc : search.occursCheck = true) (hpred : search.predicates.NeverBreaks) {args : List Term}
    (hargs : ∀ a ∈ args, a.isExpr) (hlen : args.length = rel.arity) :
    rel.run search args = .error (.searchLimit rel.id search.limit) ∧
        ¬ search.Affords 0 (rel.arity + rel.equalities.length) ∨
      ∃ outcome, rel.run search args = .ok outcome := by
  rw [h.run_eq search hlen, ← length_equations hlen]
  exact fire_then_total hpred Bindings.acyclic_empty Bindings.areExprs_empty h.isExpr_checks
    fun waiting hw => solve_total hoc hpred Bindings.acyclic_empty Bindings.areExprs_empty
      (h.pairsOfExprs hargs) hw

/-! ### What a run asks the predicates for -/

/-- Firing asks for the values of ground checks only. -/
theorem fireReady_congr {table predicates : PredicateTable} {σ : Bindings} {checks : List Term}
    (h : ∀ c ∈ checks, (σ.apply c).isGround →
      table.holds (σ.apply c) = predicates.holds (σ.apply c)) :
    fireReady table σ checks = fireReady predicates σ checks := by
  induction checks with
  | nil => rfl
  | cons c checks ih =>
      rw [fireReady, fireReady, ih fun d hd => h d (by simp [hd])]
      by_cases hc : (σ.apply c).isGround
      · rw [h c (by simp) hc]
      · simp [hc]

/-- Firing under tables that agree on the final values, and then going on alike, is the same:
what is ready now has its final value. -/
theorem fire_then_congr {table predicates : PredicateTable} {σ : Bindings}
    {final : Option Bindings} {checks : List Term} (hσ : σ.Acyclic)
    (hfinal : ∀ τ, final = some τ → τ.Acyclic ∧ ∀ θ, τ.RespectedBy θ → σ.RespectedBy θ)
    (h : table.AgreesFinally predicates final checks)
    {next' next : List Term → Except Error Outcome}
    (hnext : ∀ waiting : List Term, table.AgreesFinally predicates final waiting →
      next' waiting = next waiting) :
    (fireReady table σ checks >>= fun fired =>
        match fired with
        | none => .ok .refuted
        | some waiting => next' waiting) =
      fireReady predicates σ checks >>= fun fired =>
        match fired with
        | none => .ok .refuted
        | some waiting => next waiting := by
  have hfire : fireReady table σ checks = fireReady predicates σ checks := by
    refine fireReady_congr fun c hc hground => h _ hground fun τ hτ => ⟨c, hc, ?_⟩
    obtain ⟨hτa, hext⟩ := hfinal τ hτ
    exact Bindings.apply_eq_of_isGround hσ hτa hext hground
  rw [hfire]
  cases hfired : fireReady predicates σ checks with
  | error e => rfl
  | ok fired =>
      cases fired with
      | none => rfl
      | some waiting => exact hnext waiting (h.mono (mem_of_fireReady hfired))

/-- **A run sees the final values of its checks only.** Induction on the equations. -/
theorem solve_congr {id : String} {search : Search} {table : PredicateTable}
    (hoc : search.occursCheck = true) {pairs : List (Term × Term)} {steps : Nat} {σ : Bindings}
    {waiting : List Term} (hσ : σ.Acyclic) (he : σ.AreExprs) (hp : PairsOfExprs pairs)
    (h : table.AgreesFinally search.predicates (σ.unifyAll pairs) waiting) :
    solve id { search with predicates := table } pairs steps σ waiting =
      solve id search pairs steps σ waiting := by
  induction pairs generalizing steps σ waiting with
  | nil => rw [solve, solve]
  | cons p pairs ih =>
      obtain ⟨t, u⟩ := p
      obtain ⟨ht, hu⟩ := hp (t, u) (by simp)
      have hps : PairsOfExprs pairs := fun q hq => hp q (by simp [hq])
      rw [solve, solve, Bindings.tryUnify_eq_ok hσ he ht hu]
      by_cases hlimit : search.limit < (steps : Int) + 1
      · simp [hlimit, throw, throwThe, MonadExceptOf.throw, bind, Except.bind]
      · simp only [hlimit, if_false]
        cases hρ : σ.unify t u search.occursCheck with
        | none => rfl
        | some ρ =>
            rw [hoc] at hρ
            have hm := Bindings.mostGeneral_of_unify hσ he ht hu hρ
            rw [Bindings.unifyAll, hρ, Option.bind_some] at h
            -- The final bindings extend these, so what is ground here keeps its value.
            refine fire_then_congr hm.acyclic (fun τ hτ => ?_) h fun waiting' hw' =>
              ih hm.acyclic hm.areExprs hps hw'
            obtain ⟨hτa, -, hiff⟩ := Bindings.unifyAll_spec hm.acyclic hm.areExprs hps hτ
            exact ⟨hτa, fun θ hθ => ((hiff θ).mp hθ).1⟩

/-- The same of the run of a relation. -/
theorem Scoped.run_congr {rel : Relation} (hrel : rel.Scoped) {search : Search}
    {table : PredicateTable} (hoc : search.occursCheck = true) {args : List Term}
    (hargs : ∀ a ∈ args, a.isExpr) (hlen : args.length = rel.arity)
    (h : table.AgreesFinally search.predicates
      (Bindings.empty.unifyAll (rel.equations search.serial args))
      (rel.checks.map (Term.fill (rel.slotOfRun search.serial)))) :
    rel.run { search with predicates := table } args = rel.run search args := by
  have hp : PairsOfExprs (rel.equations search.serial args) := hrel.pairsOfExprs hargs
  rw [hrel.run_eq _ hlen, hrel.run_eq _ hlen]
  refine fire_then_congr Bindings.acyclic_empty (fun τ hτ => ?_) h fun waiting hw =>
    solve_congr hoc Bindings.acyclic_empty Bindings.areExprs_empty hp hw
  obtain ⟨hτa, -, -⟩ :=
    Bindings.unifyAll_spec Bindings.acyclic_empty Bindings.areExprs_empty hp hτ
  exact ⟨hτa, fun θ _ => Bindings.respectedBy_empty θ⟩

/-- A side condition as it stands under bindings: filled in with the slot variables of the run,
and the bindings applied. -/
def checkValue (rel : Relation) (serial : Int) (σ : Bindings) (template : Term) :
    Except Error Term := do
  return σ.apply (← Term.instantiate (slotVar? (slotVars serial rel.slots)) template)

theorem Scoped.checkValue_eq {rel : Relation} (h : rel.Scoped) (serial : Int) (σ : Bindings)
    {c : Term} (hc : c ∈ rel.checks) :
    rel.checkValue serial σ c = .ok (σ.apply (c.fill (rel.slotOfRun serial))) := by
  rw [checkValue, h.instantiate_eq (List.mem_append_right _ hc)]
  rfl

end Relation

namespace Rule

/-- **Checking early is checking at the end.** Take an accepted rule with any side conditions,
predicates that never break down, expressions as arguments, and enough steps. Then the relation
of the rule returns, and it returns bindings exactly when the relation without its checks returns
the same ones and every side condition is, under them, free of variables and true. Moreover, the
result is the same with every table of predicates that agrees with the given one on values
without variables, and if there are bindings in the end, on the values of the side conditions
under them only. The other table may answer otherwise elsewhere or break down, so no predicate is
ever called with anything else. -/
theorem first_eq_deferred (r : Rule) (hr : r.Accepted) (search : Search)
    (hoc : search.occursCheck = true) (hpred : search.predicates.NeverBreaks) (args : List Term)
    (hargs : ∀ a ∈ args, a.isExpr) (hlen : args.length = r.arity)
    (hlimit : r.compile.run search args ≠ .error (.searchLimit r.id search.limit)) :
    ∃ result, r.compile.first search args = .ok result ∧
      (∀ sub, result = some sub ↔
        r.compile.unchecked.first search args = .ok (some sub) ∧
          ∀ p ∈ r.checks, ∃ value, r.compile.checkValue search.serial sub p = .ok value ∧
            value.isGround ∧ search.predicates.holds value = .ok true) ∧
      ∀ table : PredicateTable,
        (∀ value : Term, value.isGround →
          (∀ sub, r.compile.unchecked.first search args = .ok (some sub) →
            ∃ p ∈ r.checks, r.compile.checkValue search.serial sub p = .ok value) →
          table.holds value = search.predicates.holds value) →
        r.compile.first { search with predicates := table } args = .ok result := by
  have hrel := hr.scoped
  have hlen' : args.length = r.compile.arity := by rw [hlen, arity_compile]
  have hvalue : ∀ (sub : Bindings) (p : Term), p ∈ r.checks →
      r.compile.checkValue search.serial sub p =
        .ok (sub.apply (p.fill (r.compile.slotOfRun search.serial))) := fun sub p hp =>
    hrel.checkValue_eq search.serial sub (by rwa [checks_compile])
  obtain ⟨hcut, -⟩ | ⟨outcome, hrun⟩ := hrel.run_total hoc hpred hargs hlen'
  · exact absurd hcut hlimit
  obtain ⟨result, hfirst⟩ : ∃ result, r.compile.first search args = .ok result := by
    rw [Relation.first, hrun]
    cases outcome with
    | solved σ => exact ⟨some σ, rfl⟩
    | refuted => exact ⟨none, rfl⟩
    | suspended waiting => exact ⟨none, rfl⟩
  refine ⟨result, hfirst, fun sub => ?_, fun table htable => ?_⟩
  · have hsome : result = some sub ↔ r.compile.first search args = .ok (some sub) := by
      rw [hfirst, Except.ok.injEq]
    rw [hsome, Relation.first_eq_some_iff, hrel.run_eq_solved_iff hoc hargs hlen',
      hrel.first_unchecked_iff hoc hargs hlen', checks_compile]
    refine and_congr_right fun _ => forall₂_congr fun p hp => ?_
    simp [hvalue sub p hp, Relation.Passes]
  · have hagree : table.AgreesFinally search.predicates
        (Bindings.empty.unifyAll (r.compile.equations search.serial args))
        (r.compile.checks.map (Term.fill (r.compile.slotOfRun search.serial))) := by
      intro value hground hfinal
      refine htable value hground fun sub hsub => ?_
      obtain ⟨-, hsolved⟩ := (hrel.first_unchecked_iff hoc hargs hlen').mp hsub
      obtain ⟨c, hc, rfl⟩ := hfinal sub hsolved
      obtain ⟨p, hp, rfl⟩ := List.mem_map.mp hc
      rw [checks_compile] at hp
      exact ⟨p, hp, hvalue sub p hp⟩
    rw [← hfirst, Relation.first, Relation.first, hrel.run_congr hoc hargs hlen' hagree]

/-- A rule with the side condition `(ok? B)`, where `B` is bound by the last goal only. -/
def lateCheck : Rule :=
  ⟨"r", [.atom "A"], [], [.ofName "f" [.atom "A", .atom "B"]],
    some [.atom "true", .ofName "ok?" [.atom "B"]]⟩

/-- The search with a predicate that is true of `Q` only. -/
def lateCheckSearch : Search :=
  ⟨⟨[("ok?", fun args => .ok (.datum (.bool (Term.sameAll args [.atom "Q"]))))]⟩,
    Search.defaultLimit, true, 1⟩

/-- The run and the run without checks return the same bindings, the check is asked for `Q`, and
a table that breaks down on everything else does not change the result. -/
theorem first_eq_deferred_waiting :
    let args : List Term := [.atom "P", .ofName "f" [.atom "P", .atom "Q"]]
    let sub : Bindings := ⟨[(⟨"B", 3⟩, .atom "Q"),
      (⟨"q#1", 2⟩, .ofName "f" [.atom "P", .atom "Q"]), (⟨"A", 1⟩, .atom "P")]⟩
    let fragile : PredicateTable := ⟨[("ok?", fun args =>
      if Term.sameAll args [.atom "Q"] then .ok (.atom "true") else .error "unexpected")]⟩
    lateCheck.compile.first lateCheckSearch args = .ok (some sub) ∧
      lateCheck.compile.unchecked.first lateCheckSearch args = .ok (some sub) ∧
      lateCheck.compile.checkValue 1 sub (.ofName "ok?" [.atom "B"]) =
        .ok (.ofName "ok?" [.atom "Q"]) ∧
      lateCheck.compile.first { lateCheckSearch with predicates := fragile } args =
        .ok (some sub) := by
  intro args sub fragile
  have hr : lateCheck.Accepted := accepted_of_isExpr (by decide) (by decide)
  have hpred : lateCheckSearch.predicates.NeverBreaks := by
    intro p hp args
    obtain rfl := List.mem_singleton.mp hp
    exact ⟨_, rfl⟩
  have hargs : ∀ a ∈ args, a.isExpr := by decide
  have hfirst : lateCheck.compile.first lateCheckSearch args = .ok (some sub) := rfl
  have hlimit : lateCheck.compile.run lateCheckSearch args ≠
      .error (.searchLimit lateCheck.id lateCheckSearch.limit) := by
    rw [Relation.first_eq_some_iff.mp hfirst]
    simp
  obtain ⟨result, hresult, hiff, htable⟩ :=
    first_eq_deferred lateCheck hr lateCheckSearch rfl hpred args hargs rfl hlimit
  obtain rfl : some sub = result := by
    rw [hfirst] at hresult
    exact Except.ok.inj hresult
  have hunchecked := ((hiff sub).mp rfl).1
  refine ⟨hfirst, hunchecked, rfl, htable fragile fun value _ hvalue => ?_⟩
  obtain ⟨p, hp, hpv⟩ := hvalue sub hunchecked
  rcases List.mem_cons.mp hp with rfl | hp
  · cases hpv
    rfl
  · obtain rfl := List.mem_singleton.mp hp
    cases hpv
    rfl

end Rule

end Deduction
