import Deduction.Proofs.Recheck

/-!
# Call shapes and arities

A call is held against a shape before the relation of its rule is run, and the run counts the
arguments again. The two counts come from different places: the shape from the marks of the
givens, the arity from the compiled parameters. A forward shape has one slot for every parameter
of the relation. A backward shape has one slot for the conclusion and one for every given, which
is the same number as long as there is a conclusion. A rule without conclusions has a backward
shape all the same, and a call that follows it is refused by the run.

To see that a run refuses no other call for the number of its arguments, we list what can go
wrong in a run once that number is right.

## Main definitions

* `RunFailure`: the errors of a run on the right number of arguments.

## Main results

* `CallShape.length_forward`, `CallShape.length_backward`: the lengths of call shapes.
* `Relation.runFailure_of_run`: what can go wrong in a run.
* `Catalogue.apply_of_entryFor_eq_error`: what keeps a call from its rule is what it fails with.
* `Rule.shape_length_eq_arity_iff`: shapes and relations agree on the number of arguments, except
  for backward calls of rules without conclusions.
-/

namespace Deduction

/-! ### Lengths of call shapes -/

namespace CallShape

/-- There is a slot for every given and every extra: the later passes change slots, not their
number. -/
theorem length_inputSlots (marks : List (Option Marker)) (extras : Nat) :
    (inputSlots marks extras).length = marks.length + extras := by
  simp only [inputSlots]
  split_ifs <;> simp

/-- A forward shape has a slot for every given, extra and conclusion. The combined slot stands
for exactly one conclusion. -/
theorem length_forward {marks : List (Option Marker)} {extras conclusions : Nat}
    {slots : List Slot} (h : forward marks extras conclusions = some slots) :
    slots.length = marks.length + extras + conclusions := by
  simp only [forward] at h
  split_ifs at h with hblocked hcombined
  · obtain rfl := Option.some.inj h
    have hone : conclusions = 1 := by
      rw [Bool.and_eq_true, decide_eq_true_eq] at hcombined
      exact hcombined.1
    rw [List.length_append, length_inputSlots, hone, List.length_singleton]
  · obtain rfl := Option.some.inj h
    rw [List.length_append, length_inputSlots, List.length_replicate]

/-- There is a slot for every given, also for a lone one. -/
theorem length_givenSlots (marks : List (Option Marker)) :
    (givenSlots marks).length = marks.length := by
  simp only [givenSlots]
  split_ifs <;> simp_all

/-- A backward shape has a slot for the conclusion and one for every given, and there are no
extras and at most one conclusion. -/
theorem length_backward {marks : List (Option Marker)} {extras conclusions : Nat}
    {substitutes : Bool} {slots : List Slot}
    (h : backward marks extras conclusions substitutes = some slots) :
    slots.length = marks.length + 1 ∧ extras = 0 ∧ conclusions ≤ 1 := by
  unfold backward at h
  split_ifs at h with hblocked
  obtain rfl := Option.some.inj h
  simp only [Bool.or_eq_true, decide_eq_true_eq, not_or, not_lt, Nat.le_zero] at hblocked
  exact ⟨by rw [List.length_cons, length_givenSlots], hblocked.1.1.2, hblocked.1.1.1⟩

end CallShape

/-- The length of a shape of a rule, against the arity of its relation. -/
theorem Rule.length_shape {r : Rule} {direction : Direction} {slots : List Slot}
    (h : (Entry.ofRule r).shape direction = some slots) :
    slots.length = r.compile.arity ∧ ¬ (direction = .backward ∧ r.conclusion = []) ∨
      slots.length = r.compile.arity + 1 ∧ direction = .backward ∧ r.conclusion = [] := by
  rw [arity_compile, arity]
  cases direction with
  | forward =>
      have hlen := CallShape.length_forward h
      rw [List.length_map] at hlen
      exact .inl ⟨hlen, by simp⟩
  | backward =>
      obtain ⟨hlen, hextra, hconclusion⟩ := CallShape.length_backward h
      rw [List.length_map] at hlen
      cases hc : r.conclusion with
      | nil => exact .inr ⟨by simp [hlen, hextra], rfl, rfl⟩
      | cons t ts =>
          have hone : ts = [] := by simpa [hc] using hconclusion
          exact .inl ⟨by simp [hlen, hextra, hone], by simp⟩

/-! ### What can go wrong in a run -/

/-- What can go wrong in a run of the relation `id` that has the right number of arguments. -/
inductive RunFailure (id : String) (limit : Int) : Error → Prop
  | unfilled (name : String) : RunFailure id limit (.unboundVariable name)
  | noOperator : RunFailure id limit .noOperator
  | broken (check : Term) (reason : String) : RunFailure id limit (.prereqFailed check reason)
  | notAKey (kind : Term.Unkeyed) : RunFailure id limit (.notAKey kind)
  | outOfSteps : RunFailure id limit (.searchLimit id limit)

section

variable {id : String} {limit : Int} {e : Error}

/-- Item by item, what goes wrong goes wrong at an item. -/
theorem Term.exists_of_instantiateAll_eq_error {env : String → Option Term} {ts : List Term}
    (h : instantiateAll env ts = .error e) : ∃ t ∈ ts, instantiate env t = .error e := by
  induction ts with
  | nil => simp [instantiateAll] at h
  | cons t ts ih =>
      rcases bind_eq_error_iff.mp h with h | ⟨u, -, h⟩
      · exact ⟨t, by simp, h⟩
      · rcases bind_eq_error_iff.mp h with h | ⟨us, -, h⟩
        · obtain ⟨s, hs, hse⟩ := ih h
          exact ⟨s, by simp [hs], hse⟩
        · cases h

/-- Filling in fails at a name without a value or at a compound without an operator. -/
theorem Term.runFailure_of_instantiate {env : String → Option Term} {t : Term}
    (h : instantiate env t = .error e) : RunFailure id limit e := by
  induction t using Term.walk with
  | atom s =>
      rw [instantiate] at h
      split_ifs at h
      split at h
      · cases h
      · cases h
        exact .unfilled s
  | app op args ih =>
      rcases bind_eq_error_iff.mp h with h | ⟨us, -, h⟩
      · obtain ⟨a, ha, hae⟩ := exists_of_instantiateAll_eq_error h
        exact ih a ha hae
      · cases h
  | group items ih =>
      rcases bind_eq_error_iff.mp h with h | ⟨us, -, h⟩
      · obtain ⟨a, ha, hae⟩ := exists_of_instantiateAll_eq_error h
        exact ih a ha hae
      · cases h
  | hollow =>
      cases h
      exact .noOperator
  | var | wildcard | list | datum => cases h

/-- A check fails to be decided when its predicate breaks down or its operator is no key. -/
theorem PredicateTable.runFailure_of_holds {table : PredicateTable} {t : Term}
    (h : table.holds t = .error e) : RunFailure id limit e := by
  unfold holds at h
  split at h
  · cases h
  · split_ifs at h
    split at h
    · split at h
      · cases h
      · split at h
        · cases h
        · cases h
          exact .broken _ _
    · split at h
      · cases h
        exact .notAKey _
      · cases h
  · cases h

/-- Firing fails where deciding a check fails. -/
theorem Relation.runFailure_of_fireReady {predicates : PredicateTable} {σ : Bindings}
    {checks : List Term} (h : fireReady predicates σ checks = .error e) :
    RunFailure id limit e := by
  induction checks with
  | nil => cases h
  | cons c checks ih =>
      rw [fireReady] at h
      split_ifs at h with hground
      · rcases bind_eq_error_iff.mp h with h | ⟨b, -, h⟩
        · exact PredicateTable.runFailure_of_holds h
        · split_ifs at h
          · exact ih h
          · cases h
      · rcases bind_eq_error_iff.mp h with h | ⟨fired, -, h⟩
        · exact ih h
        · cases h

/-- Unification fails to start at a compound without an operator. -/
theorem Bindings.runFailure_of_tryUnify {σ : Bindings} {t u : Term} {check : Bool}
    (h : σ.tryUnify t u check = .error e) : RunFailure id limit e := by
  have apply {s : Term} (hs : σ.tryApply s = .error e) : RunFailure id limit e := by
    rw [tryApply] at hs
    split_ifs at hs
    cases hs
    exact .noOperator
  rcases bind_eq_error_iff.mp h with h | ⟨_, -, h⟩
  · exact apply h
  · rcases bind_eq_error_iff.mp h with h | ⟨_, -, h⟩
    · exact apply h
    · cases h

/-- What can go wrong while the equations are solved. Induction on the equations. -/
theorem Relation.runFailure_of_solve {search : Search} {pairs : List (Term × Term)}
    {steps : Nat} {σ : Bindings} {waiting : List Term}
    (h : solve id search pairs steps σ waiting = .error e) : RunFailure id search.limit e := by
  induction pairs generalizing steps σ waiting with
  | nil =>
      rw [solve] at h
      split_ifs at h
  | cons p pairs ih =>
      rw [solve] at h
      split_ifs at h with hlimit
      · cases h
        exact .outOfSteps
      · rcases bind_eq_error_iff.mp h with h | ⟨found, -, h⟩
        · exact Bindings.runFailure_of_tryUnify h
        · cases found with
          | none => cases h
          | some ρ =>
              rcases bind_eq_error_iff.mp h with h | ⟨fired, -, h⟩
              · exact runFailure_of_fireReady h
              · cases fired with
                | none => cases h
                | some waiting' => exact ih h

/-- Setting up the equations of the goals fails where filling in a template fails. -/
theorem Relation.runFailure_of_goalEquations {env : String → Option Term}
    {goals : List (String × Term)} (h : goalEquations env goals = .error e) :
    RunFailure id limit e := by
  induction goals with
  | nil => cases h
  | cons p goals ih =>
      rcases bind_eq_error_iff.mp h with h | ⟨t, -, h⟩
      · exact Term.runFailure_of_instantiate h
      · rcases bind_eq_error_iff.mp h with h | ⟨rest, -, h⟩
        · exact ih h
        · cases h

/-- **What can go wrong in a run** on the right number of arguments. -/
theorem Relation.runFailure_of_run {rel : Relation} {search : Search} {args : List Term}
    (hlen : args.length = rel.arity) (h : rel.run search args = .error e) :
    RunFailure rel.id search.limit e := by
  rw [run, if_pos hlen] at h
  rcases bind_eq_error_iff.mp h with h | ⟨checks, -, h⟩
  · obtain ⟨t, -, ht⟩ := Term.exists_of_instantiateAll_eq_error h
    exact Term.runFailure_of_instantiate ht
  rcases bind_eq_error_iff.mp h with h | ⟨goals, -, h⟩
  · exact runFailure_of_goalEquations h
  rcases bind_eq_error_iff.mp h with h | ⟨fired, -, h⟩
  · exact runFailure_of_fireReady h
  cases fired with
  | none => cases h
  | some waiting => exact runFailure_of_solve h

/-- A run complains about the number of arguments exactly when it is wrong. -/
theorem Relation.run_eq_wrongArity_iff {rel : Relation} {search : Search} {args : List Term}
    {expected got : Nat} :
    rel.run search args = .error (.wrongArity id expected got) ↔
      args.length ≠ rel.arity ∧ id = rel.id ∧ expected = rel.arity ∧ got = args.length := by
  constructor
  · intro h
    have hlen : args.length ≠ rel.arity := fun hlen => nomatch runFailure_of_run hlen h
    rw [run, if_neg hlen] at h
    cases h
    exact ⟨hlen, rfl, rfl, rfl⟩
  · rintro ⟨hlen, rfl, rfl, rfl⟩
    rw [run, if_neg hlen]

end

/-! ### Calls -/

namespace Call

/-- Opening keeps the number of arguments. -/
theorem length_of_openArgs {serial : Int} {n : Nat} {args out : List Term} {unknowns : List Var}
    (h : openArgs serial n args = .ok (unknowns, out)) : out.length = args.length := by
  induction args generalizing n unknowns out with
  | nil =>
      obtain ⟨rfl, rfl⟩ := Prod.mk.inj (Except.ok.inj h)
      rfl
  | cons arg args ih =>
      by_cases harg : arg = .wildcard
      · subst harg
        obtain ⟨vs, ts, hrest, rfl, rfl⟩ := openArgs_wildcard_eq_ok_iff.mp h
        rw [List.length_cons, List.length_cons, ih hrest]
      · obtain ⟨t, ts, -, hrest, rfl⟩ := (openArgs_cons_eq_ok_iff harg).mp h
        rw [List.length_cons, List.length_cons, ih hrest]

/-- Arguments can be opened exactly when each of them is usable. -/
theorem exists_openArgs_iff {serial : Int} {n : Nat} {args : List Term} :
    (∃ unknowns out, openArgs serial n args = .ok (unknowns, out)) ↔ args.all isUsable := by
  induction args generalizing n with
  | nil => exact ⟨fun _ => rfl, fun _ => ⟨[], [], rfl⟩⟩
  | cons arg args ih =>
      rw [List.all_cons, Bool.and_eq_true]
      by_cases harg : arg = .wildcard
      · subst harg
        have hwildcard : isUsable .wildcard := rfl
        rw [← @ih (n + 1), and_iff_right hwildcard]
        constructor
        · rintro ⟨unknowns, out, h⟩
          obtain ⟨vs, ts, hrest, -, -⟩ := openArgs_wildcard_eq_ok_iff.mp h
          exact ⟨vs, ts, hrest⟩
        · rintro ⟨vs, ts, hrest⟩
          exact ⟨_, _, openArgs_wildcard_eq_ok_iff.mpr ⟨vs, ts, hrest, rfl, rfl⟩⟩
      · have husable : isUsable arg ↔ ∃ t, arg.normalize = .ok t := by
          have hnot : isWildcard arg = false := by cases arg <;> simp_all [isWildcard]
          cases hnorm : arg.normalize <;> simp [isUsable, hnot, hnorm]
        rw [husable, ← @ih n]
        constructor
        · rintro ⟨unknowns, out, h⟩
          obtain ⟨t, ts, hnorm, hrest, -⟩ := (openArgs_cons_eq_ok_iff harg).mp h
          exact ⟨⟨t, hnorm⟩, unknowns, ts, hrest⟩
        · rintro ⟨⟨t, hnorm⟩, unknowns, ts, hrest⟩
          exact ⟨_, _, (openArgs_cons_eq_ok_iff harg).mpr ⟨t, ts, hnorm, hrest, rfl⟩⟩

/-- Opening arguments of which the first is a wildcard fails where opening the others does. -/
theorem openArgs_wildcard_eq_error_iff {serial : Int} {n : Nat} {args : List Term}
    {cause : Malformed} :
    openArgs serial n (.wildcard :: args) = .error cause ↔
      openArgs serial (n + 1) args = .error cause := by
  rw [openArgs, bind_eq_error_iff]
  simp [pure, Except.pure]

/-- Opening arguments fails at the first one that is no wildcard and cannot be normalised. -/
theorem openArgs_cons_eq_error_iff {serial : Int} {n : Nat} {arg : Term} {args : List Term}
    {cause : Malformed} (harg : arg ≠ .wildcard) :
    openArgs serial n (arg :: args) = .error cause ↔
      arg.normalize = .error cause ∨
        (∃ t, arg.normalize = .ok t) ∧ openArgs serial n args = .error cause := by
  rw [openArgs.eq_3 _ _ _ _ harg, bind_eq_error_iff]
  simp [bind_eq_error_iff, pure, Except.pure]

/-- Arguments that cannot be opened have one that is no wildcard and cannot be normalised. -/
theorem exists_of_openArgs_eq_error {serial : Int} {n : Nat} {args : List Term}
    {cause : Malformed} (h : openArgs serial n args = .error cause) :
    ∃ a ∈ args, a ≠ .wildcard ∧ a.normalize = .error cause := by
  induction args generalizing n with
  | nil => cases h
  | cons arg args ih =>
      by_cases harg : arg = .wildcard
      · subst harg
        obtain ⟨a, ha, hcause⟩ := ih (openArgs_wildcard_eq_error_iff.mp h)
        exact ⟨a, by simp [ha], hcause⟩
      · rcases (openArgs_cons_eq_error_iff harg).mp h with hnorm | ⟨-, hrest⟩
        · exact ⟨arg, by simp, harg, hnorm⟩
        · obtain ⟨a, ha, hcause⟩ := ih hrest
          exact ⟨a, by simp [ha], hcause⟩

/-- Relation order keeps the number of arguments. -/
@[simp] theorem length_relationOrder (direction : Option Direction) (args : List Term) :
    (relationOrder direction args).length = args.length := by
  cases direction with
  | none => rfl
  | some direction =>
      cases direction with
      | forward => rfl
      | backward =>
          rw [relationOrder, List.length_append, List.length_drop, List.length_take]
          omega

end Call

namespace Catalogue

/-- Reporting adds no complaint about the number of arguments. -/
theorem reported_eq_wrongArity_iff {call : Call} {cause : Error} {id : String}
    {expected got : Nat} :
    reported call cause = .wrongArity id expected got ↔
      cause = .wrongArity id expected got := by
  cases cause <;> simp [reported]

/-- A call that is for an entry fails with the number of arguments of the run exactly when its
arguments can be opened and the run fails so. -/
theorem apply_eq_wrongArity_iff {c : Catalogue} {call : Call} {serial : Int} {e : Entry}
    (hentry : c.entryFor call = .ok e) {id : String} {expected got : Nat} :
    c.apply call serial = .error (.wrongArity id expected got) ↔
      ∃ unknowns args, Call.openArgs serial 0 call.args = .ok (unknowns, args) ∧
        e.relation.run (c.searchFor call serial unknowns.length)
          (Call.relationOrder call.direction args) = .error (.wrongArity id expected got) := by
  rw [apply, attempt, hentry]
  cases hopen : Call.openArgs serial 0 call.args with
  | error cause =>
      simp [throw, throwThe, MonadExceptOf.throw, bind, Except.bind,
        Error.raised_eq_wrongArity_iff]
  | ok opened =>
      obtain ⟨unknowns, args⟩ := opened
      have hrun : (∃ vs ts, Except.ok (ε := Malformed) (unknowns, args) = .ok (vs, ts) ∧
          e.relation.run (c.searchFor call serial vs.length)
            (Call.relationOrder call.direction ts) = .error (.wrongArity id expected got)) ↔
          e.relation.run (c.searchFor call serial unknowns.length)
            (Call.relationOrder call.direction args) = .error (.wrongArity id expected got) := by
        simp
      rw [hrun]
      simp only [bind, Except.bind, searchFor]
      cases e.relation.run ⟨c.predicates, call.limit.getD Search.defaultLimit, true,
          serial + unknowns.length⟩ (Call.relationOrder call.direction args) with
      | error cause =>
          simp [throw, throwThe, MonadExceptOf.throw, Error.raised_eq_wrongArity_iff,
            reported_eq_wrongArity_iff]
      | ok outcome =>
          cases outcome <;> simp [pure, Except.pure]

/-- What keeps a call from being for an entry can be written. -/
theorem raised_of_entryFor {c : Catalogue} {call : Call} {cause : Error}
    (h : c.entryFor call = .error cause) : cause.raised = cause := by
  rcases entryFor_eq_error_iff.mp h with h | ⟨-, -, rfl⟩
  · rcases bind_eq_error_iff.mp h with h | ⟨e, -, h⟩
    · unfold lookup at h
      split at h <;> split at h <;> cases h <;> rfl
    · cases hdirection : call.direction with
      | none =>
          simp only [hdirection] at h
          split at h <;> cases h
          rfl
      | some direction =>
          simp only [hdirection] at h
          split at h
          next =>
            cases h
            rfl
          next =>
            split at h <;> cases h
            rfl
  · rfl

/-- A call that is for no entry fails with what is wrong about that. -/
theorem apply_of_entryFor_eq_error {c : Catalogue} {call : Call} {cause : Error}
    (h : c.entryFor call = .error cause) (serial : Int) :
    c.apply call serial = .error cause := by
  rw [apply, attempt, h]
  exact congrArg Except.error (raised_of_entryFor h)

/-- A call that fits an entry and cannot be written fails with that. -/
theorem apply_of_not_isWritable {c : Catalogue} {call : Call} {e : Entry}
    (hfitting : c.entryFitting call = .ok e) (hwritable : ¬ call.isWritable) (serial : Int) :
    c.apply call serial = .error .unwritable :=
  apply_of_entryFor_eq_error (entryFor_eq_error_iff.mpr
    (.inr ⟨⟨e, hfitting⟩, Bool.eq_false_of_not_eq_true hwritable, rfl⟩)) serial

/-- A call that follows a shape of its rule fits the rule. -/
theorem entryFitting_of_shape {c : Catalogue} {call : Call} {e : Entry} {direction : Direction}
    {slots : List Slot} (hlookup : c.lookup call.rule = .ok e)
    (hdirection : call.direction = some direction) (hshape : e.shape direction = some slots)
    (hlen : call.args.length = slots.length) : c.entryFitting call = .ok e := by
  rw [entryFitting, hlookup]
  simp [hdirection, hshape, hlen, bind, Except.bind, pure, Except.pure]

end Catalogue

namespace Rule

/-- **Call shapes and relations agree on the number of arguments, except for backward calls of
rules without conclusions.** In that one case the shape is one slot too long, and every call that
follows it with usable arguments that can be written is refused by the run of the relation. No
other call that follows a shape is refused for the number of its arguments. -/
theorem shape_length_eq_arity_iff (r : Rule) (direction : Direction) (slots : List Slot)
    (hshape : (Entry.ofRule r).shape direction = some slots) :
    (slots.length = r.compile.arity ↔ ¬ (direction = .backward ∧ r.conclusion = [])) ∧
      ∀ (c : Catalogue) (call : Call) (serial : Int), c.lookup call.rule = .ok (.ofRule r) →
        call.direction = some direction → call.args.length = slots.length →
        ((∃ id expected got, c.apply call serial = .error (.wrongArity id expected got)) ↔
          (direction = .backward ∧ r.conclusion = []) ∧ call.args.all Call.isUsable ∧
            call.isWritable) := by
  have hiff : slots.length = r.compile.arity ↔
      ¬ (direction = .backward ∧ r.conclusion = []) := by
    obtain ⟨hlen, hnot⟩ | ⟨hlen, hbackward⟩ := length_shape hshape
    · exact iff_of_true hlen hnot
    · exact iff_of_false (by omega) (not_not_intro hbackward)
  refine ⟨hiff, fun c call serial hlookup hdirection hlen => ?_⟩
  have hfitting := Catalogue.entryFitting_of_shape hlookup hdirection hshape hlen
  -- The run counts the opened arguments, which are as many as the slots of the shape.
  have hne_iff : direction = .backward ∧ r.conclusion = [] ↔
      slots.length ≠ r.compile.arity := by rw [Ne, hiff, not_not]
  rw [hne_iff, ← @Call.exists_openArgs_iff serial 0]
  constructor
  · rintro ⟨id, expected, got, h⟩
    by_cases hwritable : call.isWritable
    · have hentry := Catalogue.entryFor_eq_ok_iff.mpr ⟨hfitting, hwritable⟩
      obtain ⟨unknowns, args, hopen, hrun⟩ := (Catalogue.apply_eq_wrongArity_iff hentry).mp h
      obtain ⟨hne, -⟩ := Relation.run_eq_wrongArity_iff.mp hrun
      rw [Call.length_relationOrder, Call.length_of_openArgs hopen, hlen] at hne
      exact ⟨hne, ⟨unknowns, args, hopen⟩, hwritable⟩
    · rw [Catalogue.apply_of_not_isWritable hfitting hwritable] at h
      cases h
  · rintro ⟨hne, ⟨unknowns, args, hopen⟩, hwritable⟩
    have hentry := Catalogue.entryFor_eq_ok_iff.mpr ⟨hfitting, hwritable⟩
    refine ⟨_, _, _, (Catalogue.apply_eq_wrongArity_iff hentry).mpr ⟨unknowns, args, hopen,
      Relation.run_eq_wrongArity_iff.mpr ⟨?_, rfl, rfl, rfl⟩⟩⟩
    rw [Call.length_relationOrder, Call.length_of_openArgs hopen, hlen]
    exact hne

/-- The elimination of a disjunction, forward: two of its givens are solved for and the conclusion
is combined with them, and the shape has as many slots as the relation has parameters. -/
theorem shape_length_eq_arity_iff_combined :
    let r := plain "or-e" [.app (.atom "or") [.atom "A", .atom "B"],
      .app (.atom "infer") [.atom "A", .atom "C"], .app (.atom "infer") [.atom "B", .atom "C"]]
      [.atom "C"]
    (Entry.ofRule r).shape .forward = some [.mandatory, .query, .query, .combined] ∧
      [Slot.mandatory, .query, .query, .combined].length = r.compile.arity := by
  intro r
  have hshape : (Entry.ofRule r).shape .forward =
      some [.mandatory, .query, .query, .combined] := by decide
  exact ⟨hshape, (shape_length_eq_arity_iff r .forward _ hshape).1.mpr (by decide)⟩

/-- A rule without conclusions has a backward shape that no call can follow: with two arguments,
as the shape demands, the run of its relation with one parameter refuses the call. -/
theorem backward_without_conclusion_refused :
    let r := plain "r" [.atom "A"] []
    r.backwardShape = some [.goal, .query] ∧ r.compile.arity = 1 ∧
      (Catalogue.mk [.ofRule r] .empty false).apply
        ⟨.atom "r", [.atom "P", .wildcard], some .backward, none⟩ 1 =
          .error (.wrongArity "r" 1 2) :=
  ⟨by decide, by decide, rfl⟩

end Rule

end Deduction
