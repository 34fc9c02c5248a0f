import Mathlib.Data.List.Rotate
import Deduction.Proofs.Arity
import Deduction.Proofs.Renaming

/-!
# Backward calls

A backward call lists the conclusion first, and the call in relation order lists it last. The
unknowns are numbered in the order of the call, so the two runs of the relation work on different
variables, and the placeholders of the two answers are numbered differently. Apart from that they
are the same: some renaming of variables takes the unknowns and the slots of the one run to those
of the other, and runs commute with renaming (`Relation.WellScoped.run_rename`).

## Main definitions

* `Error.Kind`, `Error.kind`: errors without their details.
* `failureKind`: how a computation fails, if it does.

## Main results

* `Call.openArgs_append_eq_ok_iff`, `Call.openArgs_rename`: arguments in parts and under renaming.
* `Call.exists_perm_openArgs`: the renaming between the two runs.
* `Catalogue.apply_backward_eq_rotated`: a backward call is the call in relation order, rotated.
-/

namespace Deduction

/-! ### Kinds of errors -/

/-- Errors without their details. -/
inductive Error.Kind where
  | malformed
  | notFound
  | unsupported
  | miscounted
  | unbound
  | conflict
  /-- The arguments are no instance of the rule. -/
  | refused
  /-- The steps were used up. -/
  | exhausted
  /-- A value of the wrong kind, a file that cannot be read, or a text that cannot be written. -/
  | foreign
deriving DecidableEq

/-- The kind of an error. -/
def Error.kind : Error → Error.Kind
  | .malformed _ => .malformed
  | .ruleNotFound _ => .notFound
  | .directionUnsupported _ _ => .unsupported
  | .wrongCount _ _ _ _ | .wrongArity _ _ _ => .miscounted
  | .unboundVariable _ => .unbound
  | .conflict _ _ => .conflict
  | .notApplicable _ _ | .unfilled _ _ | .prereqFailed _ _ => .refused
  | .searchLimit _ _ => .exhausted
  | _ => .foreign

/-- The kind of the error with which a computation fails, if it does. -/
def failureKind {α : Type} : Except Error α → Option Error.Kind
  | .ok _ => none
  | .error e => some e.kind

/-- Two computations that fail with the same kind of error agree, and the first gives no result
that could be asked for more. -/
theorem agree_of_failureKind {α β : Type} {x : Except Error α} {y : Except Error β}
    {kind : Error.Kind} (hx : failureKind x = some kind) (hy : failureKind y = some kind)
    {P : α → Prop} : failureKind x = failureKind y ∧ ∀ a, x = .ok a → P a := by
  refine ⟨hx.trans hy.symm, ?_⟩
  rintro a rfl
  exact absurd hx (by simp [failureKind])

/-! ### Arguments -/

@[simp] theorem length_slotVars (serial : Int) (names : List String) :
    (slotVars serial names).length = names.length := by
  simpa using congrArg List.length (map_name_slotVars serial names)

theorem pairwise_serial_slotVars (serial : Int) (names : List String) :
    (slotVars serial names).Pairwise fun v w => v.serial < w.serial := by
  induction names generalizing serial with
  | nil => exact .nil
  | cons name names ih =>
      refine List.pairwise_cons.mpr ⟨fun v hv => ?_, ih (serial + 1)⟩
      have := le_serial_of_mem_slotVars hv
      change serial < v.serial
      omega

namespace Call

variable {serial serial' : Int} {n m : Nat} {args out : List Term} {unknowns : List Var}

/-- Arguments are opened part by part. -/
theorem openArgs_append_eq_ok_iff {as bs : List Term} :
    openArgs serial n (as ++ bs) = .ok (unknowns, out) ↔
      ∃ us ts vs rs, openArgs serial n as = .ok (us, ts) ∧
        openArgs serial (n + us.length) bs = .ok (vs, rs) ∧
        unknowns = us ++ vs ∧ out = ts ++ rs := by
  induction as generalizing n unknowns out with
  | nil =>
      constructor
      · exact fun h => ⟨[], [], unknowns, out, rfl, h, rfl, rfl⟩
      · rintro ⟨us, ts, vs, rs, hnil, hbs, rfl, rfl⟩
        obtain ⟨rfl, rfl⟩ := Prod.mk.inj (Except.ok.inj hnil)
        exact hbs
  | cons arg as ih =>
      rw [List.cons_append]
      by_cases harg : arg = .wildcard
      · subst harg
        simp only [openArgs_wildcard_eq_ok_iff, ih]
        constructor
        · rintro ⟨_, _, ⟨us, ts, vs, rs, has, hbs, rfl, rfl⟩, rfl, rfl⟩
          refine ⟨_, _, vs, rs, ⟨us, ts, has, rfl, rfl⟩, ?_, rfl, rfl⟩
          rwa [List.length_cons, Nat.add_comm us.length, ← Nat.add_assoc]
        · rintro ⟨_, _, vs, rs, ⟨us, ts, has, rfl, rfl⟩, hbs, rfl, rfl⟩
          refine ⟨_, _, ⟨us, ts, vs, rs, has, ?_, rfl, rfl⟩, rfl, rfl⟩
          rwa [List.length_cons, Nat.add_comm us.length, ← Nat.add_assoc] at hbs
      · simp only [openArgs_cons_eq_ok_iff harg, ih]
        constructor
        · rintro ⟨t, _, hnorm, ⟨us, ts, vs, rs, has, hbs, rfl, rfl⟩, rfl⟩
          exact ⟨us, t :: ts, vs, rs, ⟨t, ts, hnorm, has, rfl⟩, hbs, rfl, rfl⟩
        · rintro ⟨us, _, vs, rs, ⟨t, ts, hnorm, has, rfl⟩, hbs, rfl, rfl⟩
          exact ⟨t, ts ++ rs, hnorm, ⟨us, ts, vs, rs, has, hbs, rfl, rfl⟩, rfl⟩

/-- Unknowns are different from each other: their serials increase. -/
theorem pairwise_serial_of_openArgs (h : openArgs serial n args = .ok (unknowns, out)) :
    (∀ v ∈ unknowns, serial + n ≤ v.serial) ∧
      unknowns.Pairwise fun v w => v.serial < w.serial := by
  induction args generalizing n unknowns out with
  | nil =>
      obtain ⟨rfl, rfl⟩ := Prod.mk.inj (Except.ok.inj h)
      simp
  | cons arg args ih =>
      by_cases harg : arg = .wildcard
      · subst harg
        obtain ⟨vs, ts, hrest, rfl, rfl⟩ := openArgs_wildcard_eq_ok_iff.mp h
        obtain ⟨hlower, hpairwise⟩ := ih hrest
        have hnext : ∀ v ∈ vs, serial + n < v.serial := fun v hv => by
          have := hlower v hv
          omega
        refine ⟨List.forall_mem_cons.mpr ⟨le_rfl, fun v hv => (hnext v hv).le⟩, ?_⟩
        exact List.pairwise_cons.mpr ⟨hnext, hpairwise⟩
      · obtain ⟨t, ts, -, hrest, rfl⟩ := (openArgs_cons_eq_ok_iff harg).mp h
        exact ih hrest

/-- **Arguments opened from another serial are renamed**, by any map that takes the unknowns to
each other. -/
theorem openArgs_rename (hfree : ∀ a ∈ args, a.isVarFree)
    (h : openArgs serial n args = .ok (unknowns, out)) (serial' : Int) (m : Nat) :
    ∃ unknowns' out', openArgs serial' m args = .ok (unknowns', out') ∧
      unknowns'.length = unknowns.length ∧
      ∀ ρ : Var → Var, unknowns.map ρ = unknowns' → out.map (Term.rename ρ) = out' := by
  induction args generalizing n m unknowns out with
  | nil =>
      obtain ⟨rfl, rfl⟩ := Prod.mk.inj (Except.ok.inj h)
      exact ⟨[], [], rfl, rfl, fun ρ _ => rfl⟩
  | cons arg args ih =>
      rw [List.forall_mem_cons] at hfree
      by_cases harg : arg = .wildcard
      · subst harg
        obtain ⟨vs, ts, hrest, rfl, rfl⟩ := openArgs_wildcard_eq_ok_iff.mp h
        obtain ⟨vs', ts', hrest', hlen, hrename⟩ := ih hfree.2 hrest (m + 1)
        refine ⟨_, _, openArgs_wildcard_eq_ok_iff.mpr ⟨vs', ts', hrest', rfl, rfl⟩, by simp [hlen],
          fun ρ hρ => ?_⟩
        obtain ⟨hfirst, hothers⟩ := List.cons_eq_cons.mp hρ
        rw [List.map_cons, Term.rename_var, hfirst, hrename ρ hothers]
      · obtain ⟨t, ts, hnorm, hrest, rfl⟩ := (openArgs_cons_eq_ok_iff harg).mp h
        obtain ⟨vs', ts', hrest', hlen, hrename⟩ := ih hfree.2 hrest m
        refine ⟨vs', _, (openArgs_cons_eq_ok_iff harg).mpr ⟨t, ts', hnorm, hrest', rfl⟩, hlen,
          fun ρ hρ => ?_⟩
        have hground := (Term.isExpr_of_normalize hnorm).2 hfree.1
        rw [List.map_cons, Term.rename_of_isGround hground, hrename ρ hρ]

/-- The unknowns of a call and the slots of its run are different variables. -/
theorem nodup_unknowns_append_slotVars (hfree : ∀ a ∈ args, a.isVarFree)
    (h : openArgs serial 0 args = .ok (unknowns, out)) (names : List String) :
    (unknowns ++ slotVars (serial + unknowns.length) names).Nodup := by
  obtain ⟨-, hserial, -⟩ := openArgs_spec hfree h
  have hpairwise : (unknowns ++ slotVars (serial + unknowns.length) names).Pairwise
      fun v w => v.serial < w.serial := by
    refine List.pairwise_append.mpr ⟨(pairwise_serial_of_openArgs h).2,
      pairwise_serial_slotVars _ names, fun v hv w hw => ?_⟩
    have hlt := hserial v hv
    have hle := le_serial_of_mem_slotVars hw
    omega
  exact hpairwise.imp fun hlt heq => hlt.ne (congrArg Var.serial heq)

/-- **The renaming between a backward call and the call in relation order.** It takes the unknowns
of the one call to those of the other, with the conclusion moved to its place, the slots of the
one run to those of the other, and the arguments of the one run to those of the other. -/
theorem exists_perm_openArgs {goal : Term} {givens : List Term}
    (hfree : ∀ a ∈ goal :: givens, a.isVarFree)
    (h : openArgs serial 0 (goal :: givens) = .ok (unknowns, out)) (serial' : Int)
    (names : List String) :
    ∃ (unknowns' : List Var) (out' : List Term) (ρ : Equiv.Perm Var),
      openArgs serial' 0 (givens ++ [goal]) = .ok (unknowns', out') ∧
      unknowns.map ρ = unknowns'.rotate (givens.countP isWildcard) ∧
      (slotVars (serial + unknowns.length) names).map ρ =
        slotVars (serial' + unknowns'.length) names ∧
      (relationOrder (some .backward) out).map (Term.rename ρ) = out' := by
  have hfree' : ∀ a ∈ givens ++ [goal], a.isVarFree := fun a ha =>
    hfree a (by simpa [or_comm] using ha)
  obtain ⟨hfreeGoal, hfreeGivens⟩ := List.forall_mem_cons.mp hfree
  obtain ⟨us, ts, vs, rs, hgoal, hgivens, rfl, rfl⟩ :=
    openArgs_append_eq_ok_iff.mp (show openArgs serial 0 ([goal] ++ givens) = _ from h)
  obtain ⟨vs', rs', hgivens', hlenGivens, hrenGivens⟩ :=
    openArgs_rename hfreeGivens hgivens serial' 0
  obtain ⟨us', ts', hgoal', hlenGoal, hrenGoal⟩ :=
    openArgs_rename (by simpa using hfreeGoal) hgoal serial' (0 + vs'.length)
  have hopen' : openArgs serial' 0 (givens ++ [goal]) = .ok (vs' ++ us', rs' ++ ts') :=
    openArgs_append_eq_ok_iff.mpr ⟨vs', rs', us', ts', hgivens', hgoal', rfl, rfl⟩
  have hnodup := nodup_unknowns_append_slotVars hfree h names
  -- In the order of the backward call, the unknown of the conclusion comes first.
  have hperm : ((us' ++ vs') ++ slotVars (serial' + (vs' ++ us').length) names).Nodup :=
    (List.perm_append_comm.append_right _).nodup_iff.mp
      (nodup_unknowns_append_slotVars hfree' hopen' names)
  obtain ⟨ρ, hρ⟩ := exists_perm_map_eq hnodup hperm (by simp [hlenGivens, hlenGoal])
  rw [List.map_append] at hρ
  obtain ⟨hunknowns, hslots⟩ := List.append_inj hρ (by simp [hlenGivens, hlenGoal])
  rw [List.map_append] at hunknowns
  obtain ⟨hus, hvs⟩ := List.append_inj hunknowns (by simp [hlenGoal])
  have hcount : givens.countP isWildcard = vs'.length := by
    rw [hlenGivens, (openArgs_spec hfreeGivens hgivens).1]
  refine ⟨vs' ++ us', rs' ++ ts', ρ, hopen', ?_, hslots, ?_⟩
  · rw [List.map_append, hus, hvs, hcount, List.rotate_append_length_eq]
  · have hone : ts.length = 1 := length_of_openArgs hgoal
    have horder : relationOrder (some .backward) (ts ++ rs) = rs ++ ts := by
      rw [relationOrder, ← hone, List.drop_left, List.take_left]
    rw [horder, List.map_append, hrenGivens ρ hvs, hrenGoal ρ hus]

end Call

namespace Catalogue

variable {c : Catalogue} {call : Call} {serial : Int} {e : Entry} {args : List Term}
  {unknowns : List Var}

/-- A call that is for an entry and can be opened leads to a run. -/
theorem attempt_of_openArgs (hentry : c.entryFor call = .ok e)
    (hopen : Call.openArgs serial 0 call.args = .ok (unknowns, args)) :
    c.attempt call serial =
      match e.relation.run (c.searchFor call serial unknowns.length)
        (Call.relationOrder call.direction args) with
      | .ok outcome => .ok (unknowns, outcome)
      | .error cause => .error (reported call cause) := by
  rw [attempt, hentry, hopen]
  rfl

/-- What becomes of a call that is for an entry and can be opened. -/
theorem apply_of_openArgs (hentry : c.entryFor call = .ok e)
    (hopen : Call.openArgs serial 0 call.args = .ok (unknowns, args)) :
    c.apply call serial =
      match e.relation.run (c.searchFor call serial unknowns.length)
        (Call.relationOrder call.direction args) with
      | .ok (.solved σ) =>
        .ok (.ofValues (Term.reifyAll (unknowns.map fun v => σ.apply (.var v))))
      | .ok _ => .error (.notApplicable call.rule.plain call.text)
      | .error cause => .error (reported call cause).raised := by
  rw [apply, attempt_of_openArgs hentry hopen]
  cases e.relation.run (c.searchFor call serial unknowns.length)
      (Call.relationOrder call.direction args) with
  | error cause => rfl
  | ok outcome => cases outcome <;> rfl

/-- The complaint about arguments that cannot be opened shows a part of one, so it can be written
as the call can. -/
theorem isWritable_of_openArgs_eq_error {cause : Malformed} (hentry : c.entryFor call = .ok e)
    (hopen : Call.openArgs serial 0 call.args = .error cause) : cause.isWritable := by
  obtain ⟨a, ha, -, hnorm⟩ := Call.exists_of_openArgs_eq_error hopen
  exact Term.isWritable_of_normalize_eq_error hnorm
    (Term.areWritable_iff.mp (entryFor_eq_ok_iff.mp hentry).2 a ha)

/-- A call whose arguments cannot be opened fails with the reason. -/
theorem apply_of_openArgs_eq_error {cause : Malformed} (hentry : c.entryFor call = .ok e)
    (hopen : Call.openArgs serial 0 call.args = .error cause) :
    c.apply call serial = .error (.malformed cause) := by
  have hwritable : (Error.malformed cause).isWritable :=
    isWritable_of_openArgs_eq_error hentry hopen
  rw [apply, attempt, hentry, hopen]
  exact congrArg Except.error (Error.raised_of_isWritable hwritable)

/-- The call whose error is reported does not matter to the kind of the error. -/
theorem kind_raised_reported (call call' : Call) (cause : Error) :
    (reported call cause).raised.kind = (reported call' cause).raised.kind := by
  cases cause <;> rfl

/-- A call whose arguments cannot be opened is malformed. -/
theorem failureKind_of_not_usable (hentry : c.entryFor call = .ok e)
    (hargs : ¬ call.args.all Call.isUsable) (serial : Int) :
    failureKind (c.apply call serial) = some .malformed := by
  cases hopen : Call.openArgs serial 0 call.args with
  | error cause =>
      rw [apply_of_openArgs_eq_error hentry hopen]
      rfl
  | ok opened => exact absurd (Call.exists_openArgs_iff.mp ⟨_, _, hopen⟩) hargs

/-- A call with the wrong number of arguments is refused before its arguments are looked at. -/
theorem failureKind_of_wrongCount {id : String} {expected got : Nat}
    {shape : Option (List Slot)}
    (hfitting : c.entryFitting call = .error (.wrongCount id expected got shape)) (serial : Int) :
    failureKind (c.apply call serial) = some .miscounted := by
  rw [apply_of_entryFor_eq_error (entryFor_eq_error_iff.mpr (.inl hfitting))]
  rfl

/-- A call that fits its rule and cannot be written fails in a way of its own. -/
theorem failureKind_of_not_isWritable (hfitting : c.entryFitting call = .ok e)
    (hwritable : ¬ call.isWritable) (serial : Int) :
    failureKind (c.apply call serial) = some .foreign := by
  rw [apply_of_not_isWritable hfitting hwritable]
  rfl

/-- Which entry a call in relation order fits. -/
theorem entryFitting_of_lookup (hlookup : c.lookup call.rule = .ok e)
    (hdirection : call.direction = none) :
    c.entryFitting call = if call.args.length = e.relation.arity then .ok e
      else .error (.wrongCount e.id e.relation.arity call.args.length none) := by
  rw [entryFitting, hlookup]
  simp only [bind, Except.bind, hdirection]
  rfl

/-- A call that does not follow the shape of its rule is refused. -/
theorem entryFitting_of_length_ne {direction : Direction} {slots : List Slot}
    (hlookup : c.lookup call.rule = .ok e) (hdirection : call.direction = some direction)
    (hshape : e.shape direction = some slots) (hlen : call.args.length ≠ slots.length) :
    c.entryFitting call =
      .error (.wrongCount e.id slots.length call.args.length (some slots)) := by
  rw [entryFitting, hlookup]
  simp only [bind, Except.bind, hdirection, hshape, if_neg hlen]
  rfl

section

variable {call' : Call} {serial' : Int} {unknowns' : List Var} {args' : List Term} {ρ : Var → Var}

/-- Two calls with the same limit whose slots and arguments differ by a renaming: the outcome of
the one run is the renamed outcome of the other. -/
theorem run_rename (hrel : e.relation.WellScoped) (hρ : Function.Injective ρ)
    (hlimit : call'.limit = call.limit)
    (hslots : (slotVars (serial + unknowns.length) e.relation.slots).map ρ =
      slotVars (serial' + unknowns'.length) e.relation.slots)
    (hargs : (Call.relationOrder call.direction args).map (Term.rename ρ) =
      Call.relationOrder call'.direction args') :
    e.relation.run (c.searchFor call' serial' unknowns'.length)
        (Call.relationOrder call'.direction args') =
      (e.relation.run (c.searchFor call serial unknowns.length)
        (Call.relationOrder call.direction args)).map (Outcome.rename ρ) := by
  rw [← hargs, ← hrel.run_rename hρ _ hslots]
  simp only [searchFor, hlimit]

/-- **Two calls whose runs differ by a renaming.** They are for the same entry with the same limit,
and a one-to-one renaming takes the slots and the arguments of the one run to those of the other.
Then both succeed or fail with the same kind of error, and the solution of the one is the renamed
solution of the other. -/
theorem apply_rename (hrel : e.relation.WellScoped) (hρ : Function.Injective ρ)
    (hentry : c.entryFor call = .ok e) (hentry' : c.entryFor call' = .ok e)
    (hlimit : call'.limit = call.limit)
    (hopen : Call.openArgs serial 0 call.args = .ok (unknowns, args))
    (hopen' : Call.openArgs serial' 0 call'.args = .ok (unknowns', args'))
    (hslots : (slotVars (serial + unknowns.length) e.relation.slots).map ρ =
      slotVars (serial' + unknowns'.length) e.relation.slots)
    (hargs : (Call.relationOrder call.direction args).map (Term.rename ρ) =
      Call.relationOrder call'.direction args') :
    failureKind (c.apply call serial) = failureKind (c.apply call' serial') ∧
      ∀ answer, c.apply call serial = .ok answer →
        ∃ σ, c.attempt call serial = .ok (unknowns, .solved σ) ∧
          c.attempt call' serial' = .ok (unknowns', .solved (σ.rename ρ)) ∧
          answer = .ofValues (Term.reifyAll (unknowns.map fun v => σ.apply (.var v))) := by
  have hrun := run_rename (c := c) hrel hρ hlimit hslots hargs
  refine ⟨?_, fun answer h => ?_⟩
  · rw [apply_of_openArgs hentry hopen, apply_of_openArgs hentry' hopen', hrun]
    cases e.relation.run (c.searchFor call serial unknowns.length)
        (Call.relationOrder call.direction args) with
    | error cause => exact congrArg some (kind_raised_reported call call' cause)
    | ok outcome => cases outcome <;> rfl
  · obtain ⟨vs, σ, hattempt, rfl⟩ := apply_eq_ok_iff.mp h
    obtain ⟨e₀, args₀, hentry₀, hopen₀, hrun₀⟩ := attempt_eq_ok_iff.mp hattempt
    obtain rfl := Except.ok.inj (hentry.symm.trans hentry₀)
    obtain ⟨rfl, rfl⟩ := Prod.mk.inj (Except.ok.inj (hopen.symm.trans hopen₀))
    rw [hrun₀] at hrun
    exact ⟨σ, hattempt, attempt_eq_ok_iff.mpr ⟨e, args', hentry', hopen', hrun⟩, rfl⟩

end

/-- **A backward call is the call in relation order, rotated.** Take a catalogue of accepted rules
without logic variables, one of its rules with one conclusion that can be used backward, and
arguments without logic variables, any of which may be wildcards. The call that lists the
conclusion first and the call in relation order both succeed or fail with the same kind of error,
whatever serials their variables start from. If they succeed, the values of the unknowns of the
backward call are those of the other one with the value of the conclusion moved to the front, up
to one renaming of the variables, and so the backward answer shows these with placeholders. -/
theorem apply_backward_eq_rotated (c : Catalogue)
    (hc : c.Holds fun r => r.Accepted ∧ r.IsVarFree) (id : Term) (e : Entry)
    (hlookup : c.lookup id = .ok e) (hone : e.rule.conclusion.length = 1)
    (hback : e.backward.isSome) (goal : Term) (givens : List Term)
    (hfree : ∀ a ∈ goal :: givens, a.isVarFree) (limit : Option Int) (serial serial' : Int) :
    let backward : Call := ⟨id, goal :: givens, some .backward, limit⟩
    let ordered : Call := ⟨id, givens ++ [goal], none, limit⟩
    failureKind (c.apply backward serial) = failureKind (c.apply ordered serial') ∧
      ∀ answer, c.apply backward serial = .ok answer →
        ∃ unknowns σ unknowns' σ', ∃ ρ : Equiv.Perm Var,
          c.attempt backward serial = .ok (unknowns, .solved σ) ∧
          c.attempt ordered serial' = .ok (unknowns', .solved σ') ∧
          let values := unknowns.map fun v => σ.apply (.var v)
          let rotated := (unknowns'.map fun v => σ'.apply (.var v)).rotate
            (givens.countP Call.isWildcard)
          values.map (Term.rename ρ) = rotated ∧ answer = .ofValues (Term.reifyAll rotated) := by
  intro backward ordered
  obtain ⟨⟨hr, hv⟩, he⟩ := hc.eq_ofRule e (mem_entries_of_lookup hlookup)
  have hrel : e.relation.WellScoped := by
    rw [he]
    exact hr.wellScoped hv
  obtain ⟨slots, hslots⟩ := Option.isSome_iff_exists.mp hback
  have hshape : e.shape .backward = some slots := hslots
  have hlen : slots.length = e.relation.arity := by
    rw [he] at hshape ⊢
    rcases Rule.length_shape hshape with ⟨hlen, -⟩ | ⟨-, -, hnone⟩
    · exact hlen
    · rw [hnone] at hone
      exact absurd hone (by simp)
  have hcount : ordered.args.length = backward.args.length := by simp [ordered, backward]
  have hfitting' := @entryFitting_of_lookup c ordered e hlookup rfl
  by_cases harity : backward.args.length = slots.length
  · have hfitting :=
      @entryFitting_of_shape c backward e .backward slots hlookup rfl hshape harity
    rw [if_pos (hcount.trans (harity.trans hlen))] at hfitting'
    -- What can be written, and what can be used, is so in either order.
    have hwritable_iff : ordered.isWritable ↔ backward.isWritable := by
      simp [Call.isWritable, Term.areWritable_iff, backward, ordered, or_comm]
    have husable_iff : ordered.args.all Call.isUsable ↔ backward.args.all Call.isUsable := by
      simp [backward, ordered, and_comm]
    by_cases hwritable : backward.isWritable
    swap
    · have hwritable' : ¬ ordered.isWritable := fun h => hwritable (hwritable_iff.mp h)
      exact agree_of_failureKind (failureKind_of_not_isWritable hfitting hwritable serial)
        (failureKind_of_not_isWritable hfitting' hwritable' serial')
    have hentry := entryFor_eq_ok_iff.mpr ⟨hfitting, hwritable⟩
    have hentry' := entryFor_eq_ok_iff.mpr ⟨hfitting', hwritable_iff.mpr hwritable⟩
    by_cases husable : backward.args.all Call.isUsable
    · obtain ⟨unknowns, args, hopen⟩ := (@Call.exists_openArgs_iff serial 0 _).mpr husable
      obtain ⟨unknowns', args', ρ, hopen', hrotated, hslotVars, hargs⟩ :=
        Call.exists_perm_openArgs hfree hopen serial' e.relation.slots
      obtain ⟨hkind, hanswer⟩ :=
        apply_rename hrel ρ.injective hentry hentry' rfl hopen hopen' hslotVars hargs
      refine ⟨hkind, fun answer h => ?_⟩
      obtain ⟨σ, hattempt, hattempt', rfl⟩ := hanswer answer h
      have hvalues : (unknowns.map fun v => σ.apply (.var v)).map (Term.rename ρ) =
          (unknowns'.map fun v => (σ.rename ρ).apply (.var v)).rotate
            (givens.countP Call.isWildcard) := by
        rw [← List.map_rotate, ← hrotated, List.map_map, List.map_map]
        refine List.map_congr_left fun v _ => ?_
        rw [Function.comp_apply, Function.comp_apply, ← σ.apply_rename ρ.injective, Term.rename_var]
      refine ⟨unknowns, σ, unknowns', σ.rename ρ, ρ, hattempt, hattempt', hvalues, ?_⟩
      rw [← hvalues, Term.reifyAll_rename ρ.injective]
    · have husable' : ¬ ordered.args.all Call.isUsable := fun h => husable (husable_iff.mp h)
      exact agree_of_failureKind (failureKind_of_not_usable hentry husable serial)
        (failureKind_of_not_usable hentry' husable' serial')
  · have hfitting :=
      @entryFitting_of_length_ne c backward e .backward slots hlookup rfl hshape harity
    rw [if_neg fun heq => harity (hcount.symm.trans (heq.trans hlen.symm))] at hfitting'
    exact agree_of_failureKind (failureKind_of_wrongCount hfitting serial)
      (failureKind_of_wrongCount hfitting' serial')

/-- The catalogue whose only rule leads from `A` to `(or B A)`. -/
def disjunction : Catalogue :=
  ⟨[.ofRule (.plain "or-i2" [.atom "A"] [.ofName "or" [.atom "B", .atom "A"]])], .empty, false⟩

/-- The rule with both arguments unknown. The backward answer shows the conclusion first, so its
placeholders are numbered from there; it is the rotated vector of values of the call in relation
order with placeholders. -/
theorem apply_backward_eq_rotated_open :
    disjunction.apply ⟨.atom "or-i2", [.wildcard, .wildcard], none, none⟩ 5 =
        .ok (.values [.atom "_0", .ofName "or" [.atom "_1", .atom "_0"]]) ∧
      disjunction.apply ⟨.atom "or-i2", [.wildcard, .wildcard], some .backward, none⟩ 1 =
        .ok (.values [.ofName "or" [.atom "_0", .atom "_1"], .atom "_1"]) ∧
      ∃ unknowns' σ', disjunction.attempt ⟨.atom "or-i2", [.wildcard, .wildcard], none, none⟩ 5 =
          .ok (unknowns', .solved σ') ∧
        Answer.values [.ofName "or" [.atom "_0", .atom "_1"], .atom "_1"] =
          .ofValues (Term.reifyAll ((unknowns'.map fun v => σ'.apply (.var v)).rotate 1)) := by
  have hback : disjunction.apply ⟨.atom "or-i2", [.wildcard, .wildcard], some .backward, none⟩ 1 =
      .ok (.values [.ofName "or" [.atom "_0", .atom "_1"], .atom "_1"]) := rfl
  have hholds : disjunction.Holds fun r => r.Accepted ∧ r.IsVarFree :=
    .register (.empty .empty false)
      ⟨Rule.accepted_of_isExpr (by decide) (by decide), by decide⟩ rfl
  obtain ⟨-, hanswer⟩ := apply_backward_eq_rotated disjunction hholds (.atom "or-i2") _ rfl rfl rfl
    .wildcard [.wildcard] (by decide) none 1 5
  obtain ⟨-, -, unknowns', σ', -, -, hattempt', -, heq⟩ := hanswer _ hback
  exact ⟨rfl, hback, unknowns', σ', hattempt', heq⟩

end Catalogue

end Deduction
