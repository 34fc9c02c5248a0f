import Deduction.Prerequisite
import Deduction.Relation.Basic
import Deduction.Unification

/-!
# Running a relation

A relation is run on arguments, which may hold variables of the caller. Every slot of the
relation gets a variable with a serial of its own. Then the parameters are unified with the
arguments, and the goals are solved, one after the other; each of these equations costs one
step. A side condition is checked as soon as it has no variables left. If one fails, or is still
waiting after the last goal, the arguments are no instance.

Unification is most general, so there is at most one solution up to the names of the variables
that stay open.

## Main definitions

* `Search` — what a run needs besides the relation and its arguments;
* `Outcome` — how a run ends;
* `Relation.run` — the run of a relation;
* `Relation.first` — its solution, if it has one.
-/

namespace Deduction

/-- What a run needs besides the relation and its arguments. -/
structure Search where
  predicates : PredicateTable
  /-- The number of steps allowed. -/
  limit : Int
  /-- Is a variable kept from being bound to a term in which it occurs? -/
  occursCheck : Bool
  /-- The serial of the first slot variable. -/
  serial : Int

/-- The number of steps allowed unless a caller says otherwise. -/
def Search.defaultLimit : Int := 10000

/-- How a run ends. -/
inductive Outcome where
  /-- All equations are solved and all checks hold. -/
  | solved (σ : Bindings)
  /-- An equation has no solution or a check fails. -/
  | refuted
  /-- All equations are solved, but these checks still have variables. -/
  | suspended (waiting : List Term)

/-- The variables of slots, with serials from `serial` on. -/
def slotVars : (serial : Int) → List String → List Var
  | _, [] => []
  | serial, name :: names => ⟨name, serial⟩ :: slotVars (serial + 1) names

/-- The variable of a slot; of two slots with one name the later one counts. -/
def slotVar? (vars : List Var) (name : String) : Option Term :=
  (vars.reverse.find? (·.name == name)).map .var

namespace Relation

/-- Check what has no variables left. The result is what still waits, or nothing if a check
fails. -/
def fireReady (predicates : PredicateTable) (σ : Bindings) :
    List Term → Except Error (Option (List Term))
  | [] => .ok (some [])
  | t :: ts => do
    let value := σ.apply t
    if value.isGround then
      if ← predicates.holds value then fireReady predicates σ ts else return none
    else
      let waiting ← fireReady predicates σ ts
      return waiting.map (t :: ·)

/-- Solve the equations in order, after `steps` steps and with the checks `waiting`. -/
def solve (id : String) (search : Search) :
    List (Term × Term) → (steps : Nat) → Bindings → (waiting : List Term) → Except Error Outcome
  | [], _, σ, waiting =>
    if waiting.isEmpty then .ok (.solved σ)
    else .ok (.suspended (waiting.map σ.apply))
  | (t, u) :: equations, steps, σ, waiting => do
    if search.limit < steps + 1 then throw (.searchLimit id search.limit)
    match ← σ.tryUnify t u search.occursCheck with
    | none => return .refuted
    | some σ =>
      match ← fireReady search.predicates σ waiting with
      | none => return .refuted
      | some waiting => solve id search equations (steps + 1) σ waiting

/-- The variable of a slot of the relation. -/
def slotTerm (env : String → Option Term) (slot : String) : Term :=
  (env slot).getD (.atom slot)

/-- The equations of parameters with arguments. -/
def argEquations (env : String → Option Term) (params : List String) (args : List Term) :
    List (Term × Term) :=
  (params.map (slotTerm env)).zip args

/-- The equations of slots with the instances of their templates. -/
def goalEquations (env : String → Option Term) :
    List (String × Term) → Except Error (List (Term × Term))
  | [] => .ok []
  | (slot, template) :: rest => do
    let t ← Term.instantiate env template
    let rest ← goalEquations env rest
    return (slotTerm env slot, t) :: rest

/-- The run of a relation on arguments. -/
def run (rel : Relation) (search : Search) (args : List Term) : Except Error Outcome :=
  if args.length = rel.arity then do
    let env := slotVar? (slotVars search.serial rel.slots)
    let checks ← Term.instantiateAll env rel.checks
    let goals ← goalEquations env rel.equalities
    match ← fireReady search.predicates .empty checks with
    | none => return .refuted
    | some waiting =>
      solve rel.id search (argEquations env rel.params args ++ goals) 0 .empty waiting
  else .error (.wrongArity rel.id rel.arity args.length)

/-- The solution of a relation for arguments, if there is one. -/
def first (rel : Relation) (search : Search) (args : List Term) :
    Except Error (Option Bindings) := do
  match ← rel.run search args with
  | .solved σ => return some σ
  | _ => return none

end Relation

end Deduction
