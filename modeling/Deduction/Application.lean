import Deduction.Catalogue.Basic
import Deduction.Relation.Search
import Deduction.Term.Normal
import Deduction.Term.Placeholder

/-!
# Applying rules

A step of a proof names a rule and supplies its arguments. Some of them may be wildcards, the
unknowns to solve for. In relation order and forward the arguments are the givens, the extras
and the conclusions; backward the conclusion comes first. The answer consists of the values of
the wildcards, in the order of the call, with placeholders for what stays open.

A call is put into words as soon as its rule is found, before its arguments are looked at. One
that holds a number too long to be written fails there. What a call tells the log is kept apart
from its answer.

## Main definitions

* `Call` — a step; `Answer` — its result;
* `Catalogue.attempt` — the run of the rule's relation on the arguments of a call;
* `Catalogue.apply` — the answer to a call;
* `Catalogue.check` — is a call without unknowns an instance of the rule?
* `Engine` — a catalogue in use, which numbers the variables of one call after the other.
-/

namespace Deduction

/-- A step: a rule with its arguments. -/
structure Call where
  rule : Term
  args : List Term
  /-- The order of the arguments and the shape they are held against; relation order if there
  is none. -/
  direction : Option Direction
  /-- The number of steps allowed, if not the usual one. -/
  limit : Option Int

/-- The result of a step. -/
inductive Answer where
  /-- There was nothing to solve for. -/
  | passed
  /-- The value of the only wildcard. -/
  | value (t : Term)
  /-- The values of several wildcards. -/
  | values (ts : List Term)

namespace Answer

/-- The answer with these values. -/
def ofValues : List Term → Answer
  | [] => .passed
  | [t] => .value t
  | ts => .values ts

/-- The values of an answer. -/
def toList : Answer → List Term
  | .passed => []
  | .value t => [t]
  | .values ts => ts

end Answer

namespace Call

/-- Can the call be written? A rule that was found has a name, so this is up to the arguments. -/
def isWritable (call : Call) : Bool := Term.areWritable call.args

/-- The call as text, if it can be written. -/
def text (call : Call) : String := call.rule.plain ++ " " ++ Term.renderWords call.args

/-- The variable of the wildcard number `n`. -/
def unknown (serial : Int) (n : Nat) : Var := ⟨"?" ++ toString n, serial + n⟩

/-- The variables of the wildcards among arguments of which the first one has the number `n`,
and the arguments with these variables in place and everything else normalised. -/
def openArgs (serial : Int) : (n : Nat) → List Term → Except Malformed (List Var × List Term)
  | _, [] => .ok ([], [])
  | n, .wildcard :: args => do
    let (unknowns, args) ← openArgs serial (n + 1) args
    return (unknown serial n :: unknowns, .var (unknown serial n) :: args)
  | n, arg :: args => do
    let arg ← arg.normalize
    let (unknowns, args) ← openArgs serial n args
    return (unknowns, arg :: args)

/-- Is the term the wildcard? -/
def isWildcard : Term → Bool
  | .wildcard => true
  | _ => false

/-- Can the argument be used in a call? -/
def isUsable (arg : Term) : Bool :=
  isWildcard arg || match arg.normalize with
    | .ok _ => true
    | .error _ => false

/-- The arguments of a call in relation order: a backward call has its conclusion first. -/
def relationOrder (direction : Option Direction) (args : List Term) : List Term :=
  match direction with
  | some .backward => args.drop 1 ++ args.take 1
  | _ => args

end Call

namespace Catalogue

/-- The entry that a call fits: it can be used in that direction with that many arguments. -/
def entryFitting (c : Catalogue) (call : Call) : Except Error Entry := do
  let e ← c.lookup call.rule
  let got := call.args.length
  match call.direction with
  | none =>
    if got = e.relation.arity then return e
    else throw (.wrongCount e.id e.relation.arity got none)
  | some direction => match e.shape direction with
    | none => throw (.directionUnsupported e.id direction)
    | some slots =>
      if got = slots.length then return e
      else throw (.wrongCount e.id slots.length got (some slots))

/-- The entry that a call is for, if it fits one and can be written. -/
def entryFor (c : Catalogue) (call : Call) : Except Error Entry := do
  let e ← c.entryFitting call
  if call.isWritable then return e else throw .unwritable

/-- An unfilled template is reported as a failure of the call. -/
def reported (call : Call) : Error → Error
  | .unboundVariable name => .unfilled call.text name
  | e => e

/-- The unknowns of a call and the outcome of running the relation of its rule. The first
serial is the one of the first unknown. -/
def attempt (c : Catalogue) (call : Call) (serial : Int) :
    Except Error (List Var × Outcome) := do
  let e ← c.entryFor call
  match Call.openArgs serial 0 call.args with
  | .error cause => throw (.malformed cause)
  | .ok (unknowns, args) =>
    let search : Search :=
      { predicates := c.predicates
        limit := call.limit.getD Search.defaultLimit
        occursCheck := true
        serial := serial + unknowns.length }
    match e.relation.run search (Call.relationOrder call.direction args) with
    | .ok outcome => return (unknowns, outcome)
    | .error cause => throw (reported call cause)

/-- The answer to a call. -/
def apply (c : Catalogue) (call : Call) (serial : Int) : Except Error Answer :=
  match c.attempt call serial with
  | .ok (unknowns, .solved σ) =>
    .ok (.ofValues (Term.reifyAll (unknowns.map fun v => σ.apply (.var v))))
  | .ok _ => .error (.notApplicable call.rule.plain call.text)
  | .error cause => .error cause.raised

/-- The errors that mean that a call is no instance of its rule. -/
def isRefusal : Error → Bool
  | .notApplicable _ _ | .unfilled _ _ | .prereqFailed _ _ | .searchLimit _ _ => true
  | _ => false

/-- Is a call without unknowns an instance of the rule? -/
def check (c : Catalogue) (call : Call) (serial : Int) : Except Error Bool :=
  match c.apply call serial with
  | .ok .passed => .ok true
  | .ok _ => .ok false
  | .error e => if isRefusal e then .ok false else .error e

/-- The number of serials that a call uses up, whatever becomes of it: one for each unknown up
to the first argument that cannot be used, and one for each slot if the relation is run. -/
def serialsUsed (c : Catalogue) (call : Call) : Nat :=
  match c.entryFor call with
  | .error _ => 0
  | .ok e =>
    let unknowns := (call.args.takeWhile Call.isUsable).countP Call.isWildcard
    let runs := call.args.all Call.isUsable && call.args.length == e.relation.arity
    if runs then unknowns + e.relation.slots.length else unknowns

/-! ### Reports -/

/-- The line printed about a call that succeeded. -/
def stepLine (call : Call) (answer : Answer) : String :=
  let mode := match call.direction with
    | some direction => direction.name
    | none => "apply"
  let produced := match answer with
    | .passed => "(check passed)"
    | answer => Text.join ", " (answer.toList.map Term.render)
  "  [" ++ mode ++ "] " ++ call.text ++ " -> " ++ produced

/-- What a call tells the log. -/
def applyLog (c : Catalogue) (call : Call) (serial : Int) : List LogLine :=
  let failure : LogLine := ⟨.debug, .application, "not applicable: " ++ call.text⟩
  match c.attempt call serial with
  | .ok (_, .suspended waiting) =>
    [⟨.debug, .relations, call.rule.plain ++ ": prerequisites never became ground: "
      ++ Text.quotedList (waiting.map Term.render)⟩, failure]
  | .ok (_, .refuted) => [failure]
  | _ => []

end Catalogue

/-- A catalogue in use, with the serial that the next variable gets. -/
structure Engine where
  catalogue : Catalogue
  serial : Int

namespace Engine

/-- A catalogue before its first call. -/
def start (c : Catalogue) : Engine := ⟨c, 1⟩

/-- The engine after a call. -/
def after (e : Engine) (call : Call) : Engine :=
  { e with serial := e.serial + e.catalogue.serialsUsed call }

/-- The answer to a call, and the engine after it. -/
def apply (e : Engine) (call : Call) : Engine × Except Error Answer :=
  (e.after call, e.catalogue.apply call e.serial)

/-- Is a call without unknowns an instance of the rule? -/
def check (e : Engine) (call : Call) : Engine × Except Error Bool :=
  (e.after call, e.catalogue.check call e.serial)

/-- What a call tells the log. -/
def log (e : Engine) (call : Call) : List LogLine := e.catalogue.applyLog call e.serial

end Engine

end Deduction
