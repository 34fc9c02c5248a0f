import Deduction.Prerequisite

/-!
# Substitution in formulas

The quantifiers `forall` and `exists` bind the atoms of the group that follows them. A compound
`(substitution phi x t)` stands for `phi` with `t` for the free occurrences of `x`; rules leave
it symbolic, and `Term.resolve` evaluates it. The predicate `substitution?` asks whether a
formula is the result of a substitution.

A walk of substitution looks up the operator of every compound it enters and, below a
quantifier, the group of bound atoms. Terms that are no expressions may have neither; the
functions ending in `Fault?` say where such a walk first fails.

## Main definitions

* `Term.substitute` — a term for the free occurrences of another;
* `Term.resolve` — the evaluation of all substitution compounds, innermost first;
* `Term.isSubstitution?` — is a formula the result of a substitution?
-/

namespace Deduction

namespace Term

/-- The operators that bind atoms. -/
def quantifiers : List String := ["forall", "exists"]

/-- Does an operator bind atoms? -/
def isQuantifier : Term → Bool
  | .atom op => quantifiers.contains op
  | _ => false

/-- Is `x` one of the terms? -/
def isMember (x : Term) (ts : List Term) : Bool := ts.any fun t => t.same x

/-- Does a compound bind `x` below it? -/
def binds (x op : Term) (args : List Term) : Bool :=
  isQuantifier op && match args with
    | .group bound :: _ => isMember x bound
    | _ => false

mutual

/-- The term with `s` for the free occurrences of `x`. -/
def substitute (x s : Term) : Term → Term
  | .app op args =>
    if same (.app op args) x then s
    else if binds x op args then .app op args
    else .app op (substituteAll x s args)
  | .group items =>
    if same (.group items) x then s else .group (substituteAll x s items)
  | t => if same t x then s else t

/-- `substitute` item by item. -/
def substituteAll (x s : Term) : List Term → List Term
  | [] => []
  | t :: ts => substitute x s t :: substituteAll x s ts

end

mutual

/-- Where a walk of substitution for `x` first fails. -/
def substituteFault? (x : Term) : Term → Option Error
  | .app op args =>
    if same (.app op args) x then none
    else match op.unkeyed? with
      | some kind => some (.notAKey kind)
      | none =>
        if isQuantifier op && args.isEmpty then some .noOperator
        else if binds x op args then none
        else substituteFaultIn? x args
  | .group items => if same (.group items) x then none else substituteFaultIn? x items
  | .hollow => if same .hollow x then none else some .noOperator
  | _ => none

/-- `substituteFault?` over several terms. -/
def substituteFaultIn? (x : Term) : List Term → Option Error
  | [] => none
  | t :: ts => (substituteFault? x t).or (substituteFaultIn? x ts)

end

/-- The operator of a substitution left symbolic. -/
def substitutionName : String := "substitution"

/-- A compound whose arguments have been resolved: a substitution is carried out. -/
def resolveStep (op : Term) (args : List Term) : Term :=
  match args with
  | [phi, x, s] => if op.isAtom substitutionName then substitute x s phi else .app op args
  | _ => .app op args

/-- Where carrying out a resolved compound fails. -/
def resolveStepFault? (op : Term) (args : List Term) : Option Error :=
  match args with
  | [phi, x, _] => if op.isAtom substitutionName then substituteFault? x phi else none
  | _ => none

mutual

/-- The term with every substitution carried out, innermost first. -/
def resolve : Term → Term
  | .app op args => resolveStep op (resolveAll args)
  | .group items => .group (resolveAll items)
  | t => t

/-- `resolve` item by item. -/
def resolveAll : List Term → List Term
  | [] => []
  | t :: ts => resolve t :: resolveAll ts

end

mutual

/-- Where carrying out the substitutions of a term first fails. -/
def resolveFault? : Term → Option Error
  | .app op args => (resolveFaultIn? args).or (resolveStepFault? op (resolveAll args))
  | .group items => resolveFaultIn? items
  | .hollow => some .noOperator
  | _ => none

/-- `resolveFault?` over several terms. -/
def resolveFaultIn? : List Term → Option Error
  | [] => none
  | t :: ts => (resolveFault? t).or (resolveFaultIn? ts)

end

/-- A value, unless there is a fault. -/
def orFault {α : Type} (fault : Option Error) (value : α) : Except Error α :=
  match fault with
  | some e => .error e
  | none => .ok value

/-- `substitute` for terms of any kind. -/
def substitute? (x s t : Term) : Except Error Term :=
  orFault (substituteFault? x t) (substitute x s t)

/-- `resolve` for terms of any kind. -/
def resolve? (t : Term) : Except Error Term := orFault (resolveFault? t) (resolve t)

/-- Is `chi` the result of putting `s` for `x` in `phi`? -/
def isSubstitution? (phi x s chi : Term) : Except Error Bool := do
  let result ← substitute? x s phi
  return result.same chi

end Term

/-! ### The predicate -/

namespace SubstitutionPredicate

/-- The names of the arguments of the predicate. -/
def argNames : List String := ["phi", "var", "term", "chi"]

/-- Quoted names in a sentence: separated by commas, with a conjunction before the last. -/
def enumeration : List String → String
  | [] => ""
  | [a] => a
  | [a, b] => a ++ " and " ++ b
  | names => Text.join ", " names.dropLast ++ ", and " ++ names.getLastD ""

/-- The complaint about a wrong number of arguments. -/
def complaint (got : Nat) : String :=
  let missing := argNames.drop got
  if missing.isEmpty then
    "is_substitution() takes 4 positional arguments but " ++ toString got ++ " were given"
  else
    "is_substitution() missing " ++ toString missing.length ++ " required positional argument"
      ++ (if missing.length = 1 then "" else "s") ++ ": "
      ++ enumeration (missing.map fun name => "'" ++ name ++ "'")

/-- The predicate: is the fourth argument the result of putting the third one for the second
one in the first one? -/
def holds : Predicate
  | [phi, x, s, chi] => match Term.isSubstitution? phi x s chi with
    | .ok b => .ok (.datum (.bool b))
    | .error e => .error e.message
  | args => .error (complaint args.length)

end SubstitutionPredicate

end Deduction
