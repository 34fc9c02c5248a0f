import Deduction.Rule.Basic

/-!
# Relations

A rule is compiled to a relation with one parameter for each given, extra and conclusion, in
that order. A given or extra that is a bare pattern variable is a parameter itself. Every
other template gets a parameter of its own with the goal that the two be equal. The pattern
variables that are no parameters are local to the relation, and shared by all its goals. Side
conditions become checks.

## Main definitions

* `Goal`, `Relation` — the compiled form;
* `Rule.compile` — the relation of a rule;
* `Relation.listing` — the relation as text.
-/

namespace Deduction

/-- A goal of a relation. -/
inductive Goal where
  /-- The parameter equals the instance of the template. -/
  | unify (slot : String) (template : Term)
  /-- The instance of the template holds. -/
  | check (template : Term)

/-- The compiled form of a rule. -/
structure Relation where
  id : String
  params : List String
  locals : List String
  goals : List Goal

namespace Rule

/-- The name of the parameter for a template that is no pattern variable, in position `n`. -/
def aliasFor (n : Nat) (template : Term) : String :=
  let stem := match template with
    | .app op _ => op.plain
    | .group _ => "group"
    | t => t.plain
  stem ++ "#" ++ toString n

/-- The parameter for an input template in position `n`. -/
def paramOf (n : Nat) (template : Term) : String :=
  match template with
  | .atom s => if Term.isKeyword s then aliasFor n template else s
  | _ => aliasFor n template

/-- The parameters for input templates, the first one in position `n`. -/
def inputParams : Nat → List Term → List String
  | _, [] => []
  | n, t :: ts => paramOf n t :: inputParams (n + 1) ts

/-- The goals for input templates, the first one in position `n`. -/
def inputGoals : Nat → List Term → List Goal
  | _, [] => []
  | n, t :: ts =>
    if t.isPatternVariable then inputGoals (n + 1) ts
    else .unify (aliasFor n t) t :: inputGoals (n + 1) ts

/-- The parameter for the conclusion in position `n`. -/
def outputParam (n : Nat) : String := "q#" ++ toString n

/-- The parameters for conclusions, the first one in position `n`. -/
def outputParams : Nat → List Term → List String
  | _, [] => []
  | n, _ :: ts => outputParam n :: outputParams (n + 1) ts

/-- The goals for conclusions, the first one in position `n`. -/
def outputGoals : Nat → List Term → List Goal
  | _, [] => []
  | n, t :: ts => .unify (outputParam n) t :: outputGoals (n + 1) ts

/-- All templates of the rule. -/
def templatesOf (r : Rule) : List Term := r.inputs ++ r.conclusion ++ r.checks

/-- The relation of a rule. -/
def compile (r : Rule) : Relation :=
  let params := inputParams 1 r.inputs
  { id := r.id
    params := params ++ outputParams 1 r.conclusion
    locals := firsts ((Term.patternNamesIn r.templatesOf).filter fun v => !params.contains v)
    goals := inputGoals 1 r.inputs ++ outputGoals 1 r.conclusion ++ r.checks.map .check }

end Rule

/-- A goal as text. -/
def Goal.listing : Goal → String
  | .unify slot template => "(== " ++ slot ++ " " ++ template.render ++ ")"
  | .check template => "(check " ++ template.render ++ ")"

namespace Relation

/-- The number of parameters. -/
def arity (rel : Relation) : Nat := rel.params.length

/-- The names that get a variable when the relation is run. -/
def slots (rel : Relation) : List String := rel.params ++ rel.locals

/-- The templates of the checks. -/
def checks (rel : Relation) : List Term :=
  rel.goals.filterMap fun
    | .check template => some template
    | .unify _ _ => none

/-- The parameters that must equal a template, with it. -/
def equalities (rel : Relation) : List (String × Term) :=
  rel.goals.filterMap fun
    | .unify slot template => some (slot, template)
    | .check _ => none

/-- The relation as text. -/
def listing (rel : Relation) : String :=
  Text.join "\n"
    (("(fn [" ++ Text.join " " rel.params ++ "]")
      :: ("  (fresh [" ++ Text.join " " rel.locals ++ "]")
      :: rel.goals.map fun goal => "    " ++ goal.listing) ++ "))"

end Relation

end Deduction
