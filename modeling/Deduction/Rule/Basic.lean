import Deduction.Term.Normal
import Deduction.Term.Variables

/-!
# Rules

A rule or theorem is pure data: templates for what is given, for auxiliary inputs and for what
is concluded, and side conditions that must hold. Rules are authored with values of any kind in
their fields; `Rule.author` checks and normalises them, so that a rule that exists holds
expressions only.

## Main definitions

* `Rule` — the templates of a rule;
* `Rule.author` — the rule that authored fields describe;
* `Rule.unreachable` — the variables of conclusions and side conditions that nothing given
  determines;
* `Rule.validate` — the refusal of such variables.
-/

namespace Deduction

/-- A rule or theorem. `prereq` tells a rule without side conditions from one with an empty
list of them. -/
structure Rule where
  id : String
  given : List Term
  extra : List Term
  conclusion : List Term
  prereq : Option (List Term)

namespace Rule

/-- A rule without auxiliary inputs and side conditions. -/
def plain (id : String) (given conclusion : List Term) : Rule :=
  ⟨id, given, [], conclusion, none⟩

/-- The side conditions, if any. -/
def checks (r : Rule) : List Term := r.prereq.getD []

/-- The templates that arguments are supplied for before the conclusions. -/
def inputs (r : Rule) : List Term := r.given ++ r.extra

/-- The number of slots. -/
def arity (r : Rule) : Nat := r.given.length + r.extra.length + r.conclusion.length

/-- A rule that needs neither auxiliary inputs nor side conditions. -/
def isTheorem (r : Rule) : Bool := r.extra.isEmpty && r.prereq.isNone

/-- Equality of rules as values. -/
def same (r s : Rule) : Bool :=
  r.id == s.id && Term.sameAll r.given s.given && Term.sameAll r.extra s.extra
    && Term.sameAll r.conclusion s.conclusion
    && (match r.prereq, s.prereq with
      | none, none => true
      | some ps, some qs => Term.sameAll ps qs
      | _, _ => false)

/-! ### Authored fields -/

/-- A single template where a list of templates belongs: an atom, a group, or a compound with
an operator name. -/
def isSingleTemplate : Term → Bool
  | .atom _ | .group _ | .app (.atom _) _ => true
  | _ => false

/-- The templates of a field. -/
def templates (id : String) (field : Field) (value : Term) : Except Error (List Term) :=
  if isSingleTemplate value then .error (.malformed (.bareTemplate id field value))
  else match value.members? with
    | none => .error .notAList
    | some members => match Term.normalizeAll members with
      | .ok ts => .ok ts
      | .error cause => .error (.malformed (.inField id field cause))

/-- The rule that authored fields describe. The name is checked first, then the fields in
order. -/
def author (id given extra conclusion : Term) (prereq : Option Term) : Except Error Rule :=
  match id with
  | .atom name =>
    if name.isEmpty then .error (.malformed (.badId id))
    else do
      let given ← templates name .given given
      let extra ← templates name .extra extra
      let conclusion ← templates name .conclusion conclusion
      let prereq ← match prereq with
        | none => pure none
        | some value => do pure (some (← templates name .prereq value))
      return ⟨name, given, extra, conclusion, prereq⟩
  | _ => .error (.malformed (.badId id))

/-- Does building the rule again from its own fields give the same rule? -/
def restores (r : Rule) : Bool :=
  match author (.atom r.id) (.list r.given) (.list r.extra) (.list r.conclusion)
      (r.prereq.map .list) with
  | .ok s => s.same r
  | .error _ => false

/-! ### Reachability -/

/-- The pattern variables of conclusions and side conditions that no given and no extra
template mentions, in order, each once. -/
def unreachable (r : Rule) : List String :=
  let reachable := Term.patternNamesIn r.inputs
  firsts ((Term.patternNamesIn (r.conclusion ++ r.checks)).filter fun v => !reachable.contains v)

/-- In strict mode, the refusal of a rule with unreachable variables. -/
def validate (strict : Bool) (r : Rule) : Except Error Unit :=
  if strict && !r.unreachable.isEmpty then
    .error (.malformed (.unreachable r.id r.unreachable))
  else .ok ()

end Rule

end Deduction
