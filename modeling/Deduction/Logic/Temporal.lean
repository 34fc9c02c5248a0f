import Deduction.Logic.Propositional

/-!
# Linear temporal logic

Labelled natural deduction. `(at [i] A)` reads: `A` holds in state `i`. The relational side is
`(<= i j)`, state `j` is reachable from `i`, and `(succ i j)`, state `j` comes directly after
`i`.

## Main definitions

* `Temporal.rules` — the catalogue.
-/

namespace Deduction.Temporal

open Propositional (A B conj contradiction imp infer neg)

/-- The first schematic state. -/
def i : Term := .atom "i"

/-- The second schematic state. -/
def j : Term := .atom "j"

/-- The third schematic state. -/
def k : Term := .atom "k"

/-- State `n` is reachable from state `m`. -/
def reach (m n : Term) : Term := .ofName "<=" [m, n]

/-- State `n` comes directly after state `m`. -/
def succ (m n : Term) : Term := .ofName "succ" [m, n]

/-- The state is actual. -/
def actual (m : Term) : Term := .ofName "actual" [m]

/-- The formula holds in the state. -/
def holdsAt (m p : Term) : Term := .ofName "at" [.group [m], p]

/-- The formula holds from now on. -/
def always (p : Term) : Term := .ofName "always" [p]

/-- The formula holds now or later. -/
def eventually (p : Term) : Term := .ofName "finally" [p]

/-- The formula holds in the next state. -/
def atnext (p : Term) : Term := .ofName "atnext" [p]

/-- The rules of the relational frame. -/
def frameRules : List Rule :=
  [.plain "reflexiv" [] [reach i i],
   .plain "transitiv" [reach i j, reach j k] [reach i k],
   .plain "serial" [] [reach i j],
   .plain "succ" [] [succ i j],
   .plain "succ/<=" [succ i j] [reach i j]]

/-- The propositional rules, labelled. -/
def labelledRules : List Rule :=
  [.plain "and-i" [holdsAt i A, holdsAt i B] [holdsAt i (conj A B)],
   .plain "and-e1" [holdsAt i (conj A B)] [holdsAt i A],
   .plain "and-e2" [holdsAt i (conj A B)] [holdsAt i B],
   .plain "impl-i" [infer (holdsAt i A) (holdsAt i B)] [holdsAt i (imp A B)],
   .plain "impl-e" [holdsAt i A, holdsAt i (imp A B)] [holdsAt i B],
   .plain "not-e" [holdsAt i (neg A), holdsAt i A] [holdsAt j contradiction],
   .plain "raa" [infer (holdsAt i (neg A)) (holdsAt j contradiction)]
     [holdsAt i A]]

/-- The rules of the temporal operators. -/
def temporalRules : List Rule :=
  [.plain "always-i" [infer (reach i j) (holdsAt j A)] [holdsAt i (always A)],
   .plain "always-e" [holdsAt i (always A), reach i j] [holdsAt j A],
   .plain "finally-i" [holdsAt j A, reach i j] [holdsAt i (eventually A)],
   .plain "finally-e"
     [holdsAt i (eventually A), infer (.group [reach i j, holdsAt j A]) (holdsAt k B)]
     [holdsAt k B],
   .plain "atnext-i" [holdsAt j A, succ i j] [holdsAt i (atnext A)],
   .plain "atnext-e" [holdsAt i (atnext A), succ i j] [holdsAt j A],
   .plain "now" [actual i, holdsAt i (always A)] [holdsAt i A]]

/-- All rules. -/
def rules : List Rule := frameRules ++ labelledRules ++ temporalRules

end Deduction.Temporal
