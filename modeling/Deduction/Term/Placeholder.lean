import Deduction.Term.Variables

/-!
# Placeholders

The variables that an answer leaves open are shown as the atoms `_0`, `_1`, … in the order in
which they first appear in the whole list of answers.

## Main definitions

* `Term.reifyAll` — the answers with their placeholders;
* `Term.reifyAll?` — the same for terms of any kind, refusing compounds without an operator.
-/

namespace Deduction.Term

/-- The placeholder number `n`. -/
def placeholder (n : Nat) : Term := .atom ("_" ++ toString n)

/-- The terms with each variable replaced by the placeholder of its rank. -/
def reifyAll (ts : List Term) : List Term :=
  let order := firsts (varsIn ts)
  bindAll (fun v => placeholder (order.idxOf v)) ts

/-- `reifyAll` where every compound has an operator. -/
def reifyAll? (ts : List Term) : Except Error (List Term) :=
  if meetsHollowIn ts then .error .noOperator else .ok (reifyAll ts)

end Deduction.Term
