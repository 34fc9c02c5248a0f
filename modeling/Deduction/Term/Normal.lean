import Deduction.Error

/-!
# Normalisation of authored terms

Rules and arguments are authored as nested values. Normalisation accepts exactly the
expressions, turning lists into groups on the way, and refuses everything else with the first
cause in reading order.

## Main definitions

* `Term.isExpr` — the expressions: atoms and operators are non-empty names, compounds have an
  argument;
* `Term.normalize` — the expression that an authored value stands for.
-/

namespace Deduction.Term

mutual

/-- Is the term an expression? -/
def isExpr : Term → Bool
  | .atom s => !s.isEmpty
  | .app (.atom op) args => !op.isEmpty && !args.isEmpty && areExprs args
  | .group items => areExprs items
  | .var _ => true
  | _ => false

/-- Are all the terms expressions? -/
def areExprs : List Term → Bool
  | [] => true
  | t :: ts => isExpr t && areExprs ts

end

mutual

/-- The expression that an authored value stands for. -/
def normalize : Term → Except Malformed Term
  | .atom s => if s.isEmpty then .error .emptyAtom else .ok (.atom s)
  | .var v => .ok (.var v)
  | .list items => do return .group (← normalizeAll items)
  | .group items => do return .group (← normalizeAll items)
  | .app (.atom op) args =>
    if op.isEmpty || args.isEmpty then .error (.badCompound (.app (.atom op) args))
    else do return .app (.atom op) (← normalizeAll args)
  | .app op args => .error (.badCompound (.app op args))
  | .hollow => .error (.badCompound .hollow)
  | .wildcard => .error (.notExpression .wildcard)
  | .datum d => .error (.notExpression (.datum d))

/-- `normalize` item by item; the first malformed one counts. -/
def normalizeAll : List Term → Except Malformed (List Term)
  | [] => .ok []
  | t :: ts => do
    let t ← normalize t
    let ts ← normalizeAll ts
    return t :: ts

end

theorem areExprs_iff (ts : List Term) : areExprs ts = true ↔ ∀ t ∈ ts, t.isExpr = true := by
  induction ts with
  | nil => simp [areExprs]
  | cons t ts ih => simp [areExprs, ih]

/-- Normalisation changes no expressions. -/
theorem normalizeAll_of_forall {ts : List Term} (h : ∀ t ∈ ts, t.normalize = .ok t) :
    normalizeAll ts = .ok ts := by
  induction ts with
  | nil => rfl
  | cons t ts ih =>
    rw [normalizeAll, h t (by simp), ih fun u hu => h u (by simp [hu])]
    rfl

end Deduction.Term
