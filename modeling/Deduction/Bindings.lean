import Deduction.Term.Variables

/-!
# Bindings

What unification has found out so far: a finite list of variables with the terms they stand
for. The terms may mention variables that are bound themselves, so applying the bindings
follows chains. As long as no variable reaches itself, a chain visits each bound variable at
most once, and following it as many times as there are bindings reaches its end.

## Main definitions

* `Bindings` — variables with their terms, the newest first;
* `Bindings.apply` — a term with every bound variable replaced, chains followed to the end;
* `Bindings.tryApply` — the same for terms of any kind, refusing compounds without an operator.
-/

namespace Deduction

/-- Variables with the terms they stand for. -/
structure Bindings where
  pairs : List (Var × Term)

namespace Bindings

/-- No variable is bound. -/
def empty : Bindings := ⟨[]⟩

/-- The term that a variable stands for. -/
def find? (σ : Bindings) (v : Var) : Option Term :=
  (σ.pairs.find? (·.1 == v)).map (·.2)

/-- The bindings with `v` bound to `t`, whatever it was bound to before. -/
def insert (σ : Bindings) (v : Var) (t : Term) : Bindings :=
  ⟨(v, t) :: σ.pairs.filter (·.1 ≠ v)⟩

@[simp] theorem find?_empty (v : Var) : empty.find? v = none := rfl

@[simp] theorem find?_insert_self (σ : Bindings) (v : Var) (t : Term) :
    (σ.insert v t).find? v = some t := by
  simp [find?, insert]

theorem find?_insert_of_ne (σ : Bindings) {v w : Var} (t : Term) (h : w ≠ v) :
    (σ.insert v t).find? w = σ.find? w := by
  have hv : (v == w) = false := by simpa using h.symm
  simp only [find?, insert, List.find?_cons, hv, List.find?_filter]
  congr 2
  funext p
  by_cases hp : p.1 = w <;> simp [hp, h]

/-- The bindings of a list of pairs; of two pairs with one variable the later one counts. -/
def ofList (pairs : List (Var × Term)) : Bindings :=
  pairs.foldl (fun σ p => σ.insert p.1 p.2) empty

/-- The number of bound variables. -/
def size (σ : Bindings) : Nat := σ.pairs.length

/-- The term reached from a variable by at most `n` bindings. -/
def chase (σ : Bindings) : Nat → Var → Term
  | 0, v => .var v
  | n + 1, v => match σ.find? v with
    | some t => t.bind (σ.chase n)
    | none => .var v

/-- A term with every bound variable replaced, chains followed to the end. -/
def apply (σ : Bindings) (t : Term) : Term := t.bind (σ.chase σ.size)

/-- `apply` where every compound on the way has an operator. -/
def tryApply (σ : Bindings) (t : Term) : Except Error Term :=
  let u := σ.apply t
  if u.meetsHollow then .error .noOperator else .ok u

end Bindings

end Deduction
