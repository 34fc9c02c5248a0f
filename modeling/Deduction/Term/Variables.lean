import Deduction.Error

/-!
# Variables of terms

Two kinds of variables live in terms. Logic variables are created by the engine and are what
unification binds. Pattern variables are the atoms of a template that are no reserved
constants; `Term.instantiate` fills them in.

## Main definitions

* `Term.patternVariables`, `Term.freeVars` — the variables of a term, left to right, each once;
* `Term.instantiate` — a template with its pattern variables filled in;
* `Term.occurs` — does a term occur in another?
* `Term.scan` — is a compound with a given operator to be found inside a term?
-/

namespace Deduction

/-- The elements of a list in order of first appearance, each once. -/
def firsts {α : Type} [DecidableEq α] : List α → List α
  | [] => []
  | a :: as => a :: (firsts as).filter (· ≠ a)

@[simp] theorem mem_firsts {α : Type} [DecidableEq α] {a : α} {l : List α} :
    a ∈ firsts l ↔ a ∈ l := by
  induction l with
  | nil => simp [firsts]
  | cons b bs ih => by_cases h : a = b <;> simp [firsts, ih, h]

theorem nodup_firsts {α : Type} [DecidableEq α] (l : List α) : (firsts l).Nodup := by
  induction l with
  | nil => simp [firsts]
  | cons b bs ih =>
    rw [firsts, List.nodup_cons]
    exact ⟨by simp, List.Pairwise.filter _ ih⟩

namespace Term

/-! ### Pattern variables -/

mutual

/-- The occurrences of pattern variables, left to right. -/
def patternNames : Term → List String
  | .atom s => if isKeyword s then [] else [s]
  | .app _ args => patternNamesIn args
  | .group items => patternNamesIn items
  | _ => []

/-- The occurrences of pattern variables in several terms. -/
def patternNamesIn : List Term → List String
  | [] => []
  | t :: ts => patternNames t ++ patternNamesIn ts

end

theorem patternNamesIn_eq_flatMap (ts : List Term) :
    patternNamesIn ts = ts.flatMap patternNames := by
  induction ts with
  | nil => rfl
  | cons t ts ih => simp [patternNamesIn, ih]

/-- The pattern variables of a template, left to right, each once. -/
def patternVariables (t : Term) : List String := firsts t.patternNames

/-- Is the term a pattern variable? -/
def isPatternVariable : Term → Bool
  | .atom s => !isKeyword s
  | _ => false

mutual

/-- A template with every pattern variable replaced by its value. Reserved constants and
operators stay as they are. -/
def instantiate (env : String → Option Term) : Term → Except Error Term
  | .atom s =>
    if isKeyword s then .ok (.atom s)
    else match env s with
      | some t => .ok t
      | none => .error (.unboundVariable s)
  | .app op args => do return .app op (← instantiateAll env args)
  | .hollow => .error .noOperator
  | .group items => do return .group (← instantiateAll env items)
  | t => .ok t

/-- `instantiate` item by item; the first failure counts. -/
def instantiateAll (env : String → Option Term) : List Term → Except Error (List Term)
  | [] => .ok []
  | t :: ts => do
    let t ← instantiate env t
    let ts ← instantiateAll env ts
    return t :: ts

end

/-! ### Logic variables -/

mutual

/-- The occurrences of logic variables, left to right. -/
def vars : Term → List Var
  | .var v => [v]
  | .app _ args => varsIn args
  | .group items => varsIn items
  | _ => []

/-- The occurrences of logic variables in several terms. -/
def varsIn : List Term → List Var
  | [] => []
  | t :: ts => vars t ++ varsIn ts

end

theorem varsIn_eq_flatMap (ts : List Term) : varsIn ts = ts.flatMap vars := by
  induction ts with
  | nil => rfl
  | cons t ts ih => simp [varsIn, ih]

/-- The logic variables of a term, left to right, each once. -/
def freeVars (t : Term) : List Var := firsts t.vars

/-- Is the term free of logic variables? -/
def isGround (t : Term) : Bool := t.vars.isEmpty

mutual

/-- Does `x` occur in a term, as the whole or at a place that walks reach? -/
def occurs (x : Term) : Term → Bool
  | .app op args => x.same (.app op args) || occursIn x args
  | .group items => x.same (.group items) || occursIn x items
  | t => x.same t

/-- Does `x` occur in one of several terms? -/
def occursIn (x : Term) : List Term → Bool
  | [] => false
  | t :: ts => occurs x t || occursIn x ts

end

mutual

/-- A term with every logic variable replaced by its image. -/
def bind (f : Var → Term) : Term → Term
  | .var v => f v
  | .app op args => .app op (bindAll f args)
  | .group items => .group (bindAll f items)
  | t => t

/-- `bind` item by item. -/
def bindAll (f : Var → Term) : List Term → List Term
  | [] => []
  | t :: ts => bind f t :: bindAll f ts

end

theorem occursIn_eq_any (x : Term) (ts : List Term) : occursIn x ts = ts.any (occurs x) := by
  induction ts with
  | nil => rfl
  | cons t ts ih => simp [occursIn, ih]

theorem bindAll_eq_map (f : Var → Term) (ts : List Term) : bindAll f ts = ts.map (bind f) := by
  induction ts with
  | nil => rfl
  | cons t ts ih => simp [bindAll, ih]

/-- Replacing every variable by itself changes nothing. -/
@[simp] theorem bind_var (t : Term) : bind .var t = t := by
  induction t using Term.walk with
  | app op args ih =>
    rw [bind, bindAll_eq_map, List.map_congr_left (g := id) ih, List.map_id]
  | group items ih =>
    rw [bind, bindAll_eq_map, List.map_congr_left (g := id) ih, List.map_id]
  | _ => simp [bind]

/-- Two replacements in a row are one. -/
theorem bind_bind (f g : Var → Term) (t : Term) :
    bind g (bind f t) = bind (fun v => bind g (f v)) t := by
  induction t using Term.walk with
  | app op args ih => simp only [bind, bindAll_eq_map, List.map_map]; simpa using ih
  | group items ih => simp only [bind, bindAll_eq_map, List.map_map]; simpa using ih
  | _ => simp [bind]

/-- The image of a term depends on the images of its variables only. -/
theorem bind_congr {f g : Var → Term} {t : Term} (h : ∀ v ∈ t.vars, f v = g v) :
    bind f t = bind g t := by
  induction t using Term.walk with
  | app op args ih =>
    simp only [bind, bindAll_eq_map, vars, varsIn_eq_flatMap, List.mem_flatMap] at h ⊢
    rw [List.map_congr_left fun t ht => ih t ht fun v hv => h v ⟨t, ht, hv⟩]
  | group items ih =>
    simp only [bind, bindAll_eq_map, vars, varsIn_eq_flatMap, List.mem_flatMap] at h ⊢
    rw [List.map_congr_left fun t ht => ih t ht fun v hv => h v ⟨t, ht, hv⟩]
  | var v => simpa [bind, vars] using h
  | _ => simp [bind]

/-! ### Operators -/

/-- What a walk in search of an operator comes to: it ends where it finds the operator or meets
a compound that has none. -/
inductive Scan where
  | found
  | absent
  | noOperator
deriving DecidableEq

mutual

/-- A walk through a term, outside in and left to right, in search of a compound with the
operator `op`. -/
def scan (op : String) : Term → Scan
  | .app head args => if head.isAtom op then .found else scanIn op args
  | .hollow => .noOperator
  | .group items => scanIn op items
  | _ => .absent

/-- `scan` over several terms. -/
def scanIn (op : String) : List Term → Scan
  | [] => .absent
  | t :: ts => match scan op t with
    | .absent => scanIn op ts
    | result => result

end

/-- Is a compound with the operator `op` to be found, in a term of any kind? -/
def hasOperator? (op : String) (t : Term) : Except Error Bool :=
  match scan op t with
  | .found => .ok true
  | .absent => .ok false
  | .noOperator => .error .noOperator

mutual

/-- Does a walk over the whole term meet a compound without an operator? -/
def meetsHollow : Term → Bool
  | .hollow => true
  | .app _ args => meetsHollowIn args
  | .group items => meetsHollowIn items
  | _ => false

/-- `meetsHollow` over several terms. -/
def meetsHollowIn : List Term → Bool
  | [] => false
  | t :: ts => meetsHollow t || meetsHollowIn ts

end

end Term

end Deduction
