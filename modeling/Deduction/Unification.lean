import Deduction.Bindings

/-!
# Unification

Two terms are unified by walking them side by side. The walk stops at the first place where
they differ: either no binding can help there, or one side is a variable, which is then bound
to the other side. What is left of the walk is taken up again with the new binding applied.
Each round binds one variable, which the occurs check keeps out of what is left, so the
number of variables bounds the number of rounds.

The bindings found are triangular: a new one is added in front, holds a term to which the
earlier ones have been applied, and changes none of them.

## Main definitions

* `Term.meet` — the first difference of two terms;
* `Bindings.verdict` — the outcome of unification, with running out of rounds told apart;
* `Bindings.unify` — bindings that make two terms equal, most generally, or nothing;
* `Bindings.tryUnify` — the same for terms of any kind, refusing compounds without an operator.
-/

namespace Deduction

/-- The first difference of two terms. -/
inductive Meeting where
  /-- There is none. -/
  | agree
  /-- The terms differ where neither is a variable. -/
  | clash
  /-- One side is the variable `v` and the other one is `t`; `rest` is the part of the walk
  after this place. -/
  | bind (v : Var) (t : Term) (rest : List (Term × Term))

namespace Term

mutual

/-- The first difference of two terms. A variable on the left is bound before one on the
right. -/
def meet : Term → Term → Meeting
  | .var v, .var w => if v = w then .agree else .bind v (.var w) []
  | .var v, u => .bind v u []
  | t, .var w => .bind w t []
  | .app f as, .app g bs =>
    if f.same g && as.length == bs.length then meetAll as bs else .clash
  | .group as, .group bs => if as.length == bs.length then meetAll as bs else .clash
  | t, u => if t.same u then .agree else .clash

/-- The first difference of two lists of equally many terms. -/
def meetAll : List Term → List Term → Meeting
  | a :: as, b :: bs => match meet a b with
    | .agree => meetAll as bs
    | .clash => .clash
    | .bind v t rest => .bind v t (rest ++ as.zip bs)
  | _, _ => .agree

end

/-- The first difference in a list of pairs of terms. -/
def meetPairs : List (Term × Term) → Meeting
  | [] => .agree
  | (t, u) :: rest => match meet t u with
    | .agree => meetPairs rest
    | .clash => .clash
    | .bind v s more => .bind v s (more ++ rest)

/-- The image of a variable when `v` is replaced by `t`. -/
def single (v : Var) (t : Term) (w : Var) : Term := if w = v then t else .var w

/-- The term `u` with `t` for the variable `v`. -/
def replace (u : Term) (v : Var) (t : Term) : Term := u.bind (single v t)

end Term

/-- How unification ends. -/
inductive Verdict where
  /-- The terms are equal under these bindings. -/
  | unified (σ : Bindings)
  /-- Nothing makes the terms equal. -/
  | failed
  /-- The rounds were used up before the end of the walk. -/
  | unfinished

/-- The bindings of a verdict. -/
def Verdict.bindings? : Verdict → Option Bindings
  | .unified σ => some σ
  | .failed | .unfinished => none

namespace Bindings

/-- Rounds of unification over pairs of terms to which `σ` has been applied. With `check`
set, a variable is not bound to a term in which it occurs. -/
def unifyRounds (check : Bool) : Nat → List (Term × Term) → Bindings → Verdict
  | rounds, pairs, σ => match Term.meetPairs pairs with
    | .agree => .unified σ
    | .clash => .failed
    | .bind v t rest =>
      if check && Term.occurs (.var v) t then .failed
      else match rounds with
        | 0 => .unfinished
        | rounds + 1 =>
          unifyRounds check rounds
            (rest.map fun p => (p.1.replace v t, p.2.replace v t)) (σ.insert v t)

/-- Unification of two terms under the bindings `σ`. -/
def verdict (σ : Bindings) (t u : Term) (check : Bool) : Verdict :=
  let t := σ.apply t
  let u := σ.apply u
  unifyRounds check (t.freeVars.length + u.freeVars.length) [(t, u)] σ

/-- The bindings that extend `σ` and make two terms equal, most generally. -/
def unify (σ : Bindings) (t u : Term) (check : Bool) : Option Bindings :=
  (σ.verdict t u check).bindings?

/-- `unify` where every compound in the two terms has an operator. -/
def tryUnify (σ : Bindings) (t u : Term) (check : Bool) : Except Error (Option Bindings) := do
  let _ ← σ.tryApply t
  let _ ← σ.tryApply u
  return σ.unify t u check

/-- `tryUnify` that counts the absence of a unifier as an error. -/
def unified (σ : Bindings) (t u : Term) (check : Bool) : Except Error Bindings := do
  match ← σ.tryUnify t u check with
  | some τ => return τ
  | none => throw (.conflict t u)

end Bindings

end Deduction
