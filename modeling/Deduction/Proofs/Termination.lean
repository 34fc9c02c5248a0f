import Deduction.Proofs.Deferral
import Deduction.Proofs.Recursion

/-!
# Termination

A run of a relation solves one equation after the other. Each of them is given to unification, and
then the bindings found so far are applied to the checks that wait. Both are recursions that need
not end under bindings with a cycle. We run a relation with these recursions, bounded in depth, and
show that with the occurs check it comes to the outcome of the run under every large enough bound.
The bindings stay acyclic from one equation to the next, so each recursion in the run ends.

## Main definitions

* `Relation.runWithin`: the run of a relation with application and unification by recursion.

## Main results

* `Relation.Scoped.runWithin_comesTo`: on expressions the run by recursion ends as the run does.
* `unification_terminates`: application, unification and the runs of relations end.
-/

namespace Deduction

/-! ### Recursions that may fail with an error -/

namespace ComesTo

variable {ε α β : Type}

/-- A call goes on with the result of another one, unless this is an error. -/
theorem except_bind {x : Nat → ExceptT ε Option α} {k : Nat → α → ExceptT ε Option β}
    {a : Except ε α} {f : α → Except ε β} (hx : ComesTo (fun d => (x d).run) a)
    (hk : ∀ v, a = .ok v → ComesTo (fun d => (k d v).run) (f v)) :
    ComesTo (fun d => (x d >>= k d).run) (a >>= f) := by
  cases a with
  | error e => exact hx.bind (.const _)
  | ok v => exact hx.bind (hk v rfl)

/-- A call goes on with the result of one that cannot fail. -/
theorem lift_bind {x : Nat → Option α} {k : Nat → α → ExceptT ε Option β} {a : α}
    {b : Except ε β} (hx : ComesTo x a) (hk : ComesTo (fun d => (k d a).run) b) :
    ComesTo (fun d => ((x d : ExceptT ε Option α) >>= k d).run) b := by
  have hrun (d : Nat) :
      ((x d : ExceptT ε Option α) >>= k d).run = x d >>= fun a => (k d a).run := by
    cases x d <;> rfl
  simp only [hrun]
  exact hx.bind hk

/-- What is no recursion ends. -/
theorem of_except (a : Except ε α) :
    ComesTo (fun _ => (liftExcept a : ExceptT ε Option α).run) a := by
  cases a <;> exact const _

end ComesTo

namespace Relation

/-! ### Runs by recursion -/

/-- `fireReady` with application by recursion. -/
def fireWithin (depth : Nat) (predicates : PredicateTable) (σ : Bindings) :
    List Term → ExceptT Error Option (Option (List Term))
  | [] => return some []
  | t :: ts => do
    let value ← σ.applyWithin depth t
    if value.isGround then
      if ← liftExcept (predicates.holds value) then fireWithin depth predicates σ ts
      else return none
    else
      let waiting ← fireWithin depth predicates σ ts
      return waiting.map (t :: ·)

/-- `solve` with application and unification by recursion. -/
def solveWithin (depth : Nat) (id : String) (search : Search) :
    List (Term × Term) → (steps : Nat) → Bindings → (waiting : List Term) →
      ExceptT Error Option Outcome
  | [], _, σ, waiting =>
    if waiting.isEmpty then return .solved σ
    else do
      let values : List Term ← (waiting.mapM (σ.applyWithin depth) : Option (List Term))
      return .suspended values
  | (t, u) :: equations, steps, σ, waiting => do
    if search.limit < steps + 1 then throw (.searchLimit id search.limit)
    match ← Bindings.unifyWithin search.occursCheck depth σ t u with
    | none => return .refuted
    | some σ =>
      match ← fireWithin depth search.predicates σ waiting with
      | none => return .refuted
      | some waiting => solveWithin depth id search equations (steps + 1) σ waiting

/-- `run` with application and unification by recursion. -/
def runWithin (depth : Nat) (rel : Relation) (search : Search) (args : List Term) :
    ExceptT Error Option Outcome :=
  if args.length = rel.arity then do
    let env := slotVar? (slotVars search.serial rel.slots)
    let checks ← liftExcept (Term.instantiateAll env rel.checks)
    let goals ← liftExcept (goalEquations env rel.equalities)
    match ← fireWithin depth search.predicates .empty checks with
    | none => return .refuted
    | some waiting =>
      solveWithin depth rel.id search (argEquations env rel.params args ++ goals) 0 .empty waiting
  else throw (.wrongArity rel.id rel.arity args.length)

section

variable {id : String} {search : Search} {predicates : PredicateTable} {σ : Bindings}
  {pairs : List (Term × Term)} {steps : Nat} {waiting : List Term}

/-- Under acyclic bindings a firing ends. Induction on the checks. -/
theorem fireWithin_comesTo (hσ : σ.Acyclic) (checks : List Term) :
    ComesTo (fun d => (fireWithin d predicates σ checks).run) (fireReady predicates σ checks) := by
  induction checks with
  | nil => exact .const _
  | cons c checks ih =>
      simp only [fireWithin, fireReady]
      refine (hσ.applyWithin_comesTo c).lift_bind ?_
      by_cases hground : (σ.apply c).isGround
      · simp only [hground, if_true]
        refine ComesTo.except_bind (.of_except _) fun b _ => ?_
        cases b with
        | false => exact .const _
        | true => exact ih
      · simp only [hground]
        exact ih.except_bind fun _ _ => .const _

/-- If going on after a firing ends, then so does the firing with what follows it. -/
theorem fireWithin_then_comesTo (hσ : σ.Acyclic) {checks : List Term}
    {next' : Nat → List Term → ExceptT Error Option Outcome}
    {next : List Term → Except Error Outcome}
    (hnext : ∀ waiting, (∀ c ∈ waiting, c ∈ checks) →
      ComesTo (fun d => (next' d waiting).run) (next waiting)) :
    ComesTo
      (fun d => (fireWithin d predicates σ checks >>= fun fired =>
        match fired with
        | none => pure .refuted
        | some waiting => next' d waiting).run)
      (fireReady predicates σ checks >>= fun fired =>
        match fired with
        | none => .ok .refuted
        | some waiting => next waiting) := by
  refine (fireWithin_comesTo hσ checks).except_bind fun fired hfired => ?_
  cases fired with
  | none => exact .const _
  | some waiting => exact hnext waiting (mem_of_fireReady hfired)

/-- **While equations of expressions are solved, the bindings stay acyclic**, so every unification
and every firing ends. Induction on the equations. -/
theorem solveWithin_comesTo (hoc : search.occursCheck = true) (hσ : σ.Acyclic) (he : σ.AreExprs)
    (hp : PairsOfExprs pairs) :
    ComesTo (fun d => (solveWithin d id search pairs steps σ waiting).run)
      (solve id search pairs steps σ waiting) := by
  induction pairs generalizing steps σ waiting with
  | nil =>
      simp only [solveWithin, solve]
      split
      · exact .const _
      · exact (ComesTo.mapM fun c _ => hσ.applyWithin_comesTo c).lift_bind (.const _)
  | cons p pairs ih =>
      obtain ⟨t, u⟩ := p
      obtain ⟨ht, hu⟩ := hp (t, u) (by simp)
      simp only [solveWithin, solve, hoc, Bindings.tryUnify_eq_ok hσ he ht hu true]
      split_ifs with hlimit
      · exact .const _
      · refine (hσ.unifyWithin_comesTo t u).lift_bind ?_
        cases hτ : σ.unify t u true with
        | none => exact .const _
        | some τ =>
            have hm := Bindings.mostGeneral_of_unify hσ he ht hu hτ
            exact fireWithin_then_comesTo hm.acyclic fun waiting' _ =>
              ih hm.acyclic hm.areExprs fun q hq => hp q (by simp [hq])

/-- **On expressions the run by recursion ends as the run does.** -/
theorem Scoped.runWithin_comesTo {rel : Relation} (hrel : rel.Scoped)
    (hoc : search.occursCheck = true) {args : List Term} (hargs : ∀ a ∈ args, a.isExpr) :
    ComesTo (fun d => (rel.runWithin d search args).run) (rel.run search args) := by
  by_cases hlen : args.length = rel.arity
  · simp only [runWithin, if_pos hlen, hrel.run_eq search hlen, hrel.instantiateAll_checks,
      hrel.goalEquations_eq fun p hp => hp, argEquations_eq]
    exact fireWithin_then_comesTo Bindings.acyclic_empty fun waiting _ =>
      solveWithin_comesTo hoc Bindings.acyclic_empty Bindings.areExprs_empty
        (hrel.pairsOfExprs hargs)
  · simp only [runWithin, run, if_neg hlen]
    exact .const _

end

end Relation

/-! ### Termination -/

/-- **Application, unification and runs end.** Under acyclic bindings application and unification
with the occurs check are finite recursions on any two terms, they come to the results of `apply`
and `unify`, and the rounds of unification are never used up before it is through. So with the
occurs check the relation of every accepted rule comes to an end on all expressions, which may hold
variables of the caller, with every table of predicates and every limit. -/
theorem unification_terminates :
    (∀ σ : Bindings, σ.Acyclic → ∀ t u : Term,
      ComesTo (σ.applyWithin · t) (σ.apply t) ∧
        ComesTo (Bindings.unifyWithin true · σ t u) (σ.unify t u true) ∧
        σ.verdict t u true ≠ .unfinished) ∧
      ∀ r : Rule, r.Accepted → ∀ search : Search, search.occursCheck = true →
        ∀ args : List Term, (∀ a ∈ args, a.isExpr) →
          ComesTo (fun depth => (r.compile.runWithin depth search args).run)
            (r.compile.run search args) :=
  ⟨fun σ hσ t u => ⟨hσ.applyWithin_comesTo t, hσ.unifyWithin_comesTo t u,
      σ.verdict_ne_unfinished t u⟩,
    fun _ hr _ hoc _ hargs => hr.scoped.runWithin_comesTo hoc hargs⟩

/-- The rule from `A` to `(not A)`. -/
def Rule.negating : Rule := ⟨"r", [.atom "A"], [], [.ofName "not" [.atom "A"]], none⟩

/-- Bindings of `X` to `(f Y Y)` and of `Y` to `(f Z Z)`, under which `X` is unified with `(f V W)`;
and a rule that is asked for one and the same unknown as its given and its conclusion, which fails
at the occurs check. -/
theorem unification_terminates_doubling :
    let X : Var := ⟨"X", 1⟩
    let Y : Var := ⟨"Y", 2⟩
    let Z : Term := .var ⟨"Z", 3⟩
    let V : Var := ⟨"V", 4⟩
    let W : Var := ⟨"W", 5⟩
    let σ := (Bindings.empty.insert X (.ofName "f" [.var Y, .var Y])).insert Y
      (.ofName "f" [Z, Z])
    σ.Acyclic ∧
      ComesTo (σ.applyWithin · (.var X))
        (.ofName "f" [.ofName "f" [Z, Z], .ofName "f" [Z, Z]]) ∧
      ComesTo (Bindings.unifyWithin true · σ (.var X) (.ofName "f" [.var V, .var W]))
        (some ((σ.insert V (.ofName "f" [Z, Z])).insert W (.ofName "f" [Z, Z]))) ∧
      Rule.negating.Accepted ∧
      ComesTo
        (fun depth => (Rule.negating.compile.runWithin depth ⟨⟨[]⟩, 3, true, 1⟩
          [.var V, .var V]).run)
        (.ok .refuted) := by
  intro X Y Z V W σ
  have hσ : σ.Acyclic := by
    refine (Bindings.acyclic_empty.insert fun w hw => ?_).insert fun w hw => ?_
    · simp [Term.ofName, Term.vars, Term.varsIn] at hw
      simp [hw, X, Y]
    · simp [Z, Term.ofName, Term.vars, Term.varsIn] at hw
      subst hw
      exact ⟨by simp [Y], rfl⟩
  have hr : Rule.negating.Accepted := Rule.accepted_of_isExpr (by decide) (by decide)
  obtain ⟨happly, hunify, -⟩ :=
    unification_terminates.1 σ hσ (.var X) (.ofName "f" [.var V, .var W])
  exact ⟨hσ, happly, hunify, hr,
    unification_terminates.2 Rule.negating hr ⟨⟨[]⟩, 3, true, 1⟩ rfl [.var V, .var V] (by decide)⟩

end Deduction
