import Mathlib.Logic.Equiv.Basic
import Deduction.Proofs.Compile
import Deduction.Term.Placeholder

/-!
# Renaming variables

The engine numbers the variables that it makes, and nothing that it does should depend on the
numbers. We show that it does not: if the variables of a problem are renamed, one to one, then
every step of the solver gives the renamed result of the same step before. This goes through
the whole solver, from the first difference of two terms to the run of a relation. An error
holds no variables and stays the same.

Which of two variables is bound to the other is decided by the side on which it stands and not
by its name or serial. The number of rounds that unification may take is the number of variables,
which a one-to-one renaming keeps.

## Main definitions

* `Term.rename`, `Meeting.rename`, `Bindings.rename`, `Outcome.rename`: what renaming does.
* `Term.mapNames`, `Relation.mapNames`: templates and relations with other names.

## Main results

* `Term.meet_rename`: the first difference of renamed terms.
* `Bindings.unifyRounds_rename`, `Bindings.tryUnify_rename`: unification of renamed terms.
* `Relation.solve_rename`: solving renamed equations.
* `Relation.WellScoped.run_mapNames`, `Relation.WellScoped.run_rename`: the run of a relation on
  renamed arguments, with other names or the same.
* `Term.reifyAll_rename`: placeholders do not depend on names.
* `exists_perm_map_eq`: a renaming that takes given variables to given others.
-/

namespace Deduction

open Term

/-! ### Lists -/

section

variable {α β : Type} [DecidableEq α] [DecidableEq β] {f : α → β}

/-- First appearances are kept when different elements of the list stay different. -/
theorem firsts_map_of_injOn {l : List α} (hf : ∀ a ∈ l, ∀ b ∈ l, f a = f b → a = b) :
    firsts (l.map f) = (firsts l).map f := by
  induction l with
  | nil => rfl
  | cons a l ih =>
      rw [List.map_cons, firsts, firsts, List.map_cons,
        ih fun b hb c hc => hf b (by simp [hb]) c (by simp [hc]), List.filter_map]
      congr 2
      refine List.filter_congr fun b hb => ?_
      have hiff : f b = f a ↔ b = a :=
        ⟨hf b (List.mem_cons_of_mem a (mem_firsts.mp hb)) a List.mem_cons_self, congrArg f⟩
      simp [hiff]

theorem firsts_map (hf : Function.Injective f) (l : List α) :
    firsts (l.map f) = (firsts l).map f :=
  firsts_map_of_injOn fun _ _ _ _ h => hf h

theorem idxOf_map (hf : Function.Injective f) (l : List α) (a : α) :
    (l.map f).idxOf (f a) = l.idxOf a := by
  induction l with
  | nil => rfl
  | cons b l ih => simp only [List.map_cons, List.idxOf_cons, beq_eq_decide, hf.eq_iff, ih]

end

/-- **Given variables can be taken to given others.** Between two lists of equally many different
elements there is a permutation that takes the one to the other. Induction on the lists: the
permutation for the rest is followed by the exchange that corrects it at the new element. -/
theorem exists_perm_map_eq {α : Type} [DecidableEq α] {vs ws : List α} (hvs : vs.Nodup)
    (hws : ws.Nodup) (hlen : vs.length = ws.length) : ∃ ρ : Equiv.Perm α, vs.map ρ = ws := by
  induction vs generalizing ws with
  | nil =>
      obtain rfl : ws = [] := List.length_eq_zero_iff.mp hlen.symm
      exact ⟨Equiv.refl α, rfl⟩
  | cons v vs ih =>
      obtain ⟨w, ws, rfl⟩ := List.exists_cons_of_length_eq_add_one hlen.symm
      obtain ⟨hv, hvs⟩ := List.nodup_cons.mp hvs
      obtain ⟨hw, hws⟩ := List.nodup_cons.mp hws
      obtain ⟨ρ, rfl⟩ := ih hvs hws (by simpa using hlen)
      refine ⟨ρ.trans (Equiv.swap (ρ v) w), ?_⟩
      rw [List.map_cons, Equiv.trans_apply, Equiv.swap_apply_left]
      congr 1
      refine List.map_congr_left fun u hu => Equiv.swap_apply_of_ne_of_ne ?_ ?_
      · exact fun heq => hv (ρ.injective heq ▸ hu)
      · exact fun heq => hw (heq ▸ List.mem_map_of_mem hu)

/-! ### Terms -/

variable {ρ : Var → Var}

namespace Term

/-- The term with every variable renamed. -/
def rename (ρ : Var → Var) (t : Term) : Term := t.bind fun v => .var (ρ v)

@[simp] theorem rename_var (ρ : Var → Var) (v : Var) : (var v).rename ρ = .var (ρ v) := by
  simp [rename, bind]

@[simp] theorem rename_app (ρ : Var → Var) (op : Term) (args : List Term) :
    (app op args).rename ρ = .app op (args.map (rename ρ)) := by
  rw [rename, bind, bindAll_eq_map]
  rfl

@[simp] theorem rename_group (ρ : Var → Var) (items : List Term) :
    (group items).rename ρ = .group (items.map (rename ρ)) := by
  rw [rename, bind, bindAll_eq_map]
  rfl

theorem rename_of_isGround {t : Term} (ht : t.isGround) (ρ : Var → Var) : t.rename ρ = t :=
  bind_of_isGround ht _

/-- Replacing renamed variables. -/
theorem bind_rename (f : Var → Term) (ρ : Var → Var) (t : Term) :
    (t.rename ρ).bind f = t.bind fun v => f (ρ v) := by
  simp only [rename, bind_bind, bind]

/-- Renaming after replacing is renaming the images. -/
theorem rename_bind (f : Var → Term) (ρ : Var → Var) (t : Term) :
    (t.bind f).rename ρ = t.bind fun v => (f v).rename ρ :=
  bind_bind f _ t

theorem vars_rename (ρ : Var → Var) (t : Term) : (t.rename ρ).vars = t.vars.map ρ := by
  induction t using Term.walk with
  | app op args ih =>
      simp only [rename_app, vars, varsIn_eq_flatMap, List.flatMap_map, List.map_flatMap]
      exact List.flatMap_congr ih
  | group items ih =>
      simp only [rename_group, vars, varsIn_eq_flatMap, List.flatMap_map, List.map_flatMap]
      exact List.flatMap_congr ih
  | _ => simp [rename, bind, vars]

theorem varsIn_rename (ρ : Var → Var) (ts : List Term) :
    varsIn (ts.map (rename ρ)) = (varsIn ts).map ρ := by
  simp only [varsIn_eq_flatMap, List.flatMap_map, List.map_flatMap, vars_rename]

@[simp] theorem isGround_rename (ρ : Var → Var) (t : Term) :
    (t.rename ρ).isGround = t.isGround := by
  rw [isGround, vars_rename, List.isEmpty_map, isGround]

theorem length_freeVars_rename (hρ : Function.Injective ρ) (t : Term) :
    (t.rename ρ).freeVars.length = t.freeVars.length := by
  rw [freeVars, vars_rename, firsts_map hρ, List.length_map, freeVars]

theorem occurs_var_rename (hρ : Function.Injective ρ) (v : Var) (t : Term) :
    occurs (.var (ρ v)) (t.rename ρ) = occurs (.var v) t := by
  rw [Bool.eq_iff_iff, occurs_var_iff, occurs_var_iff, vars_rename, List.mem_map_of_injective hρ]

theorem meetsHollow_rename (ρ : Var → Var) (t : Term) :
    (t.rename ρ).meetsHollow = t.meetsHollow := by
  have hall : ∀ ts : List Term, (∀ t ∈ ts, (t.rename ρ).meetsHollow = t.meetsHollow) →
      meetsHollowIn (ts.map (rename ρ)) = meetsHollowIn ts := by
    intro ts h
    induction ts with
    | nil => rfl
    | cons t ts ih =>
        rw [List.forall_mem_cons] at h
        rw [List.map_cons, meetsHollowIn, meetsHollowIn, h.1, ih h.2]
  induction t using Term.walk with
  | app op args ih => simpa [meetsHollow] using hall args ih
  | group items ih => simpa [meetsHollow] using hall items ih
  | _ => simp [rename, bind, meetsHollow]

/-- Replacement of one variable, renamed. -/
theorem replace_rename (hρ : Function.Injective ρ) (u : Term) (v : Var) (t : Term) :
    (u.rename ρ).replace (ρ v) (t.rename ρ) = (u.replace v t).rename ρ := by
  rw [replace, bind_rename, replace, rename_bind]
  congr 1
  funext w
  by_cases hw : w = v
  · simp [single, hw]
  · simp [single, hw, hρ.eq_iff]

end Term

/-! ### First differences -/

/-- Both sides of every pair renamed. -/
def renamePairs (ρ : Var → Var) (pairs : List (Term × Term)) : List (Term × Term) :=
  pairs.map (Prod.map (rename ρ) (rename ρ))

/-- A difference in renamed terms. -/
def Meeting.rename (ρ : Var → Var) : Meeting → Meeting
  | .agree => .agree
  | .clash => .clash
  | .bind v t rest => .bind (ρ v) (t.rename ρ) (renamePairs ρ rest)

@[simp] theorem Meeting.rename_agree (ρ : Var → Var) : Meeting.agree.rename ρ = .agree := rfl

@[simp] theorem Meeting.rename_clash (ρ : Var → Var) : Meeting.clash.rename ρ = .clash := rfl

@[simp] theorem Meeting.rename_bind (ρ : Var → Var) (v : Var) (t : Term)
    (rest : List (Term × Term)) :
    (Meeting.bind v t rest).rename ρ = .bind (ρ v) (t.rename ρ) (renamePairs ρ rest) := rfl

@[simp] theorem Meeting.rename_ite (ρ : Var → Var) (same : Bool) :
    (if same then Meeting.agree else .clash).rename ρ = if same then .agree else .clash := by
  cases same <;> rfl

@[simp] theorem renamePairs_nil (ρ : Var → Var) : renamePairs ρ [] = [] := rfl

theorem renamePairs_zip (ρ : Var → Var) (as bs : List Term) :
    renamePairs ρ (as.zip bs) = (as.map (rename ρ)).zip (bs.map (rename ρ)) :=
  List.zip_map.symm

theorem renamePairs_append (ρ : Var → Var) (ps qs : List (Term × Term)) :
    renamePairs ρ (ps ++ qs) = renamePairs ρ ps ++ renamePairs ρ qs :=
  List.map_append

namespace Term

/-- The first difference of two lists, from that of their items. -/
theorem meetAll_rename {as : List Term}
    (h : ∀ a ∈ as, ∀ b, meet (a.rename ρ) (b.rename ρ) = (meet a b).rename ρ) (bs : List Term) :
    meetAll (as.map (rename ρ)) (bs.map (rename ρ)) = (meetAll as bs).rename ρ := by
  induction as generalizing bs with
  | nil => simp [meetAll]
  | cons a as ih =>
      cases bs with
      | nil => simp [meetAll]
      | cons b bs =>
          rw [List.forall_mem_cons] at h
          rw [List.map_cons, List.map_cons, meetAll, meetAll, h.1 b]
          cases meet a b with
          | agree => exact ih h.2 bs
          | clash => rfl
          | bind v t rest =>
              simp only [Meeting.rename_bind, renamePairs_append, renamePairs_zip]

/-- **The first difference of renamed terms is the renamed first difference.** -/
theorem meet_rename (hρ : Function.Injective ρ) (t u : Term) :
    meet (t.rename ρ) (u.rename ρ) = (meet t u).rename ρ := by
  induction t using Term.walk generalizing u with
  | var v =>
      cases u with
      | var w =>
          -- The left one is bound to the right one, unless both are the same.
          by_cases hvw : v = w
          · simp [meet, hvw]
          · simp [meet, hvw, hρ.eq_iff]
      | _ => simp [rename, bind, meet]
  | app op args ih =>
      cases u with
      | app op' args' =>
          simp only [rename_app, meet, List.length_map]
          split
          · exact meetAll_rename ih args'
          · rfl
      | _ => simp [rename, bind, meet, same]
  | group items ih =>
      cases u with
      | group items' =>
          simp only [rename_group, meet, List.length_map]
          split
          · exact meetAll_rename ih items'
          · rfl
      | _ => simp [rename, bind, meet, same]
  | _ =>
      cases u with
      | app | group => simp [rename, bind, meet, same]
      | _ => simp [rename, bind, meet]

theorem meetPairs_rename (hρ : Function.Injective ρ) (pairs : List (Term × Term)) :
    meetPairs (renamePairs ρ pairs) = (meetPairs pairs).rename ρ := by
  induction pairs with
  | nil => rfl
  | cons p pairs ih =>
      rw [renamePairs, List.map_cons, Prod.map, meetPairs, meetPairs, meet_rename hρ]
      cases meet p.1 p.2 with
      | agree => exact ih
      | clash => rfl
      | bind v t rest => simp only [Meeting.rename_bind, renamePairs, List.map_append]

end Term

/-! ### Bindings -/

namespace Bindings

/-- The bindings with every variable renamed. -/
def rename (ρ : Var → Var) (σ : Bindings) : Bindings :=
  ⟨σ.pairs.map (Prod.map ρ (Term.rename ρ))⟩

theorem find?_rename (hρ : Function.Injective ρ) (σ : Bindings) (v : Var) :
    (σ.rename ρ).find? (ρ v) = (σ.find? v).map (Term.rename ρ) := by
  have hp : ((fun p : Var × Term => p.1 == ρ v) ∘ Prod.map ρ (Term.rename ρ)) = (·.1 == v) := by
    funext p
    simp [hρ.eq_iff, beq_eq_decide]
  rw [find?, rename, List.find?_map, hp, find?]
  cases σ.pairs.find? (·.1 == v) <;> rfl

theorem insert_rename (hρ : Function.Injective ρ) (σ : Bindings) (v : Var) (t : Term) :
    (σ.rename ρ).insert (ρ v) (t.rename ρ) = (σ.insert v t).rename ρ := by
  have hp : ((fun p : Var × Term => decide (p.1 ≠ ρ v)) ∘ Prod.map ρ (Term.rename ρ)) =
      fun p => decide (p.1 ≠ v) := by
    funext p
    simp [hρ.eq_iff]
  rw [insert, rename, List.filter_map, hp, insert, rename, List.map_cons, Prod.map]

theorem chase_rename (hρ : Function.Injective ρ) (σ : Bindings) (n : Nat) (v : Var) :
    (σ.rename ρ).chase n (ρ v) = (σ.chase n v).rename ρ := by
  induction n generalizing v with
  | zero => simp [chase]
  | succ n ih =>
      rw [chase, chase, find?_rename hρ]
      cases σ.find? v with
      | none => simp
      | some t =>
          rw [Option.map_some, rename_bind]
          simp only [bind_rename, ih]

/-- Applying renamed bindings. -/
theorem apply_rename (hρ : Function.Injective ρ) (σ : Bindings) (t : Term) :
    (σ.rename ρ).apply (t.rename ρ) = (σ.apply t).rename ρ := by
  have hsize : (σ.rename ρ).size = σ.size := List.length_map ..
  simp only [apply, hsize, bind_rename, chase_rename hρ, rename_bind]

/-- The values of renamed variables under renamed bindings are renamed. -/
theorem map_apply_var_rename (hρ : Function.Injective ρ) (σ : Bindings) (vs : List Var) :
    (vs.map ρ).map (fun v => (σ.rename ρ).apply (.var v)) =
      (vs.map fun v => σ.apply (.var v)).map (Term.rename ρ) := by
  rw [List.map_map, List.map_map]
  refine List.map_congr_left fun v _ => ?_
  rw [Function.comp_apply, Function.comp_apply, ← σ.apply_rename hρ, rename_var]

end Bindings

/-- A verdict with every variable renamed. -/
def Verdict.rename (ρ : Var → Var) : Verdict → Verdict
  | .unified σ => .unified (σ.rename ρ)
  | .failed => .failed
  | .unfinished => .unfinished

namespace Bindings

/-- **Rounds of unification of renamed pairs.** Induction along the rounds: the first difference,
the occurs check, the replacement and the new binding are all renamed. -/
theorem unifyRounds_rename (hρ : Function.Injective ρ) (check : Bool) (rounds : Nat)
    (pairs : List (Term × Term)) (σ : Bindings) :
    unifyRounds check rounds (renamePairs ρ pairs) (σ.rename ρ) =
      (unifyRounds check rounds pairs σ).rename ρ := by
  fun_induction unifyRounds check rounds pairs σ with
  | case1 rounds pairs σ hmeet | case2 rounds pairs σ hmeet =>
      unfold unifyRounds
      rw [meetPairs_rename hρ, hmeet]
      rfl
  | case3 rounds pairs σ v t rest hmeet hoccurs =>
      unfold unifyRounds
      simp only [meetPairs_rename hρ, hmeet, Meeting.rename_bind, occurs_var_rename hρ,
        if_pos hoccurs]
      rfl
  | case4 pairs σ v t rest hmeet hoccurs =>
      unfold unifyRounds
      simp only [meetPairs_rename hρ, hmeet, Meeting.rename_bind, occurs_var_rename hρ,
        if_neg hoccurs]
      rfl
  | case5 pairs σ v t rest hmeet hoccurs rounds ih =>
      have hrest : (renamePairs ρ rest).map (fun p =>
          (p.1.replace (ρ v) (t.rename ρ), p.2.replace (ρ v) (t.rename ρ))) =
          renamePairs ρ (rest.map fun p => (p.1.replace v t, p.2.replace v t)) := by
        simp [renamePairs, replace_rename hρ]
      rw [← ih, ← insert_rename hρ, ← hrest]
      conv_lhs => unfold unifyRounds
      simp only [meetPairs_rename hρ, hmeet, Meeting.rename_bind, occurs_var_rename hρ,
        if_neg hoccurs]

theorem verdict_rename (hρ : Function.Injective ρ) (σ : Bindings) (t u : Term) (check : Bool) :
    (σ.rename ρ).verdict (t.rename ρ) (u.rename ρ) check = (σ.verdict t u check).rename ρ := by
  simp only [verdict, apply_rename hρ, length_freeVars_rename hρ]
  exact unifyRounds_rename hρ check _ [(σ.apply t, σ.apply u)] σ

/-- **Unification of renamed terms.** -/
theorem tryUnify_rename (hρ : Function.Injective ρ) (σ : Bindings) (t u : Term) (check : Bool) :
    (σ.rename ρ).tryUnify (t.rename ρ) (u.rename ρ) check =
      (σ.tryUnify t u check).map (Option.map (rename ρ)) := by
  have hunify : (σ.rename ρ).unify (t.rename ρ) (u.rename ρ) check =
      (σ.unify t u check).map (rename ρ) := by
    rw [unify, verdict_rename hρ, unify]
    cases σ.verdict t u check <;> rfl
  simp only [tryUnify, tryApply, apply_rename hρ, meetsHollow_rename, hunify]
  cases (σ.apply t).meetsHollow <;> cases (σ.apply u).meetsHollow <;> rfl

end Bindings

/-! ### Runs -/

/-- An outcome with every variable renamed. -/
def Outcome.rename (ρ : Var → Var) : Outcome → Outcome
  | .solved σ => .solved (σ.rename ρ)
  | .refuted => .refuted
  | .suspended waiting => .suspended (waiting.map (Term.rename ρ))

namespace Relation

/-- Firing renamed checks. What is ready holds no variables, so the predicates are asked the same
questions. -/
theorem fireReady_rename (hρ : Function.Injective ρ) (predicates : PredicateTable)
    (σ : Bindings) (ts : List Term) :
    fireReady predicates (σ.rename ρ) (ts.map (Term.rename ρ)) =
      (fireReady predicates σ ts).map (Option.map (List.map (Term.rename ρ))) := by
  induction ts with
  | nil => rfl
  | cons t ts ih =>
      rw [List.map_cons, fireReady, fireReady, σ.apply_rename hρ, isGround_rename, ih]
      -- A check that is ready is the same before and after; one that waits goes on waiting.
      by_cases hground : (σ.apply t).isGround
      · simp only [hground, if_true, rename_of_isGround hground]
        cases predicates.holds (σ.apply t) with
        | error e => rfl
        | ok holds => cases holds <;> rfl
      · simp only [hground]
        cases fireReady predicates σ ts with
        | error e => rfl
        | ok fired => cases fired <;> rfl

/-- **Solving renamed equations.** Induction on the equations. The serial of the search does not
matter, because solving makes no variables. -/
theorem solve_rename (hρ : Function.Injective ρ) (id : String) (search : Search) (serial : Int)
    (equations : List (Term × Term)) (steps : Nat) (σ : Bindings) (waiting : List Term) :
    solve id { search with serial := serial } (renamePairs ρ equations) steps (σ.rename ρ)
        (waiting.map (Term.rename ρ)) =
      (solve id search equations steps σ waiting).map (Outcome.rename ρ) := by
  induction equations generalizing steps σ waiting with
  | nil =>
      have happly : (waiting.map (Term.rename ρ)).map (σ.rename ρ).apply =
          (waiting.map σ.apply).map (Term.rename ρ) := by
        simp [σ.apply_rename hρ]
      rw [renamePairs, List.map_nil, solve, solve, List.isEmpty_map, happly]
      cases waiting.isEmpty <;> rfl
  | cons p equations ih =>
      rw [renamePairs, List.map_cons, Prod.map, solve, solve, σ.tryUnify_rename hρ]
      by_cases hstop : search.limit < steps + 1
      · simp only [hstop, if_true]
        rfl
      · simp only [hstop, if_false]
        cases σ.tryUnify p.1 p.2 search.occursCheck with
        | error e => rfl
        | ok found =>
            cases found with
            | none => rfl
            | some τ =>
                have hfire := fireReady_rename hρ search.predicates τ waiting
                simp only [Except.map, Option.map_some, Bind.bind, Except.bind, hfire]
                cases fireReady search.predicates τ waiting with
                | error e => rfl
                | ok fired =>
                    cases fired with
                    | none => rfl
                    | some rest => exact ih (steps + 1) τ rest

end Relation

/-! ### Other names -/

section

variable (g : String → String)

/-- The template with every pattern variable renamed. -/
def Term.mapNames (t : Term) : Term := t.fill fun x => .atom (g x)

/-- A goal with other names. -/
def Goal.mapNames : Goal → Goal
  | .unify slot template => .unify (g slot) (template.mapNames g)
  | .check template => .check (template.mapNames g)

/-- A relation with other names. -/
def Relation.mapNames (rel : Relation) : Relation :=
  ⟨rel.id, rel.params.map g, rel.locals.map g, rel.goals.map (Goal.mapNames g)⟩

end

@[simp] theorem Term.mapNames_id' (t : Term) : (t.mapNames fun x => x) = t :=
  fill_eq_self fun _ _ => rfl

/-- Filling in a template with other names is filling it in with the values of these. -/
theorem Term.fill_mapNames {g : String → String} {t : Term}
    (hkey : ∀ x ∈ t.patternNames, isKeyword (g x) = false) (α : String → Term) :
    (t.mapNames g).fill α = t.fill fun x => α (g x) := by
  rw [mapNames, fill_fill]
  exact fill_congr fun x hx => by simp [fill, hkey x hx]

namespace Relation

variable {g : String → String} (rel : Relation)

@[simp] theorem params_mapNames : (rel.mapNames g).params = rel.params.map g := rfl

@[simp] theorem slots_mapNames : (rel.mapNames g).slots = rel.slots.map g := by
  simp [slots, mapNames]

@[simp] theorem arity_mapNames : (rel.mapNames g).arity = rel.arity := by simp [arity, mapNames]

@[simp] theorem equalities_mapNames :
    (rel.mapNames g).equalities = rel.equalities.map fun p => (g p.1, p.2.mapNames g) := by
  rw [equalities, equalities, mapNames, List.filterMap_map, List.map_filterMap]
  congr 1
  funext goal
  cases goal <;> rfl

@[simp] theorem checks_mapNames :
    (rel.mapNames g).checks = rel.checks.map (Term.mapNames g) := by
  rw [checks, checks, mapNames, List.filterMap_map, List.map_filterMap]
  congr 1
  funext goal
  cases goal <;> rfl

@[simp] theorem mapNames_id' : (rel.mapNames fun x => x) = rel := by
  have hgoal : Goal.mapNames (fun x => x) = fun goal => goal := by
    funext goal
    cases goal <;> simp [Goal.mapNames]
  rw [mapNames, hgoal, List.map_id', List.map_id', List.map_id']

end Relation

/-- Slot variables that are renamed to slot variables of other names: each name has the renamed
variable. -/
theorem slotOf_rename {g : String → String} (hg : Function.Injective g) {serial serial' : Int}
    {names : List String}
    (hslots : (slotVars serial names).map ρ = slotVars serial' (names.map g)) {x : String}
    (hx : x ∈ names) : slotOf serial' (names.map g) (g x) = ρ (slotOf serial names x) := by
  have hnames : ∀ v ∈ slotVars serial names, (ρ v).name = g v.name := by
    refine List.map_inj_left.mp ?_
    calc (slotVars serial names).map (fun v => (ρ v).name)
        = ((slotVars serial names).map ρ).map Var.name := by rw [List.map_map]; rfl
      _ = ((slotVars serial names).map Var.name).map g := by
          rw [hslots, map_name_slotVars, map_name_slotVars]
      _ = (slotVars serial names).map fun v => g v.name := by rw [List.map_map]; rfl
  have hfind : ∀ vs : List Var, (∀ v ∈ vs, (ρ v).name = g v.name) →
      (vs.map ρ).find? (·.name == g x) = (vs.find? (·.name == x)).map ρ := by
    intro vs hvs
    induction vs with
    | nil => rfl
    | cons v vs ih =>
        rw [List.forall_mem_cons] at hvs
        by_cases hv : v.name = x
        · simp [hvs.1, hv]
        · simp [hvs.1, hv, hg.eq_iff, ih hvs.2]
  have hsome := @find?_slotVars serial' (names.map g) (g x) (List.mem_map_of_mem hx)
  rw [← hslots, ← List.map_reverse, hfind _ fun v hv => hnames v (List.mem_reverse.mp hv),
    find?_slotVars hx] at hsome
  exact (Option.some.inj hsome).symm

namespace Relation

section

variable {rel : Relation} {g : String → String} {serial serial' : Int}

/-- The slot of a name in a run with other names and other slot variables. -/
theorem slotOfRun_mapNames (hg : Function.Injective g)
    (hslots : (slotVars serial rel.slots).map ρ = slotVars serial' (rel.slots.map g)) {x : String}
    (hx : x ∈ rel.slots) :
    (rel.mapNames g).slotOfRun serial' (g x) = (rel.slotOfRun serial x).rename ρ := by
  rw [slotOfRun, slots_mapNames, slotOf_rename hg hslots hx, slotOfRun, rename_var]

variable (hrel : rel.WellScoped) (hg : Function.Injective g)
  (hkey : ∀ t ∈ rel.equalities.map Prod.snd ++ rel.checks, ∀ x ∈ t.patternNames,
    isKeyword (g x) = false)
  (hslots : (slotVars serial rel.slots).map ρ = slotVars serial' (rel.slots.map g))

include hrel hg hkey hslots

/-- The templates of a run with other names and other slot variables are renamed. -/
theorem WellScoped.fill_mapNames {t : Term}
    (ht : t ∈ rel.equalities.map Prod.snd ++ rel.checks) :
    (t.mapNames g).fill ((rel.mapNames g).slotOfRun serial') =
      (t.fill (rel.slotOfRun serial)).rename ρ := by
  rw [Term.fill_mapNames (hkey t ht), Term.rename, bind_fill _ _ (hrel.isGround t ht)]
  exact fill_congr fun x hx => slotOfRun_mapNames hg hslots (hrel.names_mem t ht x hx)

/-- The equations of a run with other names and other slot variables on renamed arguments are
renamed. -/
theorem WellScoped.equations_mapNames (args : List Term) :
    (rel.mapNames g).equations serial' (args.map (Term.rename ρ)) =
      renamePairs ρ (rel.equations serial args) := by
  have hslot : ∀ x ∈ rel.slots,
      (rel.mapNames g).slotOfRun serial' (g x) = (rel.slotOfRun serial x).rename ρ :=
    fun x hx => slotOfRun_mapNames hg hslots hx
  rw [equations, equations, renamePairs_append, renamePairs_zip, equalities_mapNames,
    List.map_map]
  congr 1
  · have hparams : ((rel.mapNames g).params.map ((rel.mapNames g).slotOfRun serial')) =
        (rel.params.map (rel.slotOfRun serial)).map (Term.rename ρ) := by
      rw [List.map_map, params_mapNames, List.map_map]
      exact List.map_congr_left fun x hx => hslot x (List.mem_append_left _ hx)
    rw [hparams]
  · rw [renamePairs, List.map_map]
    refine List.map_congr_left fun p hp => ?_
    simp only [Function.comp_apply]
    rw [hslot p.1 (hrel.slot_mem p hp),
      hrel.fill_mapNames hg hkey hslots (List.mem_append_left _ (List.mem_map_of_mem hp))]
    rfl

end

/-- **The run of a relation with other names on renamed arguments**, from another serial: if the
renaming takes the slot variables of the one run to those of the other, the outcome is renamed, and
an error is the same. -/
theorem WellScoped.run_mapNames {rel : Relation} (hrel : rel.WellScoped) {g : String → String}
    (hrel' : (rel.mapNames g).Scoped) (hg : Function.Injective g)
    (hkey : ∀ t ∈ rel.equalities.map Prod.snd ++ rel.checks, ∀ x ∈ t.patternNames,
      isKeyword (g x) = false)
    (hρ : Function.Injective ρ) (search : Search) {serial : Int}
    (hslots : (slotVars search.serial rel.slots).map ρ = slotVars serial (rel.slots.map g))
    (args : List Term) :
    (rel.mapNames g).run { search with serial := serial } (args.map (Term.rename ρ)) =
      (rel.run search args).map (Outcome.rename ρ) := by
  by_cases hlen : args.length = rel.arity
  · have hchecks : (rel.mapNames g).checks.map (fill ((rel.mapNames g).slotOfRun serial)) =
        (rel.checks.map (fill (rel.slotOfRun search.serial))).map (Term.rename ρ) := by
      rw [checks_mapNames, List.map_map, List.map_map]
      exact List.map_congr_left fun t ht =>
        hrel.fill_mapNames hg hkey hslots (List.mem_append_right _ ht)
    have hfire : fireReady search.predicates .empty
        ((rel.checks.map (fill (rel.slotOfRun search.serial))).map (Term.rename ρ)) =
        (fireReady search.predicates .empty
          (rel.checks.map (fill (rel.slotOfRun search.serial)))).map
            (Option.map (List.map (Term.rename ρ))) :=
      fireReady_rename hρ search.predicates .empty _
    rw [hrel.run_eq search hlen, hrel'.run_eq _ (by rw [List.length_map, arity_mapNames, hlen]),
      hchecks, hfire, hrel.equations_mapNames hg hkey hslots]
    cases fireReady search.predicates .empty
        (rel.checks.map (fill (rel.slotOfRun search.serial))) with
    | error e => rfl
    | ok fired =>
        cases fired with
        | none => rfl
        | some waiting => exact solve_rename hρ rel.id search serial _ 0 .empty waiting
  · have hlen' : (args.map (Term.rename ρ)).length ≠ (rel.mapNames g).arity := by
      rwa [List.length_map, arity_mapNames]
    rw [run, if_neg hlen', List.length_map, run, if_neg hlen, arity_mapNames]
    rfl

/-- **The run of a relation on renamed arguments**, from another serial. -/
theorem WellScoped.run_rename {rel : Relation} (hrel : rel.WellScoped)
    (hρ : Function.Injective ρ) (search : Search) {serial : Int}
    (hslots : (slotVars search.serial rel.slots).map ρ = slotVars serial rel.slots)
    (args : List Term) :
    rel.run { search with serial := serial } (args.map (Term.rename ρ)) =
      (rel.run search args).map (Outcome.rename ρ) := by
  have hslots' : (slotVars search.serial rel.slots).map ρ =
      slotVars serial (rel.slots.map fun x => x) := by rwa [List.map_id']
  have hscoped : (rel.mapNames fun x => x).Scoped := by
    rw [mapNames_id']
    exact hrel.toScoped
  have hrun := hrel.run_mapNames hscoped (fun _ _ heq => heq)
    (fun _ _ _ hx => isKeyword_of_mem_patternNames hx) hρ search hslots' args
  rwa [mapNames_id'] at hrun

end Relation

/-! ### Answers -/

namespace Term

/-- **Placeholders do not depend on the names of variables.** -/
theorem reifyAll_rename (hρ : Function.Injective ρ) (ts : List Term) :
    reifyAll (ts.map (rename ρ)) = reifyAll ts := by
  simp only [reifyAll, bindAll_eq_map, List.map_map, varsIn_rename, firsts_map hρ]
  refine List.map_congr_left fun t _ => ?_
  simp only [Function.comp_apply, bind_rename, idxOf_map hρ]

end Term

end Deduction
