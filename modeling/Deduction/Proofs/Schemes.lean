import Deduction.Proofs.Placeholders

/-!
# Rules are schemes

The templates of a rule know operators and reserved constants, and nothing else by name. So what
passes as an instance of a rule without side conditions still does when its atoms are replaced,
all at once and each everywhere in the same way. The replaced arguments may be of any shape and
size: no run on them follows the one before step by step. But values that fit the relation of the
rule fit it when they are filled in, and a run finds a solution whenever there is one.

Side conditions are left out for a reason: a predicate may tell atoms apart.

## Main definitions

* `Term.replaceAtoms`: an authored value with its atoms replaced.

## Main results

* `Term.normalize_replaceAtoms`: replacing atoms and then reading a value is reading it and then
  filling in.
* `Relation.WellScoped.run_fill`: runs on filled-in arguments.
* `Catalogue.check_replaceAtoms`: checks are closed under replacement of atoms.
-/

namespace Deduction

/-! ### Atoms of authored values -/

namespace Term

mutual

/-- A value with every atom that is no reserved constant replaced, also in lists. Operators stay
as they are. -/
def replaceAtoms (θ : String → Term) : Term → Term
  | .atom s => if isKeyword s then .atom s else θ s
  | .app op args => .app op (replaceAtomsAll θ args)
  | .group items => .group (replaceAtomsAll θ items)
  | .list items => .list (replaceAtomsAll θ items)
  | t => t

/-- `replaceAtoms` item by item. -/
def replaceAtomsAll (θ : String → Term) : List Term → List Term
  | [] => []
  | t :: ts => replaceAtoms θ t :: replaceAtomsAll θ ts

end

theorem replaceAtomsAll_eq_map (θ : String → Term) (ts : List Term) :
    replaceAtomsAll θ ts = ts.map (replaceAtoms θ) := by
  induction ts with
  | nil => rfl
  | cons t ts ih => simp [replaceAtomsAll, ih]

mutual

/-- **Replacing atoms by expressions and reading values** can be done in either order. -/
theorem normalize_replaceAtoms {θ : String → Term}
    (hθ : ∀ x, isKeyword x = false → (θ x).isExpr) : ∀ {t u : Term}, normalize t = .ok u →
    normalize (t.replaceAtoms θ) = .ok (u.fill θ)
  | .atom s, u, h => by
      obtain rfl : u = .atom s := by
        by_cases hs : s.isEmpty
        · simp [normalize, hs] at h
        · rw [normalize, if_neg hs, Except.ok.injEq] at h
          exact h.symm
      by_cases hs : isKeyword s
      · rwa [replaceAtoms, fill, if_pos hs]
      · rw [replaceAtoms, fill, if_neg hs]
        exact normalize_of_isExpr (hθ s (by simpa using hs))
  | .app op args, u, h => by
      obtain ⟨name, us, rfl, hname, hne, hus, rfl⟩ := normalize_app_eq_ok_iff.mp h
      rw [replaceAtoms, fill]
      refine normalize_app_eq_ok_iff.mpr
        ⟨name, _, rfl, hname, ?_, normalizeAll_replaceAtoms hθ hus, rfl⟩
      simpa [replaceAtomsAll_eq_map] using hne
  | .group items, u, h => by
      obtain ⟨us, hus, rfl⟩ := normalize_items_eq_ok_iff.mp h
      rw [replaceAtoms, fill, normalize]
      exact normalize_items_eq_ok_iff.mpr ⟨_, normalizeAll_replaceAtoms hθ hus, rfl⟩
  | .list items, u, h => by
      obtain ⟨us, hus, rfl⟩ := normalize_items_eq_ok_iff.mp h
      rw [replaceAtoms, fill, normalize]
      exact normalize_items_eq_ok_iff.mpr ⟨_, normalizeAll_replaceAtoms hθ hus, rfl⟩
  | .var v, u, h => by
      obtain rfl := Except.ok.inj h
      rfl
  | .hollow, u, h => by cases h
  | .wildcard, u, h => by cases h
  | .datum d, u, h => by cases h

/-- The same item by item. -/
theorem normalizeAll_replaceAtoms {θ : String → Term}
    (hθ : ∀ x, isKeyword x = false → (θ x).isExpr) :
    ∀ {ts us : List Term}, normalizeAll ts = .ok us →
    normalizeAll (replaceAtomsAll θ ts) = .ok (fillAll θ us)
  | [], us, h => by
      obtain rfl := Except.ok.inj h
      rfl
  | t :: ts, us, h => by
      obtain ⟨u, us', hu, hus', rfl⟩ := normalizeAll_cons_eq_ok_iff.mp h
      rw [replaceAtomsAll, fillAll]
      exact normalizeAll_cons_eq_ok_iff.mpr
        ⟨_, _, normalize_replaceAtoms hθ hu, normalizeAll_replaceAtoms hθ hus', rfl⟩

end

/-- A ground term filled in with ground values is ground. -/
theorem isGround_fill {α : String → Term} (hα : ∀ x, isKeyword x = false → (α x).isGround)
    {t : Term} (ht : t.isGround) : (t.fill α).isGround := by
  rw [isGround_iff, vars_fill α ht]
  intro v hv
  obtain ⟨x, hx, hvx⟩ := List.mem_flatMap.mp hv
  exact isGround_iff.mp (hα x (isKeyword_of_mem_patternNames hx)) v hvx

end Term

/-- Values that can be read are opened as they are: there is nothing to solve for. -/
theorem Call.openArgs_of_normalizeAll {args exprs : List Term}
    (h : Term.normalizeAll args = .ok exprs) (serial : Int) (n : Nat) :
    openArgs serial n args = .ok ([], exprs) := by
  induction args generalizing exprs with
  | nil =>
      obtain rfl := Except.ok.inj h
      rfl
  | cons arg args ih =>
      obtain ⟨u, us, hu, hus, rfl⟩ := Term.normalizeAll_cons_eq_ok_iff.mp h
      have harg : arg ≠ .wildcard := by
        rintro rfl
        cases hu
      exact (openArgs_cons_eq_ok_iff harg).mpr ⟨u, us, hu, ih hus, rfl⟩

/-! ### Runs -/

namespace Relation

variable {rel : Relation} {args : List Term}

/-- A run on ground arguments ends well if the steps suffice, some values fit the relation, and
there are no checks. -/
theorem WellScoped.exists_run_of_fits (hrel : rel.WellScoped) (hchecks : rel.checks = [])
    {search : Search} (hoc : search.occursCheck = true)
    (hafford : search.Affords 0 (rel.arity + rel.equalities.length))
    (hargs : ∀ a ∈ args, a.isExpr ∧ a.isGround) {β : String → Term} (hfits : rel.Fits β args) :
    ∃ τ, rel.run search args = .ok (.solved τ) := by
  have hexprs : ∀ a ∈ args, a.isExpr := fun a ha => (hargs a ha).1
  have hlen : args.length = rel.arity := by rw [← hfits.1, List.length_map, arity]
  have hapart : rel.Apart search.serial args := fun a ha v hv =>
    absurd hv (Term.isGround_iff.mp (hargs a ha).2 v)
  rw [← Term.map_bind_of_isGround (fun a ha => (hargs a ha).2) .var,
    ← hrel.fits_extend_iff hapart] at hfits
  obtain ⟨τ, hτ⟩ := hrel.exists_solution hexprs hlen hfits
  exact ⟨τ, (hrel.run_eq_solved_iff hoc hexprs hlen).mpr ⟨⟨hafford, hτ⟩, by simp [hchecks]⟩⟩

/-- **Runs on filled-in arguments.** If a run on ground arguments ends well and no checks are made,
so does every run with as many steps on the same arguments filled in. -/
theorem WellScoped.run_fill (hrel : rel.WellScoped) (hchecks : rel.checks = [])
    {search search' : Search} (hoc : search.occursCheck = true)
    (hoc' : search'.occursCheck = true) (hlimit : search'.limit = search.limit)
    (hargs : ∀ a ∈ args, a.isExpr ∧ a.isGround) {σ : Bindings}
    (hrun : rel.run search args = .ok (.solved σ)) {θ : String → Term}
    (hfilled : ∀ a ∈ args, (a.fill θ).isExpr ∧ (a.fill θ).isGround) :
    ∃ τ, rel.run search' (args.map (Term.fill θ)) = .ok (.solved τ) := by
  have hlen := length_of_run hrun
  have hexprs : ∀ a ∈ args, a.isExpr := fun a ha => (hargs a ha).1
  obtain ⟨⟨hafford, hσ⟩, -⟩ := (hrel.run_eq_solved_iff hoc hexprs hlen).mp hrun
  obtain ⟨hacyclic, -, hrespect⟩ := hrel.solution_spec hexprs hlen hσ
  have hfits := (hrespect σ.image).mp hacyclic.respectedBy_image
  rw [Term.map_bind_of_isGround fun a ha => (hargs a ha).2] at hfits
  refine hrel.exists_run_of_fits hchecks hoc' ?_ (List.forall_mem_map.mpr hfilled) (hfits.fill θ)
  simpa [Search.Affords, hlimit] using hafford

end Relation

/-! ### Checks -/

namespace Catalogue

/-- A check passes when the call is answered without values. -/
theorem check_eq_true_iff {c : Catalogue} {call : Call} {serial : Int} :
    c.check call serial = .ok true ↔ ∃ σ, c.attempt call serial = .ok ([], .solved σ) := by
  have hpassed : c.check call serial = .ok true ↔ c.apply call serial = .ok .passed := by
    rw [check]
    cases c.apply call serial with
    | error e => by_cases he : isRefusal e <;> simp [he]
    | ok answer => cases answer <;> simp
  rw [hpassed, apply_eq_ok_iff]
  constructor
  · rintro ⟨unknowns, σ, hattempt, hanswer⟩
    have hnil := congrArg Answer.toList hanswer
    rw [Answer.toList_ofValues, Term.reifyAll_eq_map] at hnil
    obtain rfl : unknowns = [] := by simpa [Answer.toList] using hnil.symm
    exact ⟨σ, hattempt⟩
  · rintro ⟨σ, hattempt⟩
    exact ⟨[], σ, hattempt, rfl⟩

/-- **Checks are closed under replacement of atoms.** Take a rule without logic variables and
without side conditions, and arguments without logic variables that pass as a check, in any
direction and with any limit. Then the same arguments with their atoms replaced by ground
expressions, all at once, pass as a check in the same direction and with the same limit. -/
theorem check_replaceAtoms (c : Catalogue) (hc : c.Holds Rule.Accepted) (call : Call) (e : Entry)
    (hlookup : c.lookup call.rule = .ok e) (hv : e.rule.IsVarFree) (hprereq : e.rule.prereq = none)
    (hfree : ∀ a ∈ call.args, a.isVarFree) (serial : Int) (h : c.check call serial = .ok true)
    (θ : String → Term)
    (hθ : ∀ x, Term.isKeyword x = false → (θ x).isExpr ∧ (θ x).isGround) (serial' : Int) :
    c.check { call with args := call.args.map (Term.replaceAtoms θ) } serial' = .ok true := by
  obtain ⟨σ, hattempt⟩ := check_eq_true_iff.mp h
  obtain ⟨e', args, hentry, hopen, hrun⟩ := attempt_eq_ok_iff.mp hattempt
  obtain rfl : e = e' := Except.ok.inj (hlookup.symm.trans (lookup_of_entryFor hentry))
  obtain ⟨hr, he⟩ := hc.eq_ofRule e (mem_entries_of_entryFor hentry)
  have hrel : e.relation.WellScoped := by
    rw [he]
    exact hr.wellScoped hv
  have hchecks : e.relation.checks = [] := by
    rw [he, Entry.ofRule, Rule.checks_compile, Rule.checks, hprereq, Option.getD_none]
  -- The replaced arguments stand for the filled-in expressions.
  have hnorm' := Term.normalizeAll_replaceAtoms (fun x hx => (hθ x hx).1)
    (Call.normalizeAll_of_openArgs hopen)
  have hopen' := Call.openArgs_of_normalizeAll hnorm' serial' 0
  rw [Term.replaceAtomsAll_eq_map, Term.fillAll_eq_map] at hopen'
  rw [Term.fillAll_eq_map] at hnorm'
  have hground : ∀ a ∈ args, a.isExpr ∧ a.isGround := by
    intro a ha
    obtain ⟨hexpr, hvars⟩ := (Call.openArgs_spec hfree hopen).2.2 a ha
    exact ⟨hexpr, Term.isGround_iff.mpr fun v hv => by simpa using hvars v hv⟩
  have hfilled : ∀ a ∈ args, (a.fill θ).isExpr ∧ (a.fill θ).isGround := by
    intro a ha
    exact ⟨((Term.areExprs_of_normalizeAll hnorm').2 _ (List.mem_map_of_mem ha)).1,
      Term.isGround_fill (fun x hx => (hθ x hx).2) (hground a ha).2⟩
  obtain ⟨τ, hτ⟩ := @Relation.WellScoped.run_fill _ _ hrel hchecks
    (c.searchFor call serial 0) (c.searchFor call serial' 0) rfl rfl rfl
    (fun a ha => hground a (Call.mem_of_mem_relationOrder ha)) σ hrun θ
    (fun a ha => hfilled a (Call.mem_of_mem_relationOrder ha))
  rw [Call.map_relationOrder] at hτ
  have hwritable := Call.areWritable_of_openArgs hopen' (List.forall_mem_map.mpr hfilled)
  exact check_eq_true_iff.mpr ⟨τ, attempt_eq_ok_iff.mpr
    ⟨e, _, entryFor_of_areWritable hentry (by simp) hwritable, hopen', hτ⟩⟩

/-- The catalogue whose only rule leads from a conjunction in a state to its first part. -/
def firstPart : Catalogue :=
  ⟨[.ofRule (.plain "and-e1"
    [.ofName "at" [.group [.atom "i"], .ofName "and" [.atom "A", .atom "B"]]]
    [.ofName "at" [.group [.atom "i"], .atom "A"]])], .empty, false⟩

/-- The backward call of that rule from the goal to a conjunction, with lists for the labels. -/
def firstPartCall (state goal left right : Term) : Call :=
  ⟨.atom "and-e1", [.ofName "at" [.list [state], goal],
    .ofName "at" [.list [state], .ofName "and" [left, right]]], some .backward, none⟩

/-- The replacement of `P` by `(impl Q P)`, of `Q` by `[P]`, and of all else by `(next s)`. -/
def firstPartReplacement (x : String) : Term :=
  if x = "P" then .ofName "impl" [.atom "Q", .atom "P"]
  else if x = "Q" then .group [.atom "P"]
  else .ofName "next" [.atom "s"]

/-- The goal `P` is the first part of `(and P Q)`. The check still passes when `s` becomes
`(next s)` and, at once, `P` becomes `(impl Q P)` and `Q` becomes `[P]`. It does not pass when `P`
is replaced in the conjunction only. -/
theorem check_replaceAtoms_and :
    firstPart.check (firstPartCall (.atom "s") (.atom "P") (.atom "P") (.atom "Q")) 1 = .ok true ∧
      (∀ serial', firstPart.check (firstPartCall (.ofName "next" [.atom "s"])
        (.ofName "impl" [.atom "Q", .atom "P"]) (.ofName "impl" [.atom "Q", .atom "P"])
        (.group [.atom "P"])) serial' = .ok true) ∧
      firstPart.check (firstPartCall (.atom "s") (.atom "P")
        (.ofName "impl" [.atom "Q", .atom "P"]) (.atom "Q")) 1 = .ok false := by
  have hholds : firstPart.Holds Rule.Accepted := .register (.empty .empty false)
    (Rule.accepted_of_isExpr (by decide) (by decide)) rfl
  have hcheck : firstPart.check
      (firstPartCall (.atom "s") (.atom "P") (.atom "P") (.atom "Q")) 1 = .ok true := rfl
  have hvalues : ∀ x, Term.isKeyword x = false →
      (firstPartReplacement x).isExpr ∧ (firstPartReplacement x).isGround := by
    intro x _
    rw [firstPartReplacement]
    split_ifs <;> decide
  refine ⟨hcheck, ?_, rfl⟩
  exact check_replaceAtoms firstPart hholds _ _ rfl (by decide) rfl (by decide) 1 hcheck
    firstPartReplacement hvalues

end Catalogue

end Deduction
