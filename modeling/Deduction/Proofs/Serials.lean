import Deduction.Proofs.Backward

/-!
# Answers do not depend on serials

The variables of a call are numbered from a serial that grows from call to call, so two runs of the
same call have no variable in common. Still they come to the same answer, or to the same error with
the same text. Arguments that cannot be opened fail before any variable is made. If they can be
opened, one renaming takes the unknowns and the slots of the one run to those of the other, the
outcome of the run is renamed with them, and placeholders are the same for renamed values.

## Main results

* `Call.openArgs_eq_error_iff_of_serial`: arguments fail to be opened from every serial.
* `Call.exists_perm_of_names`, `Call.exists_perm_of_serial`: the renaming between two runs of the
  same call.
* `Catalogue.apply_eq_of_serial`: the answer to a call is the same from every serial.
-/

namespace Deduction

namespace Call

variable {serial : Int} {args out : List Term} {unknowns : List Var}

/-- Whether and why arguments cannot be opened does not depend on how unknowns are numbered. -/
theorem openArgs_eq_error_iff_of_serial (serial serial' : Int) (n m : Nat) (args : List Term)
    (cause : Malformed) :
    openArgs serial n args = .error cause ↔ openArgs serial' m args = .error cause := by
  induction args generalizing n m with
  | nil => simp [openArgs]
  | cons arg args ih =>
      by_cases harg : arg = .wildcard
      · subst harg
        rw [openArgs_wildcard_eq_error_iff, openArgs_wildcard_eq_error_iff, ih (n + 1) (m + 1)]
      · rw [openArgs_cons_eq_error_iff harg, openArgs_cons_eq_error_iff harg, ih n m]

/-- **The renaming between two runs of the same call** with equally many slots. It takes the
unknowns, the slots and the arguments of the one run to those of the other. -/
theorem exists_perm_of_names (hfree : ∀ a ∈ args, a.isVarFree)
    (h : openArgs serial 0 args = .ok (unknowns, out)) (serial' : Int) {names names' : List String}
    (hnames : names.length = names'.length) :
    ∃ (unknowns' : List Var) (out' : List Term) (ρ : Equiv.Perm Var),
      openArgs serial' 0 args = .ok (unknowns', out') ∧ unknowns.map ρ = unknowns' ∧
      (slotVars (serial + unknowns.length) names).map ρ =
        slotVars (serial' + unknowns'.length) names' ∧
      out.map (Term.rename ρ) = out' := by
  obtain ⟨unknowns', out', h', hlen, hrename⟩ := openArgs_rename hfree h serial' 0
  obtain ⟨ρ, hρ⟩ := exists_perm_map_eq (nodup_unknowns_append_slotVars hfree h names)
    (nodup_unknowns_append_slotVars hfree h' names') (by simp [hlen, hnames])
  rw [List.map_append] at hρ
  obtain ⟨hunknowns, hslots⟩ := List.append_inj hρ (by simp [hlen])
  exact ⟨unknowns', out', ρ, h', hunknowns, hslots, hrename ρ hunknowns⟩

/-- The same with the same slots. -/
theorem exists_perm_of_serial (hfree : ∀ a ∈ args, a.isVarFree)
    (h : openArgs serial 0 args = .ok (unknowns, out)) (serial' : Int) (names : List String) :
    ∃ (unknowns' : List Var) (out' : List Term) (ρ : Equiv.Perm Var),
      openArgs serial' 0 args = .ok (unknowns', out') ∧ unknowns.map ρ = unknowns' ∧
      (slotVars (serial + unknowns.length) names).map ρ =
        slotVars (serial' + unknowns'.length) names ∧
      out.map (Term.rename ρ) = out' :=
  exists_perm_of_names hfree h serial' rfl

end Call

namespace Catalogue

/-- **The answer to a call does not depend on the serial of its first variable.** Take a catalogue
of accepted rules without logic variables, with any predicates, and any call whose arguments hold
no logic variables. From any two serials the call has the same answer, or it fails with the same
error. -/
theorem apply_eq_of_serial (c : Catalogue) (hc : c.Holds fun r => r.Accepted ∧ r.IsVarFree)
    (call : Call) (hfree : ∀ a ∈ call.args, a.isVarFree) (serial serial' : Int) :
    c.apply call serial = c.apply call serial' := by
  cases hentry : c.entryFor call with
  | error e => rw [apply_of_entryFor_eq_error hentry, apply_of_entryFor_eq_error hentry]
  | ok e =>
      cases hopen : Call.openArgs serial 0 call.args with
      | error cause =>
          have hopen' := (Call.openArgs_eq_error_iff_of_serial serial serial' 0 0 _ _).mp hopen
          rw [apply_of_openArgs_eq_error hentry hopen, apply_of_openArgs_eq_error hentry hopen']
      | ok opened =>
          obtain ⟨unknowns, args⟩ := opened
          obtain ⟨unknowns', args', ρ, hopen', rfl, hslots, rfl⟩ :=
            Call.exists_perm_of_serial hfree hopen serial' e.relation.slots
          obtain ⟨⟨hr, hv⟩, he⟩ := hc.eq_ofRule e (mem_entries_of_entryFor hentry)
          have hrel : e.relation.WellScoped := by
            rw [he]
            exact hr.wellScoped hv
          have hrun : e.relation.run (c.searchFor call serial' (unknowns.map ρ).length)
              (Call.relationOrder call.direction (args.map (Term.rename ρ))) =
              (e.relation.run (c.searchFor call serial unknowns.length)
                (Call.relationOrder call.direction args)).map (Outcome.rename ρ) :=
            run_rename hrel ρ.injective rfl hslots (Call.map_relationOrder ..)
          rw [apply_of_openArgs hentry hopen, apply_of_openArgs hentry hopen', hrun]
          cases e.relation.run (c.searchFor call serial unknowns.length)
              (Call.relationOrder call.direction args) with
          | error cause => rfl
          | ok outcome =>
              cases outcome with
              | solved σ =>
                  simp only [Except.map, Outcome.rename, σ.map_apply_var_rename ρ.injective,
                    Term.reifyAll_rename ρ.injective]
              | refuted => rfl
              | suspended waiting => rfl

/-- The catalogue whose only rule leads from `A` to `(or B A)`, on the condition that `A` is
simple. The predicate for that answers for atoms and breaks down on everything else. -/
def simpleDisjunction : Catalogue :=
  ⟨[.ofRule ⟨"or-i2", [.atom "A"], [], [.ofName "or" [.atom "B", .atom "A"]],
    some [.ofName "simple" [.atom "A"]]⟩],
    ⟨[("simple", fun args => match args with
      | [.atom _] => .ok (.datum (.bool true))
      | _ => .error "no atom")]⟩, false⟩

/-- The backward call of that rule with an unknown conclusion. -/
def simpleDisjunctionCall (arg : Term) : Call :=
  ⟨.atom "or-i2", [.wildcard, arg], some .backward, none⟩

/-- A call that leaves a part of its value open, and one on which the predicate breaks down: both
come out the same from serials far apart. -/
theorem apply_eq_of_serial_open :
    simpleDisjunction.apply (simpleDisjunctionCall (.atom "P")) (-7000) =
        .ok (.value (.ofName "or" [.atom "_0", .atom "P"])) ∧
      simpleDisjunction.apply (simpleDisjunctionCall (.group [])) (-7000) =
        .error (.prereqFailed (.ofName "simple" [.group []]) "no atom") := by
  have hholds : simpleDisjunction.Holds fun r => r.Accepted ∧ r.IsVarFree :=
    .configure _ false (.register (.empty .empty false)
      ⟨Rule.accepted_of_isExpr (by decide) (by decide), by decide⟩ rfl)
  have hgood : simpleDisjunction.apply (simpleDisjunctionCall (.atom "P")) 1 =
      .ok (.value (.ofName "or" [.atom "_0", .atom "P"])) := rfl
  have hbad : simpleDisjunction.apply (simpleDisjunctionCall (.group [])) 1 =
      .error (.prereqFailed (.ofName "simple" [.group []]) "no atom") := rfl
  exact ⟨(apply_eq_of_serial _ hholds _ (by decide) (-7000) 1).trans hgood,
    (apply_eq_of_serial _ hholds _ (by decide) (-7000) 1).trans hbad⟩

end Catalogue

end Deduction
