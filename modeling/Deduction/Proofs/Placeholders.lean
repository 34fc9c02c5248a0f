import Deduction.Proofs.Answers

/-!
# Placeholders in answers

What an answer leaves open is shown by the atoms `_0`, `_1`, … in order of first appearance.
Different open variables always get different placeholders. But the numbering starts anew in
every call and does not look at the arguments, so an argument that holds a placeholder of an
earlier answer may meet the same placeholder again. We show that this is the only way in which
a placeholder can be mistaken: one that does not occur in the arguments occurs in no value of
the solution, and renaming such placeholders in the answer is replacing the open variables for
which they stand.

## Main definitions

* `Term.rank`: the number of the placeholder of an open variable.
* `Call.supplies`: does a term occur in the arguments of a call?

## Main results

* `Term.placeholder_inj`: placeholders with different numbers are different.
* `Term.placeholder_rank_inj`: different open variables have different placeholders.
* `Catalogue.placeholder_apart_of_not_supplied`: placeholders that the arguments do not hold
  stand for open variables only.
* `Catalogue.supplied_placeholder_reused`: an argument with a placeholder that is met again.
-/

namespace Deduction

namespace Term

/-! ### Numbering -/

/-- Placeholders with different numbers are different. -/
theorem placeholder_inj {m n : Nat} : placeholder m = placeholder n ↔ m = n := by
  refine ⟨fun h => ?_, congrArg placeholder⟩
  have htext := congrArg String.toList (Term.atom.inj h)
  have hdigits : Nat.toDigits 10 m = Nat.toDigits 10 n := by
    simpa [String.toList_append, Nat.toString_eq_repr, Nat.toList_repr] using htext
  simpa using congrArg (fun digits => Nat.ofDigitChars 10 digits 0) hdigits

/-- No placeholder is a reserved constant. -/
theorem isKeyword_placeholder (n : Nat) : isKeyword ("_" ++ toString n) = false := by
  have hhead : ∀ word ∈ keywords, word.toList.head? ≠ some '_' := by decide
  by_contra hkey
  have hmem : "_" ++ toString n ∈ keywords := by simpa [isKeyword] using hkey
  exact hhead _ hmem (by simp [String.toList_append])

/-- The number of the placeholder of a variable: how many other variables appear before it. -/
def rank (values : List Term) (v : Var) : Nat := (firsts (varsIn values)).idxOf v

/-- Reification puts the placeholder of its rank in the place of each variable. -/
theorem reifyAll_eq_map (values : List Term) :
    reifyAll values = values.map (bind fun v => placeholder (rank values v)) := by
  rw [reifyAll, bindAll_eq_map]
  rfl

/-- **Different open variables have different placeholders.** -/
theorem placeholder_rank_inj {values : List Term} {v w : Var} (hv : v ∈ varsIn values)
    (h : placeholder (rank values v) = placeholder (rank values w)) : v = w := by
  have hrank : rank values v = rank values w := placeholder_inj.mp h
  exact (List.idxOf_inj (mem_firsts.mpr hv)).mp hrank

/-! ### Atoms -/

/-- An atom that is no reserved constant occurs where it is a pattern variable. -/
theorem occurs_atom_iff {x : String} (hx : isKeyword x = false) {t : Term} :
    occurs (.atom x) t ↔ x ∈ t.patternNames := by
  induction t using Term.walk with
  | atom s =>
      by_cases hs : isKeyword s
      · have hne : x ≠ s := by
          rintro rfl
          simp [hx] at hs
        simp [occurs, same, patternNames, hs, hne]
      · simp [occurs, same, patternNames, hs]
  | app op args ih =>
      rw [occurs, occursIn_eq_any, mem_patternNames_app]
      simp only [same, Bool.false_or, List.any_eq_true]
      exact exists_congr fun a => and_congr_right fun ha => ih a ha
  | group items ih =>
      rw [occurs, occursIn_eq_any, mem_patternNames_group]
      simp only [same, Bool.false_or, List.any_eq_true]
      exact exists_congr fun a => and_congr_right fun ha => ih a ha
  | _ => simp [occurs, same, patternNames]

end Term

namespace Call

/-- Does the term occur in an expression that an argument of the call stands for? -/
def supplies (call : Call) (u : Term) : Bool :=
  call.args.any fun a => match a.normalize with
    | .ok t => Term.occurs u t
    | .error _ => false

/-- What occurs in the expression of an argument is supplied. -/
theorem supplies_of_occurs {call : Call} {u a t : Term} (ha : a ∈ call.args)
    (hnorm : a.normalize = .ok t) (h : Term.occurs u t) : call.supplies u :=
  List.any_eq_true.mpr ⟨a, ha, by simpa [hnorm] using h⟩

end Call

namespace Catalogue

variable {c : Catalogue} {call : Call} {serial : Int} {unknowns : List Var} {σ : Bindings}
  {e : Entry} {args : List Term}

/-- Every atom of the solution is supplied by the call. -/
theorem Solution.supplies_of_mem_patternNames (h : c.Solution call serial unknowns σ e args)
    {v : Var} {x : String} (hx : x ∈ (σ.image v).patternNames) : call.supplies (.atom x) := by
  obtain ⟨a, ha, t, hnorm, hxt⟩ := h.exists_arg_of_mem_patternNames hx
  have hkey := Term.isKeyword_of_mem_patternNames hxt
  exact Call.supplies_of_occurs ha hnorm ((Term.occurs_atom_iff hkey).mpr hxt)

/-- **Placeholders that the arguments do not hold stand for open variables only.** Take a
catalogue of accepted rules without logic variables and a call without them that is answered.
The answer shows the values of the solution with the placeholder of its rank for every open
variable, and different open variables have different placeholders. A placeholder that the
arguments do not supply occurs in none of the values. And renaming atoms that the arguments do
not supply in the answer is replacing the open variables in the values. -/
theorem placeholder_apart_of_not_supplied (c : Catalogue)
    (hc : c.Holds fun r => r.Accepted ∧ r.IsVarFree) (call : Call)
    (hfree : ∀ a ∈ call.args, a.isVarFree) (serial : Int) (answer : Answer)
    (h : c.apply call serial = .ok answer) :
    ∃ unknowns σ values, c.attempt call serial = .ok (unknowns, .solved σ) ∧
      values = unknowns.map (fun v => σ.apply (.var v)) ∧
      answer.toList = values.map (Term.bind fun v => .placeholder (Term.rank values v)) ∧
      (∀ v ∈ Term.varsIn values, ∀ w ∈ Term.varsIn values,
        Term.placeholder (Term.rank values v) = .placeholder (Term.rank values w) → v = w) ∧
      (∀ n, call.supplies (.placeholder n) = false →
        ∀ value ∈ values, Term.occurs (.placeholder n) value = false) ∧
      ∀ ρ : String → Term, (∀ x, call.supplies (.atom x) → ρ x = .atom x) →
        answer.toList.map (Term.fill ρ) =
          values.map (Term.bind fun v => (Term.placeholder (Term.rank values v)).fill ρ) := by
  obtain ⟨unknowns, σ, hattempt, rfl⟩ := apply_eq_ok_iff.mp h
  obtain ⟨e, args, hsol⟩ := exists_solution hc hfree hattempt
  refine ⟨unknowns, σ, _, hattempt, rfl, ?_, ?_, ?_, ?_⟩
  · rw [Answer.toList_ofValues, Term.reifyAll_eq_map]
  · exact fun v hv w _ heq => Term.placeholder_rank_inj hv heq
  · intro n hn value hvalue
    obtain ⟨v, -, rfl⟩ := List.mem_map.mp hvalue
    by_contra hoccurs
    have hmem := (Term.occurs_atom_iff (Term.isKeyword_placeholder n)).mp
      (Bool.eq_true_of_not_eq_false hoccurs)
    have hsupplied := hsol.supplies_of_mem_patternNames hmem
    exact Bool.false_ne_true (hn.symm.trans hsupplied)
  · intro ρ hρ
    rw [Answer.toList_ofValues, Term.reifyAll_eq_map, List.map_map]
    refine List.map_congr_left fun value hvalue => ?_
    obtain ⟨v, -, rfl⟩ := List.mem_map.mp hvalue
    exact Term.fill_bind (fun x hx => hρ x (hsol.supplies_of_mem_patternNames hx)) _

/-- The rule from `A` to `(or A B)` used forward on `P`, with the answer `(or P _0)`: the
placeholder is not supplied, so it occurs in no value, and writing `Q` for it is replacing an open
variable by `Q`. -/
theorem placeholder_apart_of_not_supplied_weakening :
    weakening.apply ⟨.atom "or-i1", [.atom "P", .wildcard], some .forward, none⟩ 1 =
      .ok (.value (.ofName "or" [.atom "P", .atom "_0"])) ∧
    ∃ unknowns σ values, weakening.attempt
        ⟨.atom "or-i1", [.atom "P", .wildcard], some .forward, none⟩ 1 =
        .ok (unknowns, .solved σ) ∧
      values = unknowns.map (fun v => σ.apply (.var v)) ∧
      (∀ value ∈ values, Term.occurs (.placeholder 0) value = false) ∧
      [Term.ofName "or" [.atom "P", .atom "Q"]] =
        values.map (Term.bind fun v => (Term.placeholder (Term.rank values v)).fill
          fun x => if x = "_0" then .atom "Q" else .atom x) := by
  have happly : weakening.apply ⟨.atom "or-i1", [.atom "P", .wildcard], some .forward, none⟩ 1 =
      .ok (.value (.ofName "or" [.atom "P", .atom "_0"])) := rfl
  have hholds : weakening.Holds fun r => r.Accepted ∧ r.IsVarFree :=
    .register (.empty .empty false)
      ⟨Rule.accepted_of_isExpr (by decide) (by decide), by decide⟩ rfl
  obtain ⟨unknowns, σ, values, hattempt, hvalues, -, -, hfresh, hrename⟩ :=
    placeholder_apart_of_not_supplied weakening hholds _ (by decide) 1 _ happly
  refine ⟨happly, unknowns, σ, values, hattempt, hvalues, hfresh 0 rfl, ?_⟩
  refine hrename (fun x => if x = "_0" then .atom "Q" else .atom x) fun x hx => if_neg ?_
  rintro rfl
  exact absurd hx (by decide)

/-- **A supplied placeholder is used again.** The same rule used forward on `(or P _0)`, the
answer of an earlier use: the open variable of the value and the atom `_0` of the argument are
one atom in the answer. -/
theorem supplied_placeholder_reused :
    weakening.apply ⟨.atom "or-i1", [.ofName "or" [.atom "P", .atom "_0"], .wildcard],
        some .forward, none⟩ 1 =
      .ok (.value (.ofName "or" [.ofName "or" [.atom "P", .atom "_0"], .atom "_0"])) ∧
    ∃ unknowns σ v, weakening.attempt ⟨.atom "or-i1",
        [.ofName "or" [.atom "P", .atom "_0"], .wildcard], some .forward, none⟩ 1 =
        .ok (unknowns, .solved σ) ∧
      unknowns.map (fun w => σ.apply (.var w)) =
        [.ofName "or" [.ofName "or" [.atom "P", .atom "_0"], .var v]] :=
  ⟨rfl, _, _, _, rfl, rfl⟩

end Catalogue

end Deduction
