import Deduction.Proofs.Runs

/-!
# Compiled rules

The relation of a rule says of its parameters what the templates of the rule say, in the form of
equalities between generated names and templates. Values that fit the relation always make the
parameters an instance of the templates. For the converse the generated names must not get in
the way of each other or of the pattern variables: the rule has to be *hygienic*. Then the
values of the pattern variables extend to values of all names.

## Main definitions

* `Rule.inputEqualities`, `Rule.outputEqualities`: generated names with their templates.
* `Rule.generatedNames`, `Rule.Hygienic`: the names that compilation makes up, and that they
  are names of their own.
* `Rule.assign`: values of the pattern variables extended to the generated names.

## Main results

* `Rule.Accepted.scoped`, `Rule.Accepted.wellScoped`: the relations of accepted rules mention
  slots only.
* `Rule.eq_map_fill_of_fits`: what fits the relation is an instance of the templates.
* `Rule.Hygienic.fits_assign`: of a hygienic rule every instance of the templates fits.
-/

namespace Deduction

namespace Rule

/-! ### Goals and parameters -/

/-- The generated names of input templates with the templates, the first one in position
`n`. -/
def inputEqualities : Nat → List Term → List (String × Term)
  | _, [] => []
  | n, t :: ts =>
    if t.isPatternVariable then inputEqualities (n + 1) ts
    else (aliasFor n t, t) :: inputEqualities (n + 1) ts

/-- The generated names of conclusions with the conclusions, the first one in position `n`. -/
def outputEqualities : Nat → List Term → List (String × Term)
  | _, [] => []
  | n, t :: ts => (outputParam n, t) :: outputEqualities (n + 1) ts

theorem inputGoals_eq_map (n : Nat) (ts : List Term) :
    inputGoals n ts = (inputEqualities n ts).map fun p => .unify p.1 p.2 := by
  induction ts generalizing n with
  | nil => rfl
  | cons t ts ih => by_cases ht : t.isPatternVariable <;> simp [inputGoals, inputEqualities, ht, ih]

theorem outputGoals_eq_map (n : Nat) (ts : List Term) :
    outputGoals n ts = (outputEqualities n ts).map fun p => .unify p.1 p.2 := by
  induction ts generalizing n with
  | nil => rfl
  | cons t ts ih => simp [outputGoals, outputEqualities, ih]

/-- The equalities of a compiled rule. -/
theorem equalities_compile (r : Rule) :
    r.compile.equalities = inputEqualities 1 r.inputs ++ outputEqualities 1 r.conclusion := by
  simp [Relation.equalities, compile, inputGoals_eq_map, outputGoals_eq_map,
    List.filterMap_append, List.filterMap_map]

/-- The checks of a compiled rule are its side conditions. -/
theorem checks_compile (r : Rule) : r.compile.checks = r.checks := by
  simp [Relation.checks, compile, inputGoals_eq_map, outputGoals_eq_map,
    List.filterMap_append, List.filterMap_map]

/-- A template that is no pattern variable gets a generated name. -/
theorem paramOf_of_not_isPatternVariable {n : Nat} {t : Term}
    (ht : ¬ t.isPatternVariable) : paramOf n t = aliasFor n t := by
  cases t with
  | atom s =>
      have hs : Term.isKeyword s := by simpa [Term.isPatternVariable] using ht
      rw [paramOf, if_pos hs]
  | _ => rfl

/-- The input equalities by position. -/
theorem mem_inputEqualities {n : Nat} {ts : List Term} {x : String} {t : Term} :
    (x, t) ∈ inputEqualities n ts ↔
      ∃ k, ts[k]? = some t ∧ ¬ t.isPatternVariable ∧ x = aliasFor (n + k) t := by
  induction ts generalizing n with
  | nil => simp [inputEqualities]
  | cons u ts ih =>
      rw [← Nat.or_exists_add_one]
      by_cases hu : u.isPatternVariable
      · rw [inputEqualities, if_pos hu, ih]
        simp only [List.getElem?_cons_zero, List.getElem?_cons_succ, Option.some.injEq]
        refine ⟨fun ⟨k, hk, ht, hx⟩ => .inr ⟨k, hk, ht, ?_⟩, ?_⟩
        · rw [hx, Nat.add_right_comm, Nat.add_assoc]
        · rintro (⟨rfl, ht, -⟩ | ⟨k, hk, ht, hx⟩)
          · exact absurd hu ht
          · exact ⟨k, hk, ht, by rw [hx, Nat.add_right_comm, Nat.add_assoc]⟩
      · rw [inputEqualities, if_neg hu, List.mem_cons, ih]
        simp only [List.getElem?_cons_zero, List.getElem?_cons_succ, Option.some.injEq,
          Prod.mk.injEq, Nat.add_zero]
        refine or_congr ⟨?_, ?_⟩ (exists_congr fun k => ?_)
        · rintro ⟨rfl, rfl⟩
          exact ⟨rfl, hu, rfl⟩
        · rintro ⟨rfl, -, rfl⟩
          exact ⟨rfl, rfl⟩
        · rw [Nat.add_right_comm, Nat.add_assoc]

/-- The output equalities by position. -/
theorem mem_outputEqualities {n : Nat} {ts : List Term} {x : String} {t : Term} :
    (x, t) ∈ outputEqualities n ts ↔ ∃ k, ts[k]? = some t ∧ x = outputParam (n + k) := by
  induction ts generalizing n with
  | nil => simp [outputEqualities]
  | cons u ts ih =>
      rw [← Nat.or_exists_add_one, outputEqualities, List.mem_cons, ih]
      simp only [List.getElem?_cons_zero, List.getElem?_cons_succ, Option.some.injEq,
        Prod.mk.injEq, Nat.add_zero]
      refine or_congr ⟨?_, ?_⟩ (exists_congr fun k => ?_)
      · rintro ⟨rfl, rfl⟩
        exact ⟨rfl, rfl⟩
      · rintro ⟨rfl, rfl⟩
        exact ⟨rfl, rfl⟩
      · rw [Nat.add_right_comm, Nat.add_assoc]

/-- The input parameters by position. -/
theorem getElem?_inputParams (n k : Nat) (ts : List Term) :
    (inputParams n ts)[k]? = ts[k]?.map (paramOf (n + k)) := by
  induction ts generalizing n k with
  | nil => rfl
  | cons t ts ih =>
      cases k with
      | zero => rfl
      | succ k => simp [inputParams, ih, Nat.add_right_comm, Nat.add_assoc]

/-- The output parameters by position. -/
theorem getElem?_outputParams (n k : Nat) (ts : List Term) :
    (outputParams n ts)[k]? = ts[k]?.map fun _ => outputParam (n + k) := by
  induction ts generalizing n k with
  | nil => rfl
  | cons t ts ih =>
      cases k with
      | zero => rfl
      | succ k => simp [outputParams, ih, Nat.add_right_comm, Nat.add_assoc]

@[simp] theorem length_inputParams (n : Nat) (ts : List Term) :
    (inputParams n ts).length = ts.length := by
  induction ts generalizing n with
  | nil => rfl
  | cons t ts ih => simp [inputParams, ih]

@[simp] theorem length_outputParams (n : Nat) (ts : List Term) :
    (outputParams n ts).length = ts.length := by
  induction ts generalizing n with
  | nil => rfl
  | cons t ts ih => simp [outputParams, ih]

/-- A compiled rule has one parameter for every slot of the rule. -/
theorem arity_compile (r : Rule) : r.compile.arity = r.arity := by
  simp [Relation.arity, compile, arity, inputs]

/-! ### Scope -/

/-- The name of an equality is a parameter, and its template is one of the rule. -/
theorem mem_params_of_mem_equalities {r : Rule} {p : String × Term}
    (hp : p ∈ r.compile.equalities) :
    p.1 ∈ r.compile.params ∧ p.2 ∈ r.inputs ++ r.conclusion := by
  obtain ⟨x, t⟩ := p
  rw [equalities_compile, List.mem_append] at hp
  rcases hp with hp | hp
  · obtain ⟨k, hk, ht, rfl⟩ := mem_inputEqualities.mp hp
    have hparam : (inputParams 1 r.inputs)[k]? = some (aliasFor (1 + k) t) := by
      rw [getElem?_inputParams, hk, Option.map_some, paramOf_of_not_isPatternVariable ht]
    exact ⟨List.mem_append_left _ (List.mem_of_getElem? hparam),
      List.mem_append_left _ (List.mem_of_getElem? hk)⟩
  · obtain ⟨k, hk, rfl⟩ := mem_outputEqualities.mp hp
    have hparam : (outputParams 1 r.conclusion)[k]? = some (outputParam (1 + k)) := by
      rw [getElem?_outputParams, hk, Option.map_some]
    exact ⟨List.mem_append_right _ (List.mem_of_getElem? hparam),
      List.mem_append_right _ (List.mem_of_getElem? hk)⟩

/-- The goals hold templates of the rule only. -/
theorem mem_templatesOf_of_mem_goals {r : Rule} {t : Term}
    (ht : t ∈ r.compile.equalities.map Prod.snd ++ r.compile.checks) : t ∈ r.templatesOf := by
  rcases List.mem_append.mp ht with ht | ht
  · obtain ⟨p, hp, rfl⟩ := List.mem_map.mp ht
    exact List.mem_append_left _ (mem_params_of_mem_equalities hp).2
  · rw [checks_compile] at ht
    exact List.mem_append_right _ ht

/-- The pattern variables of a template are among those of the rule. -/
theorem mem_patternNamesIn {ts : List Term} {t : Term} (ht : t ∈ ts) {x : String}
    (hx : x ∈ t.patternNames) : x ∈ Term.patternNamesIn ts := by
  rw [Term.patternNamesIn_eq_flatMap]
  exact List.mem_flatMap.mpr ⟨t, ht, hx⟩

/-- The pattern variables of some templates are among those of more templates. -/
theorem mem_patternNamesIn_of_subset {ts us : List Term} (h : ts ⊆ us) {x : String}
    (hx : x ∈ Term.patternNamesIn ts) : x ∈ Term.patternNamesIn us := by
  rw [Term.patternNamesIn_eq_flatMap] at hx
  obtain ⟨t, ht, hxt⟩ := List.mem_flatMap.mp hx
  exact mem_patternNamesIn (h ht) hxt

/-- Every pattern variable of the rule is a slot of its relation. -/
theorem mem_slots_of_mem_patternNamesIn {r : Rule} {x : String}
    (hx : x ∈ Term.patternNamesIn r.templatesOf) : x ∈ r.compile.slots := by
  by_cases hparam : x ∈ inputParams 1 r.inputs
  · exact List.mem_append_left _ (List.mem_append_left _ hparam)
  · refine List.mem_append_right _ (mem_firsts.mpr (List.mem_filter.mpr ⟨hx, ?_⟩))
    simpa using hparam

/-- **The relation of an accepted rule mentions slots only.** -/
theorem Accepted.scoped {r : Rule} (hr : r.Accepted) : r.compile.Scoped where
  slot_mem _ hp := List.mem_append_left _ (mem_params_of_mem_equalities hp).1
  isExpr t ht := hr.isExpr t (mem_templatesOf_of_mem_goals ht)
  names_mem _ ht _ hx := mem_slots_of_mem_patternNamesIn
    (mem_patternNamesIn (mem_templatesOf_of_mem_goals ht) hx)

/-- The relation of an accepted rule without logic variables is well-scoped. -/
theorem Accepted.wellScoped {r : Rule} (hr : r.Accepted) (hv : r.IsVarFree) :
    r.compile.WellScoped where
  toScoped := hr.scoped
  isGround t ht := hv t (mem_templatesOf_of_mem_goals ht)

/-! ### Instances -/

/-- Values that satisfy the input equalities make the input parameters instances of the
templates: a pattern variable is its own parameter. -/
theorem map_inputParams {α : String → Term} {n : Nat} {ts : List Term}
    (h : ∀ p ∈ inputEqualities n ts, α p.1 = p.2.fill α) :
    (inputParams n ts).map α = ts.map (Term.fill α) := by
  induction ts generalizing n with
  | nil => rfl
  | cons t ts ih =>
      rw [inputEqualities] at h
      by_cases ht : t.isPatternVariable
      · rw [if_pos ht] at h
        cases t with
        | atom s =>
            have hs : ¬ Term.isKeyword s := by simpa [Term.isPatternVariable] using ht
            rw [inputParams, List.map_cons, List.map_cons, ih h, paramOf, if_neg hs, Term.fill,
              if_neg hs]
        | _ => simp [Term.isPatternVariable] at ht
      · rw [if_neg ht, List.forall_mem_cons] at h
        rw [inputParams, List.map_cons, List.map_cons, ih h.2,
          paramOf_of_not_isPatternVariable ht, h.1]

/-- Values that satisfy the output equalities make the output parameters instances of the
conclusions. -/
theorem map_outputParams {α : String → Term} {n : Nat} {ts : List Term}
    (h : ∀ p ∈ outputEqualities n ts, α p.1 = p.2.fill α) :
    (outputParams n ts).map α = ts.map (Term.fill α) := by
  induction ts generalizing n with
  | nil => rfl
  | cons t ts ih =>
      rw [outputEqualities, List.forall_mem_cons] at h
      rw [outputParams, List.map_cons, List.map_cons, ih h.2, h.1]

/-- The same of all parameters. -/
theorem map_params_compile {r : Rule} {α : String → Term}
    (h : ∀ p ∈ r.compile.equalities, α p.1 = p.2.fill α) :
    r.compile.params.map α = (r.inputs ++ r.conclusion).map (Term.fill α) := by
  rw [equalities_compile, List.forall_mem_append] at h
  rw [compile, List.map_append, List.map_append, map_inputParams h.1, map_outputParams h.2]

/-- **What fits the relation of a rule is an instance of its templates.** -/
theorem eq_map_fill_of_fits {r : Rule} {α : String → Term} {values : List Term}
    (h : r.compile.Fits α values) : values = (r.inputs ++ r.conclusion).map (Term.fill α) := by
  rw [← h.1, map_params_compile h.2]

/-- The names that compilation makes up. -/
def generatedNames (r : Rule) : List String := r.compile.equalities.map Prod.fst

/-- The generated names are pairwise distinct, and none of them is a pattern variable of the
rule. -/
def Hygienic (r : Rule) : Prop :=
  r.generatedNames.Nodup ∧ ∀ x ∈ r.generatedNames, x ∉ Term.patternNamesIn r.templatesOf

instance (r : Rule) : Decidable r.Hygienic := inferInstanceAs (Decidable (_ ∧ _))

/-- Values of the pattern variables, extended to the generated names. -/
def assign (r : Rule) (α : String → Term) (x : String) : Term :=
  match r.compile.equalities.find? (·.1 == x) with
  | some p => p.2.fill α
  | none => α x

/-- The pattern variables of a hygienic rule keep their values. -/
theorem Hygienic.assign_of_mem {r : Rule} (hr : r.Hygienic) (α : String → Term) {x : String}
    (hx : x ∈ Term.patternNamesIn r.templatesOf) : r.assign α x = α x := by
  have hnone : r.compile.equalities.find? (·.1 == x) = none := by
    rw [List.find?_eq_none]
    intro p hp heq
    exact hr.2 p.1 (List.mem_map_of_mem hp) (by simpa [beq_iff_eq.mp heq] using hx)
  rw [assign, hnone]

/-- The generated names of a hygienic rule get the instances of their templates. -/
theorem Hygienic.assign_of_equality {r : Rule} (hr : r.Hygienic) (α : String → Term)
    {p : String × Term} (hp : p ∈ r.compile.equalities) : r.assign α p.1 = p.2.fill α := by
  have hsome : ∃ q, r.compile.equalities.find? (·.1 == p.1) = some q := by
    rw [← Option.isSome_iff_exists, List.find?_isSome]
    exact ⟨p, hp, by simp⟩
  obtain ⟨q, hq⟩ := hsome
  have hqp : q.1 = p.1 := by simpa using List.find?_some hq
  obtain rfl := List.inj_on_of_nodup_map hr.1 (List.mem_of_find?_eq_some hq) hp hqp
  rw [assign, hq]

/-- The extended values instantiate the templates as the values do. -/
theorem Hygienic.fill_assign {r : Rule} (hr : r.Hygienic) (α : String → Term) {t : Term}
    (ht : t ∈ r.templatesOf) : t.fill (r.assign α) = t.fill α :=
  Term.fill_congr fun _ hx => hr.assign_of_mem α (mem_patternNamesIn ht hx)

/-- **Every instance of the templates of a hygienic rule fits its relation.** -/
theorem Hygienic.fits_assign {r : Rule} (hr : r.Hygienic) (α : String → Term) :
    r.compile.Fits (r.assign α) ((r.inputs ++ r.conclusion).map (Term.fill α)) := by
  have hgoals : ∀ p ∈ r.compile.equalities, r.assign α p.1 = p.2.fill (r.assign α) := by
    intro p hp
    have ht : p.2 ∈ r.templatesOf :=
      List.mem_append_left _ (mem_params_of_mem_equalities hp).2
    rw [hr.assign_of_equality α hp, hr.fill_assign α ht]
  refine ⟨?_, hgoals⟩
  rw [map_params_compile hgoals]
  exact List.map_congr_left fun t ht => hr.fill_assign α (List.mem_append_left _ ht)

/-- Expressions as values extend to expressions. -/
theorem Accepted.isExpr_assign {r : Rule} (hr : r.Accepted) {α : String → Term}
    (hα : ∀ x, (α x).isExpr) (x : String) : (r.assign α x).isExpr := by
  rw [assign]
  split
  · rename_i p hp
    have hmem := (mem_params_of_mem_equalities (List.mem_of_find?_eq_some hp)).2
    exact Term.isExpr_fill (hr.isExpr _ (List.mem_append_left _ hmem)) hα
  · exact hα x

end Rule

end Deduction
