import Deduction.Proofs.Serials

/-!
# Names of pattern variables

What pattern variables are called does not matter. The names of a rule go into the parameters of
its relation, into its local names and into the slot variables of every run, next to the names that
compilation makes up. We follow them through compilation: as long as made-up names and pattern
variables do not meet, before and after, one permutation of all names takes the relation of the
rule to that of the renamed rule. It keeps the order of the slots, so the two runs of a call differ
by a renaming of variables, and runs commute with that.

## Main definitions

* `Rule.mapNames`: the rule with other pattern variables.

## Main results

* `Rule.forwardShape_mapNames`, `Rule.backwardShape_mapNames`: call shapes look at operators only.
* `Rule.compile_mapNames`: compilation commutes with renaming.
* `Rule.Hygienic.exists_perm_names`: the permutation of all names.
* `Rule.Hygienic.exists_compile_eq`: the relation of a renamed rule.
* `Catalogue.apply_eq_of_mapNames`: a renamed rule gives the same answers.
-/

namespace Deduction

/-! ### Templates with other names -/

namespace Term

variable {f : String → String}

/-- The pattern variables of a template with other names. -/
theorem patternNames_mapNames {t : Term}
    (hkey : ∀ x ∈ t.patternNames, isKeyword (f x) = false) :
    (t.mapNames f).patternNames = t.patternNames.map f := by
  induction t using Term.walk with
  | atom s =>
      by_cases hs : isKeyword s
      · simp [mapNames, fill, patternNames, hs]
      · have hfs : isKeyword (f s) = false := hkey s (by simp [patternNames, hs])
        simp [mapNames, fill, patternNames, hs, hfs]
  | app op args ih =>
      simp only [mapNames, fill, fillAll_eq_map, patternNames, patternNamesIn_eq_flatMap,
        List.flatMap_map, List.map_flatMap]
      exact List.flatMap_congr fun a ha =>
        ih a ha fun x hx => hkey x (mem_patternNames_app.mpr ⟨a, ha, hx⟩)
  | group items ih =>
      simp only [mapNames, fill, fillAll_eq_map, patternNames, patternNamesIn_eq_flatMap,
        List.flatMap_map, List.map_flatMap]
      exact List.flatMap_congr fun a ha =>
        ih a ha fun x hx => hkey x (mem_patternNames_group.mpr ⟨a, ha, hx⟩)
  | _ => rfl

theorem patternNamesIn_mapNames {ts : List Term}
    (hkey : ∀ x ∈ patternNamesIn ts, isKeyword (f x) = false) :
    patternNamesIn (ts.map (mapNames f)) = (patternNamesIn ts).map f := by
  simp only [patternNamesIn_eq_flatMap, List.flatMap_map, List.map_flatMap, List.mem_flatMap,
    forall_exists_index, and_imp] at hkey ⊢
  exact List.flatMap_congr fun t ht => patternNames_mapNames fun x hx => hkey x t ht hx

/-- A pattern variable stays one. -/
theorem isPatternVariable_mapNames {t : Term}
    (hkey : ∀ x ∈ t.patternNames, isKeyword (f x) = false) :
    (t.mapNames f).isPatternVariable = t.isPatternVariable := by
  cases t with
  | atom s =>
      by_cases hs : isKeyword s
      · simp [mapNames, fill, hs]
      · have hfs : isKeyword (f s) = false := hkey s (by simp [patternNames, hs])
        simp [mapNames, fill, isPatternVariable, hs, hfs]
  | _ => rfl

/-- The mark of a template is its operator's. -/
@[simp] theorem marker_mapNames (t : Term) : (t.mapNames f).marker = t.marker := by
  cases t with
  | atom s => by_cases hs : isKeyword s <;> simp [mapNames, fill, hs, marker, operator?]
  | _ => rfl

/-- A search through several terms looks at them one by one. -/
theorem scanIn_map_of_forall {op : String} {F : Term → Term} {ts : List Term}
    (h : ∀ t ∈ ts, scan op (F t) = scan op t) : scanIn op (ts.map F) = scanIn op ts := by
  induction ts with
  | nil => rfl
  | cons t ts ih =>
      rw [List.forall_mem_cons] at h
      rw [List.map_cons, scanIn, scanIn, h.1, ih h.2]

/-- A search for an operator passes over pattern variables. -/
theorem scan_mapNames (op : String) (t : Term) : scan op (t.mapNames f) = scan op t := by
  induction t using Term.walk with
  | atom s => by_cases hs : isKeyword s <;> simp [mapNames, fill, hs, scan]
  | app head args ih =>
      have hargs : scanIn op (args.map (mapNames f)) = scanIn op args := scanIn_map_of_forall ih
      rw [mapNames, fill, fillAll_eq_map, scan, scan]
      exact congrArg (fun result => if head.isAtom op then Scan.found else result) hargs
  | group items ih =>
      rw [mapNames, fill, fillAll_eq_map, scan, scan]
      exact scanIn_map_of_forall ih
  | _ => rfl

end Term

/-! ### Rules with other names -/

namespace Rule

/-- The rule with its pattern variables renamed, in all fields. -/
def mapNames (f : String → String) (r : Rule) : Rule where
  id := r.id
  given := r.given.map (Term.mapNames f)
  extra := r.extra.map (Term.mapNames f)
  conclusion := r.conclusion.map (Term.mapNames f)
  prereq := r.prereq.map (List.map (Term.mapNames f))

variable {f g : String → String} (r : Rule)

@[simp] theorem inputs_mapNames : (r.mapNames f).inputs = r.inputs.map (Term.mapNames f) := by
  simp [inputs, mapNames]

@[simp] theorem checks_mapNames : (r.mapNames f).checks = r.checks.map (Term.mapNames f) := by
  cases h : r.prereq <;> simp [checks, mapNames, h]

@[simp] theorem templatesOf_mapNames :
    (r.mapNames f).templatesOf = r.templatesOf.map (Term.mapNames f) := by
  rw [templatesOf, inputs_mapNames, checks_mapNames, templatesOf, List.map_append,
    List.map_append]
  rfl

theorem map_marker_mapNames :
    (r.mapNames f).given.map Term.marker = r.given.map Term.marker := by
  rw [mapNames, List.map_map]
  exact List.map_congr_left fun t _ => Term.marker_mapNames t

/-- **The shape of a forward call** does not depend on names. -/
theorem forwardShape_mapNames : (r.mapNames f).forwardShape = r.forwardShape := by
  rw [forwardShape, map_marker_mapNames, forwardShape, mapNames, List.length_map, List.length_map]

/-- **The shape of a backward call** does not depend on names. -/
theorem backwardShape_mapNames : (r.mapNames f).backwardShape = r.backwardShape := by
  have hscan : Term.scanIn Marker.substitution.name (r.conclusion.map (Term.mapNames f)) =
      Term.scanIn Marker.substitution.name r.conclusion :=
    Term.scanIn_map_of_forall fun t _ => Term.scan_mapNames _ t
  rw [backwardShape, map_marker_mapNames, backwardShape, mapNames, List.length_map,
    List.length_map, hscan]

variable {r}

/-- Only the new names of the pattern variables matter. -/
theorem mapNames_congr (h : ∀ x ∈ Term.patternNamesIn r.templatesOf, f x = g x) :
    r.mapNames f = r.mapNames g := by
  have hterm : ∀ t ∈ r.templatesOf, t.mapNames f = t.mapNames g := fun t ht =>
    Term.fill_congr fun x hx => congrArg Term.atom (h x (mem_patternNamesIn ht hx))
  simp only [templatesOf, inputs, List.forall_mem_append] at hterm
  obtain ⟨⟨⟨hgiven, hextra⟩, hconclusion⟩, hchecks⟩ := hterm
  have hprereq : r.prereq.map (List.map (Term.mapNames f)) =
      r.prereq.map (List.map (Term.mapNames g)) := by
    rw [checks] at hchecks
    cases hr : r.prereq with
    | none => rfl
    | some ts =>
        rw [hr] at hchecks
        exact congrArg some (List.map_congr_left hchecks)
  rw [mapNames, mapNames, List.map_congr_left hgiven, List.map_congr_left hextra,
    List.map_congr_left hconclusion, hprereq]

/-! ### Compilation -/

/-- Operators, reserved constants and groups give their names to parameters, not pattern
variables. -/
theorem aliasFor_mapNames (n : Nat) {t : Term} (ht : ¬ t.isPatternVariable) :
    aliasFor n (t.mapNames f) = aliasFor n t := by
  cases t with
  | atom s =>
      have hs : Term.isKeyword s := by simpa [Term.isPatternVariable] using ht
      rw [Term.mapNames, Term.fill, if_pos hs]
  | _ => rfl

theorem inputEqualities_mapNames {ts : List Term} (n : Nat)
    (hkey : ∀ x ∈ Term.patternNamesIn ts, Term.isKeyword (f x) = false) :
    inputEqualities n (ts.map (Term.mapNames f)) =
      (inputEqualities n ts).map fun p => (p.1, p.2.mapNames f) := by
  induction ts generalizing n with
  | nil => rfl
  | cons t ts ih =>
      simp only [Term.patternNamesIn, List.forall_mem_append] at hkey
      rw [List.map_cons, inputEqualities, inputEqualities,
        Term.isPatternVariable_mapNames hkey.1, ih (n + 1) hkey.2]
      by_cases ht : t.isPatternVariable
      · rw [if_pos ht, if_pos ht]
      · rw [if_neg ht, if_neg ht, aliasFor_mapNames n ht, List.map_cons]

theorem outputEqualities_mapNames (n : Nat) (ts : List Term) :
    outputEqualities n (ts.map (Term.mapNames f)) =
      (outputEqualities n ts).map fun p => (p.1, p.2.mapNames f) := by
  induction ts generalizing n with
  | nil => rfl
  | cons t ts ih => rw [List.map_cons, outputEqualities, outputEqualities, ih, List.map_cons]

/-- The parameters of inputs are pattern variables or made up. -/
theorem inputParams_mapNames {ts : List Term} (n : Nat)
    (hkey : ∀ x ∈ Term.patternNamesIn ts, Term.isKeyword (g x) = false)
    (hfix : ∀ p ∈ inputEqualities n ts, g p.1 = p.1) :
    inputParams n (ts.map (Term.mapNames g)) = (inputParams n ts).map g := by
  induction ts generalizing n with
  | nil => rfl
  | cons t ts ih =>
      simp only [Term.patternNamesIn, List.forall_mem_append] at hkey
      rw [inputEqualities] at hfix
      rw [List.map_cons, inputParams, inputParams, List.map_cons]
      by_cases ht : t.isPatternVariable
      · rw [if_pos ht] at hfix
        rw [ih (n + 1) hkey.2 hfix]
        cases t with
        | atom s =>
            have hs : Term.isKeyword s = false := by simpa [Term.isPatternVariable] using ht
            have hgs : Term.isKeyword (g s) = false := hkey.1 s (by simp [Term.patternNames, hs])
            simp [Term.mapNames, Term.fill, paramOf, hs, hgs]
        | _ => simp [Term.isPatternVariable] at ht
      · have ht' : ¬ (t.mapNames g).isPatternVariable := by
          rwa [Term.isPatternVariable_mapNames hkey.1]
        rw [if_neg ht, List.forall_mem_cons] at hfix
        rw [ih (n + 1) hkey.2 hfix.2, paramOf_of_not_isPatternVariable ht',
          paramOf_of_not_isPatternVariable ht, aliasFor_mapNames n ht, hfix.1]

theorem outputParams_mapNames {ts : List Term} (n : Nat)
    (hfix : ∀ p ∈ outputEqualities n ts, g p.1 = p.1) :
    outputParams n (ts.map (Term.mapNames g)) = (outputParams n ts).map g := by
  induction ts generalizing n with
  | nil => rfl
  | cons t ts ih =>
      rw [outputEqualities, List.forall_mem_cons] at hfix
      rw [List.map_cons, outputParams, outputParams, List.map_cons, ih (n + 1) hfix.2, hfix.1]

section

variable (hkey : ∀ x ∈ Term.patternNamesIn r.templatesOf, Term.isKeyword (f x) = false)
include hkey

theorem isKeyword_of_mem_inputs :
    ∀ x ∈ Term.patternNamesIn r.inputs, Term.isKeyword (f x) = false := fun x hx =>
  hkey x (mem_patternNamesIn_of_subset
    (fun _ ht => List.mem_append_left _ (List.mem_append_left _ ht)) hx)

/-- The equalities of a renamed rule have the same names. -/
theorem equalities_compile_mapNames :
    (r.mapNames f).compile.equalities =
      r.compile.equalities.map fun p => (p.1, p.2.mapNames f) := by
  rw [equalities_compile, equalities_compile, inputs_mapNames,
    inputEqualities_mapNames 1 (isKeyword_of_mem_inputs hkey), mapNames,
    outputEqualities_mapNames, List.map_append]

/-- **Compilation makes up the same names** for a renamed rule. -/
theorem generatedNames_mapNames : (r.mapNames f).generatedNames = r.generatedNames := by
  rw [generatedNames, equalities_compile_mapNames hkey, List.map_map]
  rfl

end

/-- **Compilation commutes with renaming** by a one-to-one map of all names that keeps the made-up
ones. -/
theorem compile_mapNames (hg : Function.Injective g)
    (hkey : ∀ x ∈ Term.patternNamesIn r.templatesOf, Term.isKeyword (g x) = false)
    (hfix : ∀ x ∈ r.generatedNames, g x = x) :
    (r.mapNames g).compile = r.compile.mapNames g := by
  have hfix' : ∀ p ∈ r.compile.equalities, g p.1 = p.1 := fun p hp =>
    hfix p.1 (List.mem_map_of_mem hp)
  rw [equalities_compile, List.forall_mem_append] at hfix'
  obtain ⟨hin, hout⟩ := hfix'
  have hkeyIn := isKeyword_of_mem_inputs hkey
  have hparams := inputParams_mapNames 1 hkeyIn hin
  simp only [compile, Relation.mapNames, Relation.mk.injEq, inputs_mapNames, checks_mapNames,
    templatesOf_mapNames, hparams, Term.patternNamesIn_mapNames hkey]
  refine ⟨rfl, ?_, ?_, ?_⟩
  · rw [List.map_append, mapNames, outputParams_mapNames 1 hout]
  · rw [List.filter_map, firsts_map hg]
    congr 2
    refine List.filter_congr fun x _ => ?_
    simp [hg.eq_iff]
  · rw [List.map_append, List.map_append, mapNames, inputGoals_eq_map, outputGoals_eq_map,
      inputGoals_eq_map, outputGoals_eq_map, inputEqualities_mapNames 1 hkeyIn,
      outputEqualities_mapNames, List.map_map, List.map_map, List.map_map, List.map_map,
      List.map_map, List.map_map]
    congr 2
    · exact List.map_congr_left fun p hp => by simp [Goal.mapNames, hin p hp]
    · exact List.map_congr_left fun p hp => by simp [Goal.mapNames, hout p hp]

section

variable (hr : r.Hygienic) (hr' : (r.mapNames f).Hygienic)
  (hinj : ∀ x ∈ Term.patternNamesIn r.templatesOf, ∀ y ∈ Term.patternNamesIn r.templatesOf,
    f x = f y → x = y)
  (hkey : ∀ x ∈ Term.patternNamesIn r.templatesOf, Term.isKeyword (f x) = false)

include hr hr' hinj hkey

/-- **The permutation of all names** that renames the pattern variables and keeps the made-up names.
There is one because these do not meet, neither before nor after. -/
theorem Hygienic.exists_perm_names :
    ∃ g : Equiv.Perm String, (∀ x ∈ Term.patternNamesIn r.templatesOf, f x = g x) ∧
      ∀ x ∈ r.generatedNames, g x = x := by
  rw [Hygienic, generatedNames_mapNames hkey, templatesOf_mapNames,
    Term.patternNamesIn_mapNames hkey] at hr'
  have hbefore : (firsts (Term.patternNamesIn r.templatesOf) ++ r.generatedNames).Nodup := by
    refine List.nodup_append.mpr ⟨nodup_firsts _, hr.1, fun x hx y hy heq => ?_⟩
    exact hr.2 y hy (heq ▸ mem_firsts.mp hx)
  have hafter : ((firsts (Term.patternNamesIn r.templatesOf)).map f ++ r.generatedNames).Nodup := by
    refine List.nodup_append.mpr ⟨?_, hr.1, fun x hx y hy heq => ?_⟩
    · refine List.Nodup.map_on (fun x hx y hy => ?_) (nodup_firsts _)
      exact hinj x (mem_firsts.mp hx) y (mem_firsts.mp hy)
    · obtain ⟨z, hz, rfl⟩ := List.mem_map.mp hx
      exact hr'.2 y hy (heq ▸ List.mem_map_of_mem (mem_firsts.mp hz))
  obtain ⟨g, hg⟩ := exists_perm_map_eq hbefore hafter (by simp)
  rw [List.map_append] at hg
  obtain ⟨hnames, hgenerated⟩ := List.append_inj hg (by simp)
  refine ⟨g, fun x hx => ?_, ?_⟩
  · exact (List.map_inj_left.mp hnames x (mem_firsts.mpr hx)).symm
  · exact List.map_inj_left.mp (hgenerated.trans (List.map_id' _).symm)

/-- **The relation of a renamed rule is the relation of the rule with other names.** -/
theorem Hygienic.exists_compile_eq :
    ∃ g : Equiv.Perm String, (r.mapNames f).compile = r.compile.mapNames g ∧
      ∀ t ∈ r.compile.equalities.map Prod.snd ++ r.compile.checks, ∀ x ∈ t.patternNames,
        Term.isKeyword (g x) = false := by
  obtain ⟨g, hagree, hfix⟩ := hr.exists_perm_names hr' hinj hkey
  have hkey' : ∀ x ∈ Term.patternNamesIn r.templatesOf, Term.isKeyword (g x) = false :=
    fun x hx => hagree x hx ▸ hkey x hx
  refine ⟨g, ?_, fun t ht x hx => ?_⟩
  · rw [mapNames_congr hagree]
    exact compile_mapNames g.injective hkey' hfix
  · exact hkey' x (mem_patternNamesIn (mem_templatesOf_of_mem_goals ht) hx)

end

end Rule

/-! ### Calls -/

namespace Catalogue

variable {c c' : Catalogue} {call : Call} {e e' : Entry}

/-- Rules of the same name, arity and shapes fit the same calls and refuse the others alike. -/
theorem entryFitting_eq_map (hlookup : c.lookup call.rule = .ok e)
    (hlookup' : c'.lookup call.rule = .ok e') (hid : e'.id = e.id)
    (harity : e'.relation.arity = e.relation.arity)
    (hshape : ∀ direction, e'.shape direction = e.shape direction) :
    c'.entryFitting call = (c.entryFitting call).map fun _ => e' := by
  rw [entryFitting, entryFitting, hlookup, hlookup']
  simp only [bind, Except.bind, hid, harity, hshape]
  cases call.direction with
  | none =>
      by_cases hlen : call.args.length = e.relation.arity
      · simp only [if_pos hlen]
        rfl
      · simp only [if_neg hlen]
        rfl
  | some direction =>
      simp only
      cases e.shape direction with
      | none => rfl
      | some slots =>
          by_cases hlen : call.args.length = slots.length
          · simp only [if_pos hlen]
            rfl
          · simp only [if_neg hlen]
            rfl

/-- So they accept the same calls, as whether a call can be written is up to its arguments. -/
theorem entryFor_eq_map (hlookup : c.lookup call.rule = .ok e)
    (hlookup' : c'.lookup call.rule = .ok e') (hid : e'.id = e.id)
    (harity : e'.relation.arity = e.relation.arity)
    (hshape : ∀ direction, e'.shape direction = e.shape direction) :
    c'.entryFor call = (c.entryFor call).map fun _ => e' := by
  rw [entryFor, entryFor, entryFitting_eq_map hlookup hlookup' hid harity hshape]
  cases c.entryFitting call with
  | error cause => rfl
  | ok e₀ => cases call.isWritable <;> rfl

/-- Two runs of a call that differ by a renaming of variables lead to the same answer, or to the
same error. -/
theorem apply_eq_of_run_rename {serial serial' : Int} {unknowns : List Var} {args args' : List Term}
    {ρ : Var → Var} (hρ : Function.Injective ρ) (hentry : c.entryFor call = .ok e)
    (hentry' : c'.entryFor call = .ok e')
    (hopen : Call.openArgs serial 0 call.args = .ok (unknowns, args))
    (hopen' : Call.openArgs serial' 0 call.args = .ok (unknowns.map ρ, args'))
    (hrun : e'.relation.run (c'.searchFor call serial' (unknowns.map ρ).length)
        (Call.relationOrder call.direction args') =
      (e.relation.run (c.searchFor call serial unknowns.length)
        (Call.relationOrder call.direction args)).map (Outcome.rename ρ)) :
    c'.apply call serial' = c.apply call serial := by
  rw [apply_of_openArgs hentry hopen, apply_of_openArgs hentry' hopen', hrun]
  cases e.relation.run (c.searchFor call serial unknowns.length)
      (Call.relationOrder call.direction args) with
  | error cause => rfl
  | ok outcome =>
      cases outcome with
      | solved σ =>
          simp only [Except.map, Outcome.rename, σ.map_apply_var_rename hρ,
            Term.reifyAll_rename hρ]
      | refuted => rfl
      | suspended waiting => rfl

/-- **What pattern variables are called does not matter.** Rename the pattern variables of a rule
without logic variables, one to one and not to reserved constants, such that made-up names and
pattern variables do not meet in either rule. Then both rules have the same call shapes. And in two
catalogues with the same predicates that hold the one and the other under its name, every call of
the rule without logic variables, in any direction and with any limit, has the same answer or fails
with the same error, whatever serials its variables start from. -/
theorem apply_eq_of_mapNames (r : Rule) (f : String → String) (hr : r.Accepted)
    (hr' : (r.mapNames f).Accepted) (hv : r.IsVarFree)
    (hinj : ∀ x ∈ Term.patternNamesIn r.templatesOf, ∀ y ∈ Term.patternNamesIn r.templatesOf,
      f x = f y → x = y)
    (hkey : ∀ x ∈ Term.patternNamesIn r.templatesOf, Term.isKeyword (f x) = false)
    (hhygienic : r.Hygienic) (hhygienic' : (r.mapNames f).Hygienic) :
    (r.mapNames f).forwardShape = r.forwardShape ∧
      (r.mapNames f).backwardShape = r.backwardShape ∧
      ∀ c c' : Catalogue, c'.predicates = c.predicates →
        ∀ call : Call, c.lookup call.rule = .ok (.ofRule r) →
          c'.lookup call.rule = .ok (.ofRule (r.mapNames f)) →
          (∀ a ∈ call.args, a.isVarFree) →
          ∀ serial serial', c'.apply call serial' = c.apply call serial := by
  refine ⟨r.forwardShape_mapNames, r.backwardShape_mapNames, ?_⟩
  intro c c' hpredicates call hlookup hlookup' hfree serial serial'
  obtain ⟨g, hcompile, hkeyGoals⟩ := hhygienic.exists_compile_eq hhygienic' hinj hkey
  have hentry' : c'.entryFor call = (c.entryFor call).map fun _ => .ofRule (r.mapNames f) := by
    refine entryFor_eq_map hlookup hlookup' rfl ?_ fun direction => ?_
    · rw [Entry.ofRule, hcompile, Relation.arity_mapNames, Entry.ofRule]
    · cases direction with
      | forward => exact r.forwardShape_mapNames
      | backward => exact r.backwardShape_mapNames
  cases hentry : c.entryFor call with
  | error cause =>
      rw [hentry] at hentry'
      rw [apply_of_entryFor_eq_error hentry, apply_of_entryFor_eq_error hentry']
  | ok e =>
      obtain rfl : .ofRule r = e := Except.ok.inj (hlookup.symm.trans (lookup_of_entryFor hentry))
      rw [hentry] at hentry'
      cases hopen : Call.openArgs serial 0 call.args with
      | error cause =>
          have hopen' := (Call.openArgs_eq_error_iff_of_serial serial serial' 0 0 _ _).mp hopen
          rw [apply_of_openArgs_eq_error hentry hopen, apply_of_openArgs_eq_error hentry' hopen']
      | ok opened =>
          obtain ⟨unknowns, args⟩ := opened
          have hslotCount : r.compile.slots.length = (r.compile.slots.map g).length := by simp
          obtain ⟨unknowns', args', ρ, hopen', rfl, hslots, rfl⟩ :=
            Call.exists_perm_of_names hfree hopen serial' hslotCount
          refine apply_eq_of_run_rename ρ.injective hentry hentry' hopen hopen' ?_
          have hscoped : (r.compile.mapNames g).Scoped := hcompile ▸ hr'.scoped
          have hrun := (hr.wellScoped hv).run_mapNames hscoped g.injective hkeyGoals ρ.injective
            (c.searchFor call serial unknowns.length) hslots
            (Call.relationOrder call.direction args)
          rw [Call.map_relationOrder, ← hcompile] at hrun
          rw [searchFor, hpredicates]
          exact hrun

/-- The rule from `A` to `(or B A)` for simple `A`. -/
def simpleOr : Rule :=
  ⟨"or-i2", [.atom "A"], [], [.ofName "or" [.atom "B", .atom "A"]],
    some [.ofName "simple" [.atom "A"]]⟩

/-- The exchange of the names `A` and `B`. -/
def exchange (x : String) : String := if x = "A" then "B" else if x = "B" then "A" else x

/-- The catalogue that holds the rule with its two names exchanged. -/
def exchanged : Catalogue :=
  ⟨[.ofRule (simpleOr.mapNames exchange)], simpleDisjunction.predicates, false⟩

/-- The rule with its two names exchanged: it too answers with what is open in front, and it too
fails where the predicate breaks down. -/
theorem apply_eq_of_mapNames_exchange :
    simpleOr.mapNames exchange = ⟨"or-i2", [.atom "B"], [],
        [.ofName "or" [.atom "A", .atom "B"]], some [.ofName "simple" [.atom "B"]]⟩ ∧
      exchanged.apply (simpleDisjunctionCall (.atom "P")) 70 =
        .ok (.value (.ofName "or" [.atom "_0", .atom "P"])) ∧
      exchanged.apply (simpleDisjunctionCall (.group [])) 70 =
        .error (.prereqFailed (.ofName "simple" [.group []]) "no atom") := by
  have hshape : simpleOr.mapNames exchange = ⟨"or-i2", [.atom "B"], [],
      [.ofName "or" [.atom "A", .atom "B"]], some [.ofName "simple" [.atom "B"]]⟩ := rfl
  have haccepted : (simpleOr.mapNames exchange).Accepted := by
    rw [hshape]
    exact Rule.accepted_of_isExpr rfl (by decide)
  have hhygienic : (simpleOr.mapNames exchange).Hygienic := by
    rw [hshape]
    decide
  obtain ⟨-, -, hsame⟩ := apply_eq_of_mapNames simpleOr exchange
    (Rule.accepted_of_isExpr rfl (by decide)) haccepted (by decide) (by decide) (by decide)
    (by decide) hhygienic
  have hgood : simpleDisjunction.apply (simpleDisjunctionCall (.atom "P")) 1 =
      .ok (.value (.ofName "or" [.atom "_0", .atom "P"])) := rfl
  have hbad : simpleDisjunction.apply (simpleDisjunctionCall (.group [])) 1 =
      .error (.prereqFailed (.ofName "simple" [.group []]) "no atom") := rfl
  have hlookup : simpleDisjunction.lookup (.atom "or-i2") = .ok (.ofRule simpleOr) := rfl
  have hlookup' : exchanged.lookup (.atom "or-i2") =
      .ok (.ofRule (simpleOr.mapNames exchange)) := rfl
  refine ⟨hshape, ?_, ?_⟩
  · exact (hsame simpleDisjunction exchanged rfl (simpleDisjunctionCall (.atom "P")) hlookup
      hlookup' (by decide) 1 70).trans hgood
  · exact (hsame simpleDisjunction exchanged rfl (simpleDisjunctionCall (.group [])) hlookup
      hlookup' (by decide) 1 70).trans hbad

end Catalogue

end Deduction
