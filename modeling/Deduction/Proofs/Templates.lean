import Deduction.Proofs.Terms
import Deduction.Relation.Basic

/-!
# Templates and authored values

A template is filled in by giving every pattern variable a value. `Term.instantiate` does so
with a table that may lack a name; `Term.fill` is the same with a value for every name, and
the two agree where the table has all names of the template. Filling in commutes with the
replacement of logic variables, as long as the template itself has none.

Authored values become expressions by `Term.normalize`. What comes out is an expression, an
expression comes out as it went in, and no variable appears that was not there. So the rules
that authoring accepts hold expressions only.

## Main definitions

* `Term.fill`: a template with a value for every name.
* `Term.isVarFree`: a value of any kind that holds no logic variable.
* `Rule.Accepted`, `Rule.IsVarFree`: the rules that authoring accepts, and those among them
  without logic variables.

## Main results

* `Term.instantiate_eq_fill`: instantiation is filling in.
* `Term.bind_fill`, `Term.fill_bind`: filling in commutes with replacement.
* `Term.vars_fill`: the variables of a filled-in template.
* `Term.mem_patternNames_fill`: the names of a filled-in template.
* `Term.isExpr_of_normalize`, `Term.normalize_of_isExpr`: the results of normalisation.
* `Rule.templates_eq_ok_iff`, `Rule.author_eq_ok_iff`: what authored fields come to.
* `Rule.Accepted.isExpr`, `Rule.accepted_of_isExpr`: accepted are the rules with a name that hold
  expressions only.
-/

namespace Deduction

/-- A computation returns when its first part does and the rest returns on the result. -/
theorem bind_eq_ok_iff {ε α β : Type} {x : Except ε α} {f : α → Except ε β} {b : β} :
    x >>= f = .ok b ↔ ∃ a, x = .ok a ∧ f a = .ok b := by
  cases x with
  | error e => simp [bind, Except.bind]
  | ok a => simp [bind, Except.bind]

/-- A computation fails when its first part does, or the rest fails on the result. -/
theorem bind_eq_error_iff {ε α β : Type} {x : Except ε α} {f : α → Except ε β} {e : ε} :
    x >>= f = .error e ↔ x = .error e ∨ ∃ a, x = .ok a ∧ f a = .error e := by
  cases x with
  | error e' => simp [bind, Except.bind]
  | ok a => simp [bind, Except.bind]

namespace Term

/-! ### Filling in templates -/

mutual

/-- A template with a value for every name in place of its pattern variables. -/
def fill (α : String → Term) : Term → Term
  | .atom s => if isKeyword s then .atom s else α s
  | .app op args => .app op (fillAll α args)
  | .group items => .group (fillAll α items)
  | t => t

/-- `fill` item by item. -/
def fillAll (α : String → Term) : List Term → List Term
  | [] => []
  | t :: ts => fill α t :: fillAll α ts

end

theorem fillAll_eq_map (α : String → Term) (ts : List Term) : fillAll α ts = ts.map (fill α) := by
  induction ts with
  | nil => rfl
  | cons t ts ih => simp [fillAll, ih]

/-- The pattern variables of a compound are those of its arguments. -/
@[simp] theorem mem_patternNames_app {op : Term} {args : List Term} {x : String} :
    x ∈ (Term.app op args).patternNames ↔ ∃ a ∈ args, x ∈ a.patternNames := by
  simp [patternNames, patternNamesIn_eq_flatMap]

/-- The pattern variables of a group are those of its items. -/
@[simp] theorem mem_patternNames_group {items : List Term} {x : String} :
    x ∈ (Term.group items).patternNames ↔ ∃ a ∈ items, x ∈ a.patternNames := by
  simp [patternNames, patternNamesIn_eq_flatMap]

/-- No pattern variable is a reserved constant. -/
theorem isKeyword_of_mem_patternNames {x : String} {t : Term} (hx : x ∈ t.patternNames) :
    isKeyword x = false := by
  induction t using Term.walk with
  | atom s =>
      obtain ⟨hs, rfl⟩ : isKeyword s = false ∧ x = s := by simpa [patternNames] using hx
      exact hs
  | app op args ih =>
      obtain ⟨a, ha, hxa⟩ := mem_patternNames_app.mp hx
      exact ih a ha hxa
  | group items ih =>
      obtain ⟨a, ha, hxa⟩ := mem_patternNames_group.mp hx
      exact ih a ha hxa
  | _ => simp [patternNames] at hx

/-- Instantiation item by item is filling in if that holds of each item. -/
theorem instantiateAll_eq_map {env : String → Option Term} {α : String → Term} {ts : List Term}
    (h : ∀ t ∈ ts, instantiate env t = .ok (t.fill α)) :
    instantiateAll env ts = .ok (ts.map (fill α)) := by
  induction ts with
  | nil => rfl
  | cons t ts ih =>
      rw [instantiateAll, h t (by simp), ih fun u hu => h u (by simp [hu])]
      rfl

/-- **Instantiation is filling in**, where the table has a value for every pattern variable of
the template. -/
theorem instantiate_eq_fill {env : String → Option Term} {α : String → Term} {t : Term}
    (ht : t.isExpr) (h : ∀ x ∈ t.patternNames, env x = some (α x)) :
    instantiate env t = .ok (t.fill α) := by
  induction t using Term.walk with
  | atom s =>
      by_cases hs : isKeyword s
      · rw [instantiate, fill, if_pos hs, if_pos hs]
      · rw [instantiate, fill, if_neg hs, if_neg hs, h s (by simp [patternNames, hs])]
  | app op args ih =>
      obtain ⟨-, -, hargs⟩ := isExpr_app_iff.mp ht
      have hall : instantiateAll env args = .ok (args.map (fill α)) :=
        instantiateAll_eq_map fun a ha =>
          ih a ha (hargs a ha) fun x hx => h x (mem_patternNames_app.mpr ⟨a, ha, hx⟩)
      rw [instantiate, hall, fill, fillAll_eq_map]
      rfl
  | group items ih =>
      have hall : instantiateAll env items = .ok (items.map (fill α)) :=
        instantiateAll_eq_map fun a ha =>
          ih a ha (isExpr_group_iff.mp ht a ha) fun x hx =>
            h x (mem_patternNames_group.mpr ⟨a, ha, hx⟩)
      rw [instantiate, hall, fill, fillAll_eq_map]
      rfl
  | var v => rfl
  | hollow | wildcard | list | datum => simp [isExpr] at ht

/-- What is filled in depends on the values of the pattern variables only. -/
theorem fill_congr {α β : String → Term} {t : Term} (h : ∀ x ∈ t.patternNames, α x = β x) :
    t.fill α = t.fill β := by
  induction t using Term.walk with
  | atom s =>
      by_cases hs : isKeyword s
      · rw [fill, fill, if_pos hs, if_pos hs]
      · rw [fill, fill, if_neg hs, if_neg hs, h s (by simp [patternNames, hs])]
  | app op args ih =>
      rw [fill, fill, fillAll_eq_map, fillAll_eq_map, List.map_congr_left fun a ha =>
        ih a ha fun x hx => h x (mem_patternNames_app.mpr ⟨a, ha, hx⟩)]
  | group items ih =>
      rw [fill, fill, fillAll_eq_map, fillAll_eq_map, List.map_congr_left fun a ha =>
        ih a ha fun x hx => h x (mem_patternNames_group.mpr ⟨a, ha, hx⟩)]
  | _ => simp [fill]

/-- Filling in a template without logic variables commutes with replacement. -/
theorem bind_fill (θ : Var → Term) (α : String → Term) {t : Term} (ht : t.isGround) :
    (t.fill α).bind θ = t.fill fun x => (α x).bind θ := by
  rw [isGround_iff] at ht
  induction t using Term.walk with
  | atom s => by_cases hs : isKeyword s <;> simp [fill, hs, bind]
  | app op args ih =>
      have hargs : ∀ a ∈ args, (a.fill α).bind θ = a.fill fun x => (α x).bind θ :=
        fun a ha => ih a ha fun v hv => ht v (mem_vars_app.mpr ⟨a, ha, hv⟩)
      simpa [fill, bind, bindAll_eq_map, fillAll_eq_map] using hargs
  | group items ih =>
      have hitems : ∀ a ∈ items, (a.fill α).bind θ = a.fill fun x => (α x).bind θ :=
        fun a ha => ih a ha fun v hv => ht v (mem_vars_group.mpr ⟨a, ha, hv⟩)
      simpa [fill, bind, bindAll_eq_map, fillAll_eq_map] using hitems
  | var v => exact absurd (mem_vars_var.mpr rfl) (ht v)
  | _ => rfl

/-- The variables of a filled-in template without logic variables of its own are those of the
values, occurrence by occurrence. -/
theorem vars_fill (α : String → Term) {t : Term} (ht : t.isGround) :
    (t.fill α).vars = t.patternNames.flatMap fun x => (α x).vars := by
  rw [isGround_iff] at ht
  induction t using Term.walk with
  | atom s => by_cases hs : isKeyword s <;> simp [fill, hs, vars, patternNames]
  | app op args ih =>
      rw [fill, fillAll_eq_map, vars, varsIn_eq_flatMap, patternNames, patternNamesIn_eq_flatMap,
        List.flatMap_map, List.flatMap_assoc, List.flatMap_def, List.flatMap_def,
        List.map_congr_left fun a ha =>
          ih a ha fun v hv => ht v (mem_vars_app.mpr ⟨a, ha, hv⟩)]
  | group items ih =>
      rw [fill, fillAll_eq_map, vars, varsIn_eq_flatMap, patternNames, patternNamesIn_eq_flatMap,
        List.flatMap_map, List.flatMap_assoc, List.flatMap_def, List.flatMap_def,
        List.map_congr_left fun a ha =>
          ih a ha fun v hv => ht v (mem_vars_group.mpr ⟨a, ha, hv⟩)]
  | var v => exact absurd (mem_vars_var.mpr rfl) (ht v)
  | _ => rfl

/-- The variables of several filled-in templates. -/
theorem varsIn_map_fill (α : String → Term) {ts : List Term} (hts : ∀ t ∈ ts, t.isGround) :
    varsIn (ts.map (fill α)) = (patternNamesIn ts).flatMap fun x => (α x).vars := by
  rw [varsIn_eq_flatMap, patternNamesIn_eq_flatMap, List.flatMap_map, List.flatMap_assoc,
    List.flatMap_def, List.flatMap_def, List.map_congr_left fun t ht => vars_fill α (hts t ht)]

/-- A template that is an expression, filled in with expressions, is an expression. -/
theorem isExpr_fill {α : String → Term} {t : Term} (ht : t.isExpr) (hα : ∀ x, (α x).isExpr) :
    (t.fill α).isExpr := by
  induction t using Term.walk with
  | atom s =>
      by_cases hs : isKeyword s
      · rwa [fill, if_pos hs]
      · rw [fill, if_neg hs]
        exact hα s
  | app op args ih =>
      obtain ⟨hop, hne, hargs⟩ := isExpr_app_iff.mp ht
      rw [fill, fillAll_eq_map]
      refine isExpr_app_iff.mpr ⟨hop, by simpa using hne, ?_⟩
      intro b hb
      obtain ⟨a, ha, rfl⟩ := List.mem_map.mp hb
      exact ih a ha (hargs a ha)
  | group items ih =>
      rw [fill, fillAll_eq_map]
      refine isExpr_group_iff.mpr ?_
      intro b hb
      obtain ⟨a, ha, rfl⟩ := List.mem_map.mp hb
      exact ih a ha (isExpr_group_iff.mp ht a ha)
  | _ => simpa [fill] using ht

/-- Filling in a filled-in template is filling in once, with filled-in values. -/
theorem fill_fill (α β : String → Term) (t : Term) :
    (t.fill β).fill α = t.fill fun x => (β x).fill α := by
  induction t using Term.walk with
  | atom s => by_cases hs : isKeyword s <;> simp [fill, hs]
  | app op args ih => simpa [fill, fillAll_eq_map] using ih
  | group items ih => simpa [fill, fillAll_eq_map] using ih
  | _ => rfl

/-- The names of a filled-in template are those of the values of its pattern variables. -/
theorem mem_patternNames_fill {α : String → Term} {t : Term} {x : String} :
    x ∈ (t.fill α).patternNames ↔ ∃ y ∈ t.patternNames, x ∈ (α y).patternNames := by
  induction t using Term.walk with
  | atom s => by_cases hs : isKeyword s <;> simp [fill, hs, patternNames]
  | app op args ih =>
      simp only [fill, fillAll_eq_map, mem_patternNames_app, List.mem_map]
      constructor
      · rintro ⟨_, ⟨a, ha, rfl⟩, hx⟩
        obtain ⟨y, hy, hxy⟩ := (ih a ha).mp hx
        exact ⟨y, ⟨a, ha, hy⟩, hxy⟩
      · rintro ⟨y, ⟨a, ha, hy⟩, hxy⟩
        exact ⟨_, ⟨a, ha, rfl⟩, (ih a ha).mpr ⟨y, hy, hxy⟩⟩
  | group items ih =>
      simp only [fill, fillAll_eq_map, mem_patternNames_group, List.mem_map]
      constructor
      · rintro ⟨_, ⟨a, ha, rfl⟩, hx⟩
        obtain ⟨y, hy, hxy⟩ := (ih a ha).mp hx
        exact ⟨y, ⟨a, ha, hy⟩, hxy⟩
      · rintro ⟨y, ⟨a, ha, hy⟩, hxy⟩
        exact ⟨_, ⟨a, ha, rfl⟩, (ih a ha).mpr ⟨y, hy, hxy⟩⟩
  | _ => simp [fill, patternNames]

/-- A template whose pattern variables stand for themselves stays as it is. -/
theorem fill_eq_self {α : String → Term} {t : Term}
    (h : ∀ x ∈ t.patternNames, α x = .atom x) : t.fill α = t := by
  induction t using Term.walk with
  | atom s => by_cases hs : isKeyword s <;> simp_all [fill, patternNames]
  | app op args ih =>
      have hargs : ∀ a ∈ args, a.fill α = a := fun a ha =>
        ih a ha fun x hx => h x (mem_patternNames_app.mpr ⟨a, ha, hx⟩)
      rw [fill, fillAll_eq_map, List.map_congr_left hargs, List.map_id']
  | group items ih =>
      have hitems : ∀ a ∈ items, a.fill α = a := fun a ha =>
        ih a ha fun x hx => h x (mem_patternNames_group.mpr ⟨a, ha, hx⟩)
      rw [fill, fillAll_eq_map, List.map_congr_left hitems, List.map_id']
  | _ => rfl

/-- Filling in passes under a replacement, as long as the pattern variables of the term itself
stand for themselves. -/
theorem fill_bind {α : String → Term} {t : Term} (h : ∀ x ∈ t.patternNames, α x = .atom x)
    (θ : Var → Term) : (t.bind θ).fill α = t.bind fun v => (θ v).fill α := by
  induction t using Term.walk with
  | atom s => exact fill_eq_self h
  | app op args ih =>
      have hargs : ∀ a ∈ args, (a.bind θ).fill α = a.bind fun v => (θ v).fill α := fun a ha =>
        ih a ha fun x hx => h x (mem_patternNames_app.mpr ⟨a, ha, hx⟩)
      simpa [fill, bind, bindAll_eq_map, fillAll_eq_map] using hargs
  | group items ih =>
      have hitems : ∀ a ∈ items, (a.bind θ).fill α = a.bind fun v => (θ v).fill α := fun a ha =>
        ih a ha fun x hx => h x (mem_patternNames_group.mpr ⟨a, ha, hx⟩)
      simpa [fill, bind, bindAll_eq_map, fillAll_eq_map] using hitems
  | _ => rfl

/-! ### Authored values -/

mutual

/-- Does the value hold no logic variable at any depth? -/
def isVarFree : Term → Bool
  | .var _ => false
  | .app op args => isVarFree op && areVarFree args
  | .group items => areVarFree items
  | .list items => areVarFree items
  | _ => true

/-- Do the values hold no logic variable? -/
def areVarFree : List Term → Bool
  | [] => true
  | t :: ts => isVarFree t && areVarFree ts

end

/-- Normalisation of a compound normalises its arguments. -/
theorem normalize_app_eq_ok_iff {op : Term} {args : List Term} {u : Term} :
    normalize (.app op args) = .ok u ↔ ∃ name us, op = .atom name ∧ name.isEmpty = false ∧
      args ≠ [] ∧ normalizeAll args = .ok us ∧ u = .app (.atom name) us := by
  cases op with
  | atom name =>
      by_cases h : name.isEmpty || args.isEmpty
      · rw [normalize, if_pos h]
        simp only [reduceCtorEq, atom.injEq, false_iff, not_exists, not_and]
        rintro _ us rfl hname hargs
        simp [hname, hargs] at h
      · rw [normalize, if_neg h, bind_eq_ok_iff]
        simp only [Bool.or_eq_true, not_or, Bool.not_eq_true, List.isEmpty_eq_false_iff] at h
        constructor
        · rintro ⟨us, hus, hu⟩
          exact ⟨name, us, rfl, h.1, h.2, hus, (Except.ok.inj hu).symm⟩
        · rintro ⟨_, us, heq, -, -, hus, rfl⟩
          cases heq
          exact ⟨us, hus, rfl⟩
  | _ => simp [normalize]

/-- What normalisation makes of the head and the tail of a list. -/
theorem normalizeAll_cons_eq_ok_iff {t : Term} {ts us : List Term} :
    normalizeAll (t :: ts) = .ok us ↔
      ∃ u us', normalize t = .ok u ∧ normalizeAll ts = .ok us' ∧ us = u :: us' := by
  rw [normalizeAll]
  simp only [bind_eq_ok_iff]
  constructor
  · rintro ⟨u, hu, us', hus', h⟩
    exact ⟨u, us', hu, hus', (Except.ok.inj h).symm⟩
  · rintro ⟨u, us', hu, hus', rfl⟩
    exact ⟨u, hu, us', hus', rfl⟩

/-- Lists and groups are normalised item by item, and become groups. -/
theorem normalize_items_eq_ok_iff {items : List Term} {u : Term} :
    (do return Term.group (← normalizeAll items) : Except Malformed Term) = .ok u ↔
      ∃ us, normalizeAll items = .ok us ∧ u = .group us := by
  rw [bind_eq_ok_iff]
  constructor
  · rintro ⟨us, hus, h⟩
    exact ⟨us, hus, (Except.ok.inj h).symm⟩
  · rintro ⟨us, hus, rfl⟩
    exact ⟨us, hus, rfl⟩

/-- A group of expressions is an expression, and ground if its items are. -/
theorem isExpr_group_of_items {us : List Term} {P : Prop}
    (hall : ∀ u ∈ us, u.isExpr ∧ (P → u.isGround)) :
    (Term.group us).isExpr ∧ (P → (Term.group us).isGround) := by
  refine ⟨isExpr_group_iff.mpr fun u hu => (hall u hu).1, fun hfree => ?_⟩
  rw [isGround_iff]
  intro v hv
  obtain ⟨u, hu, hvu⟩ := mem_vars_group.mp hv
  exact isGround_iff.mp ((hall u hu).2 hfree) v hvu

mutual

/-- Normalisation returns expressions, and no logic variable that was not there. -/
theorem isExpr_of_normalize : ∀ {t u : Term}, normalize t = .ok u →
    u.isExpr ∧ (t.isVarFree → u.isGround)
  | .atom s, u, h => by
      by_cases hs : s.isEmpty
      · simp [normalize, hs] at h
      · rw [normalize, if_neg hs, Except.ok.injEq] at h
        subst h
        exact ⟨by simpa [isExpr] using hs, fun _ => rfl⟩
  | .app op args, u, h => by
      obtain ⟨name, us, rfl, hname, hne, hus, rfl⟩ := normalize_app_eq_ok_iff.mp h
      obtain ⟨hlen, hall⟩ := areExprs_of_normalizeAll hus
      refine ⟨isExpr_app_iff.mpr ⟨⟨name, rfl, hname⟩, ?_, fun a ha => (hall a ha).1⟩, ?_⟩
      · intro hnil
        rw [hnil, List.length_nil, eq_comm, List.length_eq_zero_iff] at hlen
        exact hne hlen
      · intro hfree
        rw [isGround_iff]
        intro v hv
        obtain ⟨a, ha, hva⟩ := mem_vars_app.mp hv
        simp only [isVarFree, Bool.true_and] at hfree
        exact isGround_iff.mp ((hall a ha).2 hfree) v hva
  | .hollow, u, h => by simp [normalize] at h
  | .group items, u, h => by
      obtain ⟨us, hus, rfl⟩ := normalize_items_eq_ok_iff.mp h
      exact isExpr_group_of_items (areExprs_of_normalizeAll hus).2
  | .var v, u, h => by
      rw [normalize, Except.ok.injEq] at h
      subst h
      exact ⟨rfl, fun hfree => by simp [isVarFree] at hfree⟩
  | .wildcard, u, h => by simp [normalize] at h
  | .list items, u, h => by
      obtain ⟨us, hus, rfl⟩ := normalize_items_eq_ok_iff.mp h
      exact isExpr_group_of_items (areExprs_of_normalizeAll hus).2
  | .datum d, u, h => by simp [normalize] at h

/-- The same item by item, with as many items as before. -/
theorem areExprs_of_normalizeAll : ∀ {ts us : List Term}, normalizeAll ts = .ok us →
    us.length = ts.length ∧ ∀ u ∈ us, u.isExpr ∧ (areVarFree ts → u.isGround)
  | [], us, h => by
      rw [normalizeAll, Except.ok.injEq] at h
      subst h
      simp
  | t :: ts, us, h => by
      obtain ⟨u, us', hu, hus', rfl⟩ := normalizeAll_cons_eq_ok_iff.mp h
      obtain ⟨hexpr, hground⟩ := isExpr_of_normalize hu
      obtain ⟨hlen, hall⟩ := areExprs_of_normalizeAll hus'
      refine ⟨by simp [hlen], fun x hx => ?_⟩
      simp only [areVarFree, Bool.and_eq_true]
      rcases List.mem_cons.mp hx with rfl | hx
      · exact ⟨hexpr, fun hfree => hground hfree.1⟩
      · exact ⟨(hall x hx).1, fun hfree => (hall x hx).2 hfree.2⟩

end

/-- An expression is its own normal form. -/
theorem normalize_of_isExpr {t : Term} (ht : t.isExpr) : normalize t = .ok t := by
  induction t using Term.walk with
  | atom s =>
      rw [isExpr, Bool.not_eq_true'] at ht
      simp [normalize, ht]
  | app op args ih =>
      obtain ⟨⟨name, rfl, hname⟩, hne, hargs⟩ := isExpr_app_iff.mp ht
      have hall := normalizeAll_of_forall fun a ha => ih a ha (hargs a ha)
      exact normalize_app_eq_ok_iff.mpr ⟨name, args, rfl, hname, hne, hall, rfl⟩
  | group items ih =>
      have hall := normalizeAll_of_forall fun a ha => ih a ha (isExpr_group_iff.mp ht a ha)
      rw [normalize]
      exact normalize_items_eq_ok_iff.mpr ⟨items, hall, rfl⟩
  | var v => rfl
  | hollow | wildcard | list | datum => simp [isExpr] at ht

end Term

/-! ### Rules -/

namespace Rule

/-- The rule is what authoring some fields comes to. -/
def Accepted (r : Rule) : Prop :=
  ∃ id given extra conclusion prereq, author id given extra conclusion prereq = .ok r

/-- No template of the rule holds a logic variable. -/
def IsVarFree (r : Rule) : Prop := ∀ t ∈ r.templatesOf, t.isGround

instance (r : Rule) : Decidable r.IsVarFree :=
  inferInstanceAs (Decidable (∀ t ∈ r.templatesOf, t.isGround))

/-- The templates of a field are the normalised members of its value, which is no single
template. -/
theorem templates_eq_ok_iff {id : String} {field : Field} {value : Term} {ts : List Term} :
    templates id field value = .ok ts ↔
      isSingleTemplate value = false ∧
        ∃ members, value.members? = some members ∧ Term.normalizeAll members = .ok ts := by
  rw [templates]
  cases hsingle : isSingleTemplate value with
  | true => simp
  | false =>
      cases hmembers : value.members? with
      | none => simp
      | some members => cases h : Term.normalizeAll members <;> simp [h]

/-- The templates of a field are expressions. -/
theorem isExpr_of_templates {id : String} {field : Field} {value : Term} {ts : List Term}
    (h : templates id field value = .ok ts) : ∀ t ∈ ts, t.isExpr := by
  obtain ⟨-, members, -, hts⟩ := templates_eq_ok_iff.mp h
  exact fun t ht => ((Term.areExprs_of_normalizeAll hts).2 t ht).1

/-- **What authored fields come to**: a rule with a name and the templates of its fields. -/
theorem author_eq_ok_iff {id given extra conclusion : Term} {prereq : Option Term} {r : Rule} :
    author id given extra conclusion prereq = .ok r ↔
      (id = .atom r.id ∧ r.id.isEmpty = false) ∧ templates r.id .given given = .ok r.given ∧
        templates r.id .extra extra = .ok r.extra ∧
        templates r.id .conclusion conclusion = .ok r.conclusion ∧
        (prereq = none ∧ r.prereq = none ∨ ∃ value ts, prereq = some value ∧
          templates r.id .prereq value = .ok ts ∧ r.prereq = some ts) := by
  constructor
  · intro h
    cases id with
    | atom name =>
        rw [author] at h
        split at h
        next => simp at h
        next hname =>
          rw [Bool.not_eq_true] at hname
          simp only [bind_eq_ok_iff] at h
          obtain ⟨gs, hg, es, he, cs, hc, h⟩ := h
          cases prereq with
          | none =>
              obtain rfl := Except.ok.inj h
              exact ⟨⟨rfl, hname⟩, hg, he, hc, .inl ⟨rfl, rfl⟩⟩
          | some value =>
              simp only [bind_eq_ok_iff] at h
              obtain ⟨ts, hts, ps, hps, h⟩ := h
              obtain rfl := Except.ok.inj hps
              obtain rfl := Except.ok.inj h
              exact ⟨⟨rfl, hname⟩, hg, he, hc, .inr ⟨value, ts, rfl, hts, rfl⟩⟩
    | _ => simp [author] at h
  · obtain ⟨name, gs, es, cs, ps⟩ := r
    rintro ⟨⟨rfl, hname⟩, hg, he, hc, hp⟩
    simp only at hname hg he hc hp
    rw [author, if_neg (by simp [hname]), hg, he, hc]
    rcases hp with ⟨rfl, rfl⟩ | ⟨value, ts, rfl, hts, rfl⟩
    · rfl
    · simp only [hts]
      rfl

/-- What authored fields come to has a name and holds expressions only. -/
theorem Accepted.isEmpty_id_and_isExpr {r : Rule} (h : r.Accepted) :
    r.id.isEmpty = false ∧ ∀ t ∈ r.templatesOf, t.isExpr := by
  obtain ⟨id, given, extra, conclusion, prereq, h⟩ := h
  obtain ⟨⟨-, hname⟩, hg, he, hc, hp⟩ := author_eq_ok_iff.mp h
  have hchecks : ∀ t ∈ r.checks, t.isExpr := by
    rcases hp with ⟨-, hnone⟩ | ⟨value, ts, -, hts, hsome⟩
    · simp [checks, hnone]
    · simpa [checks, hsome] using isExpr_of_templates hts
  refine ⟨hname, fun t ht => ?_⟩
  simp only [templatesOf, inputs, List.mem_append] at ht
  rcases ht with ((ht | ht) | ht) | ht
  · exact isExpr_of_templates hg t ht
  · exact isExpr_of_templates he t ht
  · exact isExpr_of_templates hc t ht
  · exact hchecks t ht

/-- An accepted rule has a name. -/
theorem Accepted.isEmpty_id {r : Rule} (h : r.Accepted) : r.id.isEmpty = false :=
  h.isEmpty_id_and_isExpr.1

/-- **An accepted rule holds expressions only.** -/
theorem Accepted.isExpr {r : Rule} (h : r.Accepted) : ∀ t ∈ r.templatesOf, t.isExpr :=
  h.isEmpty_id_and_isExpr.2

/-- The templates of a list are its normalised items. -/
theorem templates_list_eq_ok_iff {id : String} {field : Field} {us ts : List Term} :
    templates id field (.list us) = .ok ts ↔ Term.normalizeAll us = .ok ts := by
  simp [templates_eq_ok_iff, isSingleTemplate, Term.members?]

/-- Expressions in a list are their own templates. -/
theorem templates_list {ts : List Term} (h : ∀ t ∈ ts, t.isExpr) (id : String) (field : Field) :
    templates id field (.list ts) = .ok ts :=
  templates_list_eq_ok_iff.mpr
    (Term.normalizeAll_of_forall fun t ht => Term.normalize_of_isExpr (h t ht))

/-- A rule with a name that holds expressions only is what its own fields describe. -/
theorem author_eq_self {r : Rule} (hid : r.id.isEmpty = false)
    (h : ∀ t ∈ r.templatesOf, t.isExpr) :
    author (.atom r.id) (.list r.given) (.list r.extra) (.list r.conclusion)
      (r.prereq.map .list) = .ok r := by
  simp only [templatesOf, inputs, List.forall_mem_append] at h
  obtain ⟨⟨⟨hgiven, hextra⟩, hconclusion⟩, hchecks⟩ := h
  refine author_eq_ok_iff.mpr ⟨⟨rfl, hid⟩, templates_list hgiven _ _, templates_list hextra _ _,
    templates_list hconclusion _ _, ?_⟩
  rw [checks] at hchecks
  cases hprereq : r.prereq with
  | none => exact .inl ⟨rfl, rfl⟩
  | some ts =>
      rw [hprereq] at hchecks
      exact .inr ⟨.list ts, ts, rfl, templates_list hchecks _ _, rfl⟩

/-- A rule with a name that holds expressions only is accepted. -/
theorem accepted_of_isExpr {r : Rule} (hid : r.id.isEmpty = false)
    (h : ∀ t ∈ r.templatesOf, t.isExpr) : r.Accepted :=
  ⟨_, _, _, _, _, author_eq_self hid h⟩

/-- Has a rule this name and these templates, and nothing else? -/
def isPlain (id : String) (given conclusion : List Term) (r : Rule) : Bool :=
  r.id == id && Term.sameAll given r.given && r.extra.isEmpty &&
    Term.sameAll conclusion r.conclusion && r.prereq.isNone

/-- Expressions are compared by equality, so such a rule is the plain one. -/
theorem isPlain_iff {id : String} {given conclusion : List Term} {r : Rule}
    (hgiven : ∀ t ∈ given, t.isExpr) (hconclusion : ∀ t ∈ conclusion, t.isExpr) :
    r.isPlain id given conclusion ↔ r = .plain id given conclusion := by
  obtain ⟨id', given', extra, conclusion', prereq⟩ := r
  have hg := Term.sameAll_iff_eq (fun t ht => Term.same_iff_eq (hgiven t ht)) given'
  have hc := Term.sameAll_iff_eq (fun t ht => Term.same_iff_eq (hconclusion t ht)) conclusion'
  simp [isPlain, plain, hg, hc, and_assoc, @eq_comm _ given, @eq_comm _ conclusion]

end Rule

end Deduction
