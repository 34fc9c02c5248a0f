import Deduction.Term.Normal
import Deduction.Term.Variables

/-!
# Replacement of variables in expressions

`Term.bind` replaces every logic variable by its image, so a map `θ : Var → Term` extends to
all terms. This module relates that extension to the other walks over terms: which variables
an image has, when it is an expression, and why no map makes a variable equal to a larger
term in which it occurs.

Terms are compared by `Term.same`, which looks at data by value. Expressions hold no data, so
on them `Term.same` is equality.

## Main results

* `Term.same_iff_eq`: an expression is the same as a term exactly when it is that term.
* `Term.mem_vars_bind`: the variables of an image are those of the images of the variables.
* `Term.occurs_var_iff`: the occurs check decides membership in the variables.
* `Term.ne_bind_of_mem_vars`: no map solves an equation that the occurs check refuses.
* `Term.within_app_iff`, `Term.within_group_iff`: the parts of compounds and groups.
-/

namespace Deduction.Term

/-! ### Expressions -/

/-- A compound is an expression when its operator is a name and it has arguments, all of them
expressions. -/
theorem isExpr_app_iff {op : Term} {args : List Term} :
    (Term.app op args).isExpr ↔
      (∃ name, op = .atom name ∧ name.isEmpty = false) ∧ args ≠ [] ∧ ∀ a ∈ args, a.isExpr := by
  cases op with
  | atom name => simp [isExpr, areExprs_iff, and_assoc]
  | _ => simp [isExpr]

/-- A group is an expression when its items are. -/
theorem isExpr_group_iff {items : List Term} :
    (Term.group items).isExpr ↔ ∀ a ∈ items, a.isExpr := by
  simp [isExpr, areExprs_iff]

/-- Lists of terms that are compared by equality are compared by equality as a whole. -/
theorem sameAll_iff_eq {as : List Term} (h : ∀ a ∈ as, ∀ b, a.same b ↔ a = b) (bs : List Term) :
    sameAll as bs ↔ as = bs := by
  induction as generalizing bs with
  | nil => cases bs <;> simp [sameAll]
  | cons a as ih =>
      cases bs with
      | nil => simp [sameAll]
      | cons b bs =>
          have hs := ih (fun x hx => h x (by simp [hx])) bs
          simp only [sameAll, Bool.and_eq_true, List.cons.injEq]
          rw [h a (by simp) b, hs]

/-- An expression is the same as a term exactly when it is that term. -/
theorem same_iff_eq {t : Term} (ht : t.isExpr) (u : Term) : t.same u ↔ t = u := by
  induction t using Term.walk generalizing u with
  | atom s => cases u <;> simp [same]
  | app op args ih =>
      obtain ⟨⟨name, rfl, -⟩, -, hargs⟩ := isExpr_app_iff.mp ht
      cases u with
      | app op' args' =>
          have hs := sameAll_iff_eq (fun a ha b => ih a ha (hargs a ha) b) args'
          cases op' <;> simp [same, hs]
      | _ => simp [same]
  | group items ih =>
      rw [isExpr_group_iff] at ht
      cases u with
      | group items' =>
          have hs := sameAll_iff_eq (fun a ha b => ih a ha (ht a ha) b) items'
          simp [same, hs]
      | _ => simp [same]
  | var v => cases u <;> simp [same]
  | hollow | wildcard | list | datum => simp [isExpr] at ht

theorem isAtom_iff {name : String} {t : Term} : t.isAtom name ↔ t = .atom name := by
  cases t <;> simp [isAtom]

/-- A walk over several terms meets a compound without an operator in none if it does so in no
single one. -/
theorem meetsHollowIn_eq_false {ts : List Term} (h : ∀ t ∈ ts, t.meetsHollow = false) :
    meetsHollowIn ts = false := by
  induction ts with
  | nil => rfl
  | cons t ts ih =>
      rw [meetsHollowIn, h t (by simp), ih fun u hu => h u (by simp [hu]), Bool.or_false]

/-- No walk over an expression meets a compound without an operator. -/
theorem meetsHollow_of_isExpr {t : Term} (ht : t.isExpr) : t.meetsHollow = false := by
  induction t using Term.walk with
  | app op args ih =>
      obtain ⟨-, -, hargs⟩ := isExpr_app_iff.mp ht
      exact meetsHollowIn_eq_false fun a ha => ih a ha (hargs a ha)
  | group items ih =>
      exact meetsHollowIn_eq_false fun a ha => ih a ha (isExpr_group_iff.mp ht a ha)
  | hollow => simp [isExpr] at ht
  | _ => rfl

/-! ### Variables of images -/

/-- The variables of a compound are those of its arguments. -/
@[simp] theorem mem_vars_app {op : Term} {args : List Term} {v : Var} :
    v ∈ (Term.app op args).vars ↔ ∃ a ∈ args, v ∈ a.vars := by
  simp [vars, varsIn_eq_flatMap]

/-- The variables of a group are those of its items. -/
@[simp] theorem mem_vars_group {items : List Term} {v : Var} :
    v ∈ (Term.group items).vars ↔ ∃ a ∈ items, v ∈ a.vars := by
  simp [vars, varsIn_eq_flatMap]

/-- A variable has itself as its only variable. -/
@[simp] theorem mem_vars_var {v w : Var} : w ∈ (Term.var v).vars ↔ w = v := by
  simp [vars]

/-- A term is ground when it has no variable. -/
theorem isGround_iff {t : Term} : t.isGround ↔ ∀ v, v ∉ t.vars := by
  simp [isGround, List.isEmpty_iff, List.eq_nil_iff_forall_not_mem]

/-- The variables of an image are those of the images of the variables. -/
theorem mem_vars_bind {f : Var → Term} {t : Term} {w : Var} :
    w ∈ (t.bind f).vars ↔ ∃ v ∈ t.vars, w ∈ (f v).vars := by
  induction t using Term.walk with
  | app op args ih =>
      simp only [bind, bindAll_eq_map, mem_vars_app, List.mem_map]
      constructor
      · rintro ⟨_, ⟨a, ha, rfl⟩, hw⟩
        obtain ⟨v, hv, hwv⟩ := (ih a ha).mp hw
        exact ⟨v, ⟨a, ha, hv⟩, hwv⟩
      · rintro ⟨v, ⟨a, ha, hv⟩, hwv⟩
        exact ⟨_, ⟨a, ha, rfl⟩, (ih a ha).mpr ⟨v, hv, hwv⟩⟩
  | group items ih =>
      simp only [bind, bindAll_eq_map, mem_vars_group, List.mem_map]
      constructor
      · rintro ⟨_, ⟨a, ha, rfl⟩, hw⟩
        obtain ⟨v, hv, hwv⟩ := (ih a ha).mp hw
        exact ⟨v, ⟨a, ha, hv⟩, hwv⟩
      · rintro ⟨v, ⟨a, ha, hv⟩, hwv⟩
        exact ⟨_, ⟨a, ha, rfl⟩, (ih a ha).mpr ⟨v, hv, hwv⟩⟩
  | var v => simp [bind]
  | _ => simp [bind, vars]

/-- A ground term is its own image. -/
theorem bind_of_isGround {t : Term} (ht : t.isGround) (f : Var → Term) : t.bind f = t := by
  have hv : ∀ v ∈ t.vars, f v = .var v := fun v hv => absurd hv (isGround_iff.mp ht v)
  rw [bind_congr hv, bind_var]

/-- Ground terms are their own images. -/
theorem map_bind_of_isGround {ts : List Term} (hts : ∀ t ∈ ts, t.isGround) (f : Var → Term) :
    ts.map (bind f) = ts :=
  (List.map_congr_left fun t ht => bind_of_isGround (hts t ht) f).trans (List.map_id' ts)

/-- The image of an expression is an expression if the images of its variables are. -/
theorem isExpr_bind {f : Var → Term} {t : Term} (ht : t.isExpr)
    (hf : ∀ v ∈ t.vars, (f v).isExpr) : (t.bind f).isExpr := by
  induction t using Term.walk with
  | app op args ih =>
      obtain ⟨hop, hne, hargs⟩ := isExpr_app_iff.mp ht
      rw [bind, bindAll_eq_map]
      refine isExpr_app_iff.mpr ⟨hop, by simpa using hne, ?_⟩
      intro b hb
      obtain ⟨a, ha, rfl⟩ := List.mem_map.mp hb
      exact ih a ha (hargs a ha) fun v hv => hf v (mem_vars_app.mpr ⟨a, ha, hv⟩)
  | group items ih =>
      rw [bind, bindAll_eq_map]
      refine isExpr_group_iff.mpr ?_
      intro b hb
      obtain ⟨a, ha, rfl⟩ := List.mem_map.mp hb
      exact ih a ha (isExpr_group_iff.mp ht a ha) fun v hv =>
        hf v (mem_vars_group.mpr ⟨a, ha, hv⟩)
  | var v => exact hf v (by simp)
  | _ => simpa [bind] using ht

/-! ### The occurs check -/

/-- The occurs check decides membership in the variables. -/
theorem occurs_var_iff {v : Var} {t : Term} : occurs (.var v) t ↔ v ∈ t.vars := by
  induction t using Term.walk with
  | app op args ih =>
      rw [occurs, occursIn_eq_any, mem_vars_app]
      simp only [same, Bool.false_or, List.any_eq_true]
      exact exists_congr fun a => and_congr_right fun ha => ih a ha
  | group items ih =>
      rw [occurs, occursIn_eq_any, mem_vars_group]
      simp only [same, Bool.false_or, List.any_eq_true]
      exact exists_congr fun a => and_congr_right fun ha => ih a ha
  | var w => simp [occurs, same]
  | _ => simp [occurs, same, vars]

/-- The image of a variable is no larger than the image of a term in which it occurs. -/
theorem sizeOf_image_le (θ : Var → Term) {v : Var} {t : Term} (hv : v ∈ t.vars) :
    sizeOf (θ v) ≤ sizeOf (t.bind θ) := by
  induction t using Term.walk with
  | app op args ih =>
      obtain ⟨a, ha, hva⟩ := mem_vars_app.mp hv
      have hle := ih a ha hva
      have hlt := List.sizeOf_lt_of_mem (List.mem_map_of_mem (f := bind θ) ha)
      rw [bind, bindAll_eq_map, app.sizeOf_spec]
      omega
  | group items ih =>
      obtain ⟨a, ha, hva⟩ := mem_vars_group.mp hv
      have hle := ih a ha hva
      have hlt := List.sizeOf_lt_of_mem (List.mem_map_of_mem (f := bind θ) ha)
      rw [bind, bindAll_eq_map, group.sizeOf_spec]
      omega
  | var w =>
      obtain rfl := mem_vars_var.mp hv
      simp [bind]
  | _ => simp [vars] at hv

/-- No map makes a variable equal to another term in which it occurs: the image of the term
is larger. -/
theorem ne_bind_of_mem_vars (θ : Var → Term) {v : Var} {t : Term} (hv : v ∈ t.vars)
    (ht : t ≠ .var v) : θ v ≠ t.bind θ := by
  intro heq
  cases t with
  | app op args =>
      obtain ⟨a, ha, hva⟩ := mem_vars_app.mp hv
      have hle := sizeOf_image_le θ hva
      have hlt := List.sizeOf_lt_of_mem (List.mem_map_of_mem (f := bind θ) ha)
      rw [heq, bind, bindAll_eq_map, app.sizeOf_spec] at hle
      omega
  | group items =>
      obtain ⟨a, ha, hva⟩ := mem_vars_group.mp hv
      have hle := sizeOf_image_le θ hva
      have hlt := List.sizeOf_lt_of_mem (List.mem_map_of_mem (f := bind θ) ha)
      rw [heq, bind, bindAll_eq_map, group.sizeOf_spec] at hle
      omega
  | var w => exact ht (by rw [mem_vars_var.mp hv])
  | _ => simp [vars] at hv

/-! ### Parts -/

/-- The first term is a part of the second: the whole, or a part of an argument or item. -/
inductive Within : Term → Term → Prop
  | whole (t : Term) : Within t t
  | arg {u a op : Term} {args : List Term} (ha : a ∈ args) (h : Within u a) :
    Within u (.app op args)
  | item {u a : Term} {items : List Term} (ha : a ∈ items) (h : Within u a) :
    Within u (.group items)

/-- A part of a compound is the whole or a part of an argument. -/
theorem within_app_iff {u op : Term} {args : List Term} :
    Within u (.app op args) ↔ u = .app op args ∨ ∃ a ∈ args, Within u a := by
  constructor
  · rintro (_ | ⟨ha, h⟩)
    · exact .inl rfl
    · exact .inr ⟨_, ha, h⟩
  · rintro (rfl | ⟨a, ha, h⟩)
    · exact .whole _
    · exact .arg ha h

/-- A part of a group is the whole or a part of an item. -/
theorem within_group_iff {u : Term} {items : List Term} :
    Within u (.group items) ↔ u = .group items ∨ ∃ a ∈ items, Within u a := by
  constructor
  · rintro (_ | _ | ⟨ha, h⟩)
    · exact .inl rfl
    · exact .inr ⟨_, ha, h⟩
  · rintro (rfl | ⟨a, ha, h⟩)
    · exact .whole _
    · exact .item ha h

end Deduction.Term
