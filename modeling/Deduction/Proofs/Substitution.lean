import Mathlib.Data.List.Basic
import Deduction.Proofs.Capture

/-!
# Laws of substitution

Two substitutions for different atoms commute, as long as neither atom is free in what is put for
the other one. What one substitution puts in is then left alone by the other one, and neither of
them changes whether a quantifier lists the atom of the other: a quantifier goes on listing its
atoms, and where a replacement turns a compound into a quantifier, it lists atoms that are free
in the replacement.

Substitution copies operators and keeps the number of arguments of every compound. So a
substitution that is carried out in terms without a pending one, at any place, makes none, and
resolving, which works from the inside out, leaves none behind.

## Main definitions

* `Term.IsHereditary`: properties of operators and numbers of arguments, asked at every place.
* `Term.IsResolved`: no part of the term is a substitution left symbolic.

## Main results

* `Term.substitute_comm`: independent substitutions commute.
* `Term.IsHereditary.substitute`, `Term.IsHereditary.resolve`: what substitution and resolving
  keep.
* `Term.isResolved_resolve`: resolving leaves no substitution behind.
* `Term.substitute?_independent`, `Term.resolve?_normal`: the same where both can fail.
-/

namespace Deduction.Term

/-! ### Substitutions for two atoms -/

section

variable {x y : String} {s t : Term}

/-- Substitution for an atom that is not free changes nothing. -/
theorem substitute_of_not_isFree (h : s.isFree y = false) : substitute (.atom y) t s = s := by
  induction s using Term.walk with
  | atom z =>
      have hz : z ≠ y := fun hz => by simp [isFree, occursOutside, hz] at h
      rw [substitute_atom, if_neg hz]
  | app op args ih =>
      cases hy : binds (.atom y) op args with
      | true => exact substitute_app_of_binds hy
      | false =>
          have hargs : ∀ a ∈ args, substitute (.atom y) t a = a := by
            intro a ha
            refine ih a ha (Bool.eq_false_iff.mpr fun hfree => Bool.eq_false_iff.mp h ?_)
            exact occursOutside_app.mpr ⟨by simpa using hy, a, ha, hfree⟩
          rw [substitute_app hy, List.map_congr_left hargs, List.map_id']
  | group items ih =>
      have hitems : ∀ a ∈ items, substitute (.atom y) t a = a := by
        intro a ha
        refine ih a ha (Bool.eq_false_iff.mpr fun hfree => Bool.eq_false_iff.mp h ?_)
        exact occursOutside_group.mpr ⟨a, ha, hfree⟩
      rw [substitute_group, List.map_congr_left hitems, List.map_id']
  | _ => simp [substitute, same]

/-- Whether a compound lists `y` does not change when a term is put for `x` in which `y` is not
free. -/
theorem binds_map_substitute {op : Term} {args : List Term} (hy : s.isFree y = false)
    (hx : binds (.atom x) op args = false) :
    binds (.atom y) op (args.map (substitute (.atom x) s)) = binds (.atom y) op args := by
  refine Bool.eq_iff_iff.mpr ⟨fun h => ?_, binds_map_of_binds hx⟩
  refine binds_of_binds_map hx (fun bound hs hopen => ?_) h
  -- The replacement has become the group of the quantifier, so it lists `y` itself.
  obtain ⟨-, group, rest, hargs, hmem⟩ := binds_atom_iff.mp h
  obtain ⟨a, args', rfl, ha, -⟩ := List.map_eq_cons_iff.mp hargs
  obtain ⟨-, hax⟩ : isQuantifier op ∧ a.isAtom x := by simpa using hopen
  obtain rfl := isAtom_iff.mp hax
  rw [substitute_atom, if_pos rfl] at ha
  exact Bool.eq_false_iff.mp hy (ha ▸ occursOutside_group.mpr ⟨_, hmem, occursOutside_atom.mpr rfl⟩)

/-- Below a compound that lists one of the atoms only the other substitution does anything. -/
theorem substitute_comm_of_binds {op : Term} {args : List Term} (hx : binds (.atom x) op args) :
    substitute (.atom y) t (substitute (.atom x) s (.app op args)) =
      substitute (.atom x) s (substitute (.atom y) t (.app op args)) := by
  rw [substitute_app_of_binds hx]
  cases hy : binds (.atom y) op args with
  | true => rw [substitute_app_of_binds hy, substitute_app_of_binds hx]
  | false => rw [substitute_app hy, substitute_app_of_binds (binds_map_of_binds hy hx)]

/-- **Independent substitutions commute**, in terms of any kind. -/
theorem substitute_comm (hne : x ≠ y) (hx : t.isFree x = false) (hy : s.isFree y = false)
    (e : Term) :
    substitute (.atom y) t (substitute (.atom x) s e) =
      substitute (.atom x) s (substitute (.atom y) t e) := by
  induction e using Term.walk with
  | atom z =>
      by_cases hzx : z = x
      · rw [hzx, substitute_atom, if_pos rfl, substitute_of_not_isFree hy, substitute_atom,
          if_neg hne, substitute_atom, if_pos rfl]
      · by_cases hzy : z = y
        · rw [hzy, substitute_atom, if_neg (Ne.symm hne), substitute_atom, if_pos rfl,
            substitute_of_not_isFree hx]
        · simp [hzx, hzy]
  | app op args ih =>
      cases hbx : binds (.atom x) op args with
      | true => exact substitute_comm_of_binds hbx
      | false =>
          cases hby : binds (.atom y) op args with
          | true => exact (substitute_comm_of_binds hby).symm
          | false =>
              -- Neither substitution makes the compound list the atom of the other one.
              rw [substitute_app hbx, substitute_app ((binds_map_substitute hy hbx).trans hby),
                substitute_app hby, substitute_app ((binds_map_substitute hx hby).trans hbx),
                List.map_map, List.map_map]
              exact congrArg (Term.app op) (List.map_congr_left ih)
  | group items ih =>
      rw [substitute_group, substitute_group, substitute_group, substitute_group, List.map_map,
        List.map_map]
      exact congrArg Term.group (List.map_congr_left ih)
  | _ => simp [substitute, same]

end

/-! ### What substitution and resolving keep -/

/-- A property of terms that asks `Q` of the operator of every compound and the number of its
arguments. -/
structure IsHereditary (P : Term → Prop) (Q : Term → Nat → Prop) : Prop where
  app : ∀ op args, P (.app op args) ↔ Q op args.length ∧ ∀ a ∈ args, P a
  group : ∀ items, P (.group items) ↔ ∀ a ∈ items, P a

/-- Being an expression is such a property. -/
theorem isHereditary_isExpr : IsHereditary (fun t => t.isExpr)
    fun op n => (∃ name, op = .atom name ∧ name.isEmpty = false) ∧ n ≠ 0 where
  app op args := by simp [isExpr_app_iff, and_assoc]
  group _ := isExpr_group_iff

/-- A substitution that waits to be carried out. -/
def IsPending (op : Term) (n : Nat) : Prop := op = .atom substitutionName ∧ n = 3

/-- No part of the term is a substitution left symbolic. -/
def IsResolved (t : Term) : Prop :=
  ∀ phi x s, ¬ Within (FirstOrder.substituted phi x s) t

/-- The arguments of a pending substitution. -/
theorem IsPending.exists_eq {op : Term} {args : List Term} (h : IsPending op args.length) :
    ∃ phi x s, op = .atom substitutionName ∧ args = [phi, x, s] := by
  obtain ⟨phi, x, s, hargs⟩ := List.length_eq_three.mp h.2
  exact ⟨phi, x, s, h.1, hargs⟩

/-- Being resolved is such a property too. -/
theorem isHereditary_isResolved : IsHereditary IsResolved fun op n => ¬ IsPending op n where
  app op args := by
    constructor
    · intro h
      refine ⟨fun hpending => ?_, fun a ha phi x s hin => h phi x s (.arg ha hin)⟩
      obtain ⟨phi, x, s, rfl, rfl⟩ := hpending.exists_eq
      exact h phi x s (.whole _)
    · rintro ⟨hpending, hargs⟩ phi x s hin
      rcases within_app_iff.mp hin with heq | ⟨a, ha, hin⟩
      · cases heq
        exact hpending ⟨rfl, rfl⟩
      · exact hargs a ha phi x s hin
  group items := by
    constructor
    · exact fun h a ha phi x s hin => h phi x s (.item ha hin)
    · intro h phi x s hin
      rcases within_group_iff.mp hin with heq | ⟨a, ha, hin⟩
      · cases heq
      · exact h a ha phi x s hin

theorem resolveAll_eq_map (ts : List Term) : resolveAll ts = ts.map resolve := by
  induction ts with
  | nil => rfl
  | cons t ts ih => simp [resolveAll, ih]

/-- A compound that is no pending substitution stays as it is. -/
theorem resolveStep_of_not_isPending {op : Term} {args : List Term}
    (h : ¬ IsPending op args.length) : resolveStep op args = .app op args := by
  unfold resolveStep
  split
  · exact if_neg fun hop => h ⟨isAtom_iff.mp hop, rfl⟩
  · rfl

section

variable {P : Term → Prop} {Q : Term → Nat → Prop} (h : IsHereditary P Q)

include h

/-- **Substitution keeps such a property**, whatever the term is that it is for. -/
theorem IsHereditary.substitute {x s t : Term} (hs : P s) (ht : P t) : P (substitute x s t) := by
  induction t using Term.walk with
  | app op args ih =>
      obtain ⟨hop, hargs⟩ := (h.app op args).mp ht
      rw [Term.substitute, substituteAll_eq_map]
      split_ifs
      · exact hs
      · exact ht
      · refine (h.app _ _).mpr ⟨by rwa [List.length_map], fun b hb => ?_⟩
        obtain ⟨a, ha, rfl⟩ := List.mem_map.mp hb
        exact ih a ha (hargs a ha)
  | group items ih =>
      rw [Term.substitute, substituteAll_eq_map]
      split_ifs
      · exact hs
      · refine (h.group _).mpr fun b hb => ?_
        obtain ⟨a, ha, rfl⟩ := List.mem_map.mp hb
        exact ih a ha ((h.group items).mp ht a ha)
  | _ =>
      simp only [Term.substitute]
      split_ifs
      · exact hs
      · exact ht

/-- A compound with resolved arguments is carried out or stays as it is. -/
theorem IsHereditary.resolveStep {op : Term} {args : List Term} (hargs : ∀ a ∈ args, P a)
    (hop : ¬ IsPending op args.length → Q op args.length) : P (resolveStep op args) := by
  by_cases hpending : IsPending op args.length
  · obtain ⟨phi, x, s, rfl, rfl⟩ := hpending.exists_eq
    exact h.substitute (hargs s (by simp)) (hargs phi (by simp))
  · rw [resolveStep_of_not_isPending hpending]
    exact (h.app op args).mpr ⟨hop hpending, hargs⟩

/-- **Resolving keeps such a property.** -/
theorem IsHereditary.resolve {t : Term} (ht : P t) : P (resolve t) := by
  induction t using Term.walk with
  | app op args ih =>
      obtain ⟨hop, hargs⟩ := (h.app op args).mp ht
      rw [Term.resolve, resolveAll_eq_map]
      refine h.resolveStep (fun b hb => ?_) fun _ => by rwa [List.length_map]
      obtain ⟨a, ha, rfl⟩ := List.mem_map.mp hb
      exact ih a ha (hargs a ha)
  | group items ih =>
      rw [Term.resolve, resolveAll_eq_map]
      refine (h.group _).mpr fun b hb => ?_
      obtain ⟨a, ha, rfl⟩ := List.mem_map.mp hb
      exact ih a ha ((h.group items).mp ht a ha)
  | _ => exact ht

end

/-! ### Resolved terms -/

/-- **Resolving leaves no substitution behind.** -/
theorem isResolved_resolve (t : Term) : IsResolved (resolve t) := by
  induction t using Term.walk with
  | app op args ih =>
      rw [resolve, resolveAll_eq_map]
      refine isHereditary_isResolved.resolveStep (fun b hb => ?_) id
      obtain ⟨a, ha, rfl⟩ := List.mem_map.mp hb
      exact ih a ha
  | group items ih =>
      rw [resolve, resolveAll_eq_map]
      refine (isHereditary_isResolved.group _).mpr fun b hb => ?_
      obtain ⟨a, ha, rfl⟩ := List.mem_map.mp hb
      exact ih a ha
  | _ =>
      intro phi x s hin
      cases hin

/-- Resolving changes nothing in a term without substitutions. -/
theorem resolve_of_isResolved {t : Term} (ht : IsResolved t) : resolve t = t := by
  induction t using Term.walk with
  | app op args ih =>
      obtain ⟨hpending, hargs⟩ := (isHereditary_isResolved.app op args).mp ht
      have hmap : args.map resolve = args :=
        (List.map_congr_left fun a ha => ih a ha (hargs a ha)).trans (List.map_id' args)
      rw [resolve, resolveAll_eq_map, hmap, resolveStep_of_not_isPending hpending]
  | group items ih =>
      have hitems := (isHereditary_isResolved.group items).mp ht
      have hmap : items.map resolve = items :=
        (List.map_congr_left fun a ha => ih a ha (hitems a ha)).trans (List.map_id' items)
      rw [resolve, resolveAll_eq_map, hmap]
  | _ => rfl

/-! ### Expressions -/

/-- Substitution in an expression returns. -/
theorem substitute?_of_isExpr {t : Term} (ht : t.isExpr) (x s : Term) :
    substitute? x s t = .ok (substitute x s t) :=
  orFault_eq_ok_iff.mpr ⟨substituteFault?_of_isExpr ht, rfl⟩

/-- Resolving several terms fails nowhere if it fails in none of them. -/
theorem resolveFaultIn?_eq_none {ts : List Term} (h : ∀ t ∈ ts, resolveFault? t = none) :
    resolveFaultIn? ts = none := by
  induction ts with
  | nil => rfl
  | cons t ts ih =>
      rw [resolveFaultIn?, h t (by simp), ih fun u hu => h u (by simp [hu]), Option.or_none]

/-- Resolving an expression fails nowhere: the substitutions are carried out in expressions. -/
theorem resolveFault?_of_isExpr {t : Term} (ht : t.isExpr) : resolveFault? t = none := by
  induction t using Term.walk with
  | app op args ih =>
      obtain ⟨-, -, hargs⟩ := isExpr_app_iff.mp ht
      rw [resolveFault?, resolveFaultIn?_eq_none fun a ha => ih a ha (hargs a ha), Option.none_or,
        resolveAll_eq_map]
      unfold resolveStepFault?
      split
      next phi x s heq =>
        have hphi : phi ∈ args.map resolve := by simp [heq]
        obtain ⟨a, ha, rfl⟩ := List.mem_map.mp hphi
        rw [substituteFault?_of_isExpr (isHereditary_isExpr.resolve (hargs a ha)), ite_self]
      next => rfl
  | group items ih =>
      exact resolveFaultIn?_eq_none fun a ha => ih a ha (isExpr_group_iff.mp ht a ha)
  | hollow => simp [isExpr] at ht
  | _ => rfl

/-- Resolving an expression returns. -/
theorem resolve?_of_isExpr {t : Term} (ht : t.isExpr) : resolve? t = .ok (resolve t) :=
  orFault_eq_ok_iff.mpr ⟨resolveFault?_of_isExpr ht, rfl⟩

/-- **Independent substitutions commute.** Substitutions for two different atoms in an expression,
one after the other, return in both orders and with the same result, if neither atom is free in
the expression that is put for the other one. -/
theorem substitute?_independent (e s t : Term) (x y : String) (he : e.isExpr) (hs : s.isExpr)
    (ht : t.isExpr) (hne : x ≠ y) (hx : t.isFree x = false) (hy : s.isFree y = false) :
    ∃ first second result,
      substitute? (.atom x) s e = .ok first ∧ substitute? (.atom y) t first = .ok result ∧
        substitute? (.atom y) t e = .ok second ∧ substitute? (.atom x) s second = .ok result := by
  refine ⟨_, _, substitute (.atom y) t (substitute (.atom x) s e), substitute?_of_isExpr he _ _,
    substitute?_of_isExpr (isHereditary_isExpr.substitute hs he) _ _,
    substitute?_of_isExpr he _ _, ?_⟩
  rw [substitute_comm hne hx hy]
  exact substitute?_of_isExpr (isHereditary_isExpr.substitute ht he) _ _

/-- In `(and (forall x (p x y)) (exists [y] (q x y)))` the group `[x z]` for `x` turns the first
compound into a quantifier, and `(forall [x] (r x))` for `y` holds an `x` that is not free. -/
theorem substitute?_independent_new_quantifier :
    let s := Term.group [.atom "x", .atom "z"]
    let t := FirstOrder.forAll (.atom "x") (ofName "r" [.atom "x"])
    let e := ofName "and" [ofName "forall" [.atom "x", ofName "p" [.atom "x", .atom "y"]],
      FirstOrder.thereIs (.atom "y") (ofName "q" [.atom "x", .atom "y"])]
    let first := ofName "and" [ofName "forall" [s, ofName "p" [s, .atom "y"]],
      FirstOrder.thereIs (.atom "y") (ofName "q" [s, .atom "y"])]
    let second := ofName "and" [ofName "forall" [.atom "x", ofName "p" [.atom "x", t]],
      FirstOrder.thereIs (.atom "y") (ofName "q" [.atom "x", .atom "y"])]
    let result := ofName "and" [ofName "forall" [s, ofName "p" [s, t]],
      FirstOrder.thereIs (.atom "y") (ofName "q" [s, .atom "y"])]
    (e.isExpr ∧ s.isExpr ∧ t.isExpr ∧ t.isFree "x" = false ∧ s.isFree "y" = false) ∧
      substitute? (.atom "x") s e = .ok first ∧ substitute? (.atom "y") t first = .ok result ∧
        substitute? (.atom "y") t e = .ok second ∧
        substitute? (.atom "x") s second = .ok result := by
  intro s t e first second result
  have he : e.isExpr := by decide
  have hs : s.isExpr := by decide
  have ht : t.isExpr := by decide
  have hx : t.isFree "x" = false := by decide
  have hy : s.isFree "y" = false := by decide
  have hfirst : substitute? (.atom "x") s e = .ok first := rfl
  have hresult : substitute? (.atom "y") t first = .ok result := rfl
  have hsecond : substitute? (.atom "y") t e = .ok second := rfl
  obtain ⟨_, _, _, hfirst', hresult', hsecond', hagain⟩ :=
    substitute?_independent e s t "x" "y" he hs ht (by decide) hx hy
  obtain rfl := Except.ok.inj (hfirst.symm.trans hfirst')
  obtain rfl := Except.ok.inj (hresult.symm.trans hresult')
  obtain rfl := Except.ok.inj (hsecond.symm.trans hsecond')
  exact ⟨⟨he, hs, ht, hx, hy⟩, hfirst, hresult, hsecond, hagain⟩

/-- **Resolving reaches a normal form.** An expression is resolved to an expression of which no
part is a substitution left symbolic. Resolving once more changes nothing, and the expressions
that stay as they are are exactly those without such a part. -/
theorem resolve?_normal (e : Term) (he : e.isExpr) :
    ∃ result, resolve? e = .ok result ∧ result.isExpr ∧
      (∀ phi x s, ¬ Within (FirstOrder.substituted phi x s) result) ∧
      resolve? result = .ok result ∧
      (result = e ↔ ∀ phi x s, ¬ Within (FirstOrder.substituted phi x s) e) := by
  have hexpr : (resolve e).isExpr := isHereditary_isExpr.resolve he
  have hnormal : IsResolved (resolve e) := isResolved_resolve e
  refine ⟨resolve e, resolve?_of_isExpr he, hexpr, hnormal, ?_, fun heq => ?_, fun h => ?_⟩
  · rw [resolve?_of_isExpr hexpr, resolve_of_isResolved hnormal]
  · exact heq ▸ hnormal
  · exact resolve_of_isResolved h

/-- In `(not (substitution phi v s))` the formula `phi` is a quantifier over a substitution, the
atom `v` is the result of one, and `s` is a group with one as its item. -/
theorem resolve?_normal_nested :
    let phi := FirstOrder.forAll (.atom "y") (FirstOrder.substituted
      (ofName "p" [.atom "z", .atom "x"]) (.atom "z") (ofName "f" [.atom "y"]))
    let v := FirstOrder.substituted (.atom "y") (.atom "y") (.atom "x")
    let s := Term.group [FirstOrder.substituted (.atom "z") (.atom "z") (.atom "c")]
    let e := ofName "not" [FirstOrder.substituted phi v s]
    let result := ofName "not" [FirstOrder.forAll (.atom "y")
      (ofName "p" [ofName "f" [.atom "y"], .group [.atom "c"]])]
    e.isExpr ∧ resolve? e = .ok result ∧
      (∀ phi x s, ¬ Within (FirstOrder.substituted phi x s) result) ∧
      resolve? result = .ok result := by
  intro phi v s e result
  have he : e.isExpr := by decide
  have hresult : resolve? e = .ok result := rfl
  obtain ⟨_, heq, -, hnormal, hagain, -⟩ := resolve?_normal e he
  obtain rfl := Except.ok.inj (hresult.symm.trans heq)
  exact ⟨he, hresult, hnormal, hagain⟩

end Deduction.Term
