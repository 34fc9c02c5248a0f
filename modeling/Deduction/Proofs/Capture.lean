import Deduction.Application
import Deduction.Logic.FirstOrder
import Deduction.Proofs.Terms

/-!
# Substitution and the atoms that it captures

The quantifiers bind the atoms in their group, and an atom is free in a term if it has an
occurrence below no quantifier that lists it. Substitution for `x` leaves a term alone below the
quantifiers that list `x`. It does not look at the other quantifiers: where `x` stands below one
that lists an atom of the replacement, that atom is captured. So the free atoms of the result are
among those of the term, other than `x`, and those of the replacement, but not always all of
them. We say exactly when they are.

A replacement that is a group can do more than that. Where `x` stands in the place of the group
of a quantifier, the replacement makes a quantifier out of a compound that bound nothing before.

## Main definitions

* `Term.occursOutside`, `Term.isFree`: occurrences that no quantifier hides, and free atoms.
* `Term.captures`: is an atom captured wherever it is put for `x`?
* `Term.standsAsBinder`: does `x` stand in the place of the group of a quantifier?
* `Term.ComesThrough`: the atoms that substitution leaves free.

## Main results

* `Term.comesThrough_of_isFree_substitute`: no free atom of the result comes from elsewhere.
* `Term.isFree_substitute_of_comesThrough`: what is not captured is free in the result.
* `Term.free_substitute_iff_not_captured`: when the free atoms of the result are all those of the
  term and of the replacement.
* `Term.forall_elim_captures`: the elimination of a quantifier that captures an atom.
-/

namespace Deduction.Term

/-! ### Free atoms -/

mutual

/-- Does `x` occur at a place below no quantifier that lists one of the names? -/
def occursOutside (names : List String) (x : String) : Term → Bool
  | .atom s => s == x
  | .app op args =>
    !(names.any fun n => binds (.atom n) op args) && occursOutsideIn names x args
  | .group items => occursOutsideIn names x items
  | _ => false

/-- `occursOutside` in one of several terms. -/
def occursOutsideIn (names : List String) (x : String) : List Term → Bool
  | [] => false
  | t :: ts => occursOutside names x t || occursOutsideIn names x ts

end

/-- Is the atom free in the term: does it occur below no quantifier that lists it? -/
def isFree (t : Term) (a : String) : Bool := occursOutside [a] a t

/-- Is `a` captured wherever it is put for a free occurrence of `x`, and is there one? -/
def captures (t : Term) (x a : String) : Bool := t.isFree x && !occursOutside [x, a] x t

mutual

/-- Does `x`, free, stand in the place of the group of a quantifier? -/
def standsAsBinder (x : String) : Term → Bool
  | .app op args =>
    !binds (.atom x) op args
      && (isQuantifier op && args.head?.any (isAtom x) || standsAsBinderIn x args)
  | .group items => standsAsBinderIn x items
  | _ => false

/-- `standsAsBinder` in one of several terms. -/
def standsAsBinderIn (x : String) : List Term → Bool
  | [] => false
  | t :: ts => standsAsBinder x t || standsAsBinderIn x ts

end

theorem occursOutsideIn_eq_any (names : List String) (x : String) (ts : List Term) :
    occursOutsideIn names x ts = ts.any (occursOutside names x) := by
  induction ts with
  | nil => rfl
  | cons t ts ih => simp [occursOutsideIn, ih]

theorem standsAsBinderIn_eq_any (x : String) (ts : List Term) :
    standsAsBinderIn x ts = ts.any (standsAsBinder x) := by
  induction ts with
  | nil => rfl
  | cons t ts ih => simp [standsAsBinderIn, ih]

@[simp] theorem occursOutside_atom {names : List String} {x s : String} :
    occursOutside names x (.atom s) ↔ s = x := by
  simp [occursOutside]

@[simp] theorem occursOutside_app {names : List String} {x : String} {op : Term}
    {args : List Term} :
    occursOutside names x (.app op args) ↔
      (∀ n ∈ names, binds (.atom n) op args = false) ∧ ∃ t ∈ args, occursOutside names x t := by
  simp [occursOutside, occursOutsideIn_eq_any]

@[simp] theorem occursOutside_group {names : List String} {x : String} {items : List Term} :
    occursOutside names x (.group items) ↔ ∃ t ∈ items, occursOutside names x t := by
  simp [occursOutside, occursOutsideIn_eq_any]

/-- With fewer names there are fewer quantifiers to stay outside of. -/
theorem occursOutside_mono {names more : List String} (h : ∀ n ∈ names, n ∈ more) {x : String}
    {t : Term} (ht : occursOutside more x t) : occursOutside names x t := by
  induction t using Term.walk with
  | atom s => simpa using ht
  | app op args ih =>
      obtain ⟨hbinds, u, hu, hux⟩ := occursOutside_app.mp ht
      exact occursOutside_app.mpr ⟨fun n hn => hbinds n (h n hn), u, hu, ih u hu hux⟩
  | group items ih =>
      obtain ⟨u, hu, hux⟩ := occursOutside_group.mp ht
      exact occursOutside_group.mpr ⟨u, hu, ih u hu hux⟩
  | _ => simp [occursOutside] at ht

/-! ### Quantifiers under substitution -/

/-- A term is the same as an atom exactly when it is that atom. -/
theorem same_atom_iff {t : Term} {a : String} : t.same (.atom a) ↔ t = .atom a := by
  cases t <;> simp [same]

/-- A compound binds an atom when it is a quantifier and its group lists the atom. -/
theorem binds_atom_iff {a : String} {op : Term} {args : List Term} :
    binds (.atom a) op args ↔
      isQuantifier op ∧ ∃ bound rest, args = .group bound :: rest ∧ .atom a ∈ bound := by
  unfold binds
  rw [Bool.and_eq_true]
  refine and_congr_right fun _ => ?_
  constructor
  · intro h
    split at h
    · rename_i bound rest
      obtain ⟨t, ht, hta⟩ := List.any_eq_true.mp h
      exact ⟨bound, rest, rfl, same_atom_iff.mp hta ▸ ht⟩
    · cases h
  · rintro ⟨bound, rest, rfl, ha⟩
    exact List.any_eq_true.mpr ⟨Term.atom a, ha, same_atom_iff.mpr rfl⟩

theorem substituteAll_eq_map (x s : Term) (ts : List Term) :
    substituteAll x s ts = ts.map (substitute x s) := by
  induction ts with
  | nil => rfl
  | cons t ts ih => simp [substituteAll, ih]

section

variable {x : String} {s : Term}

@[simp] theorem substitute_atom (y : String) :
    substitute (.atom x) s (.atom y) = if y = x then s else .atom y := by
  simp [substitute, same]

theorem substitute_app_of_binds {op : Term} {args : List Term}
    (h : binds (.atom x) op args) : substitute (.atom x) s (.app op args) = .app op args := by
  simp [substitute, same, h]

theorem substitute_app {op : Term} {args : List Term} (h : binds (.atom x) op args = false) :
    substitute (.atom x) s (.app op args) = .app op (args.map (substitute (.atom x) s)) := by
  simp [substitute, same, h, substituteAll_eq_map]

@[simp] theorem substitute_group (items : List Term) :
    substitute (.atom x) s (.group items) = .group (items.map (substitute (.atom x) s)) := by
  simp [substitute, same, substituteAll_eq_map]

/-- Apart from `x` itself, only the atom `a` becomes the atom `a`. -/
theorem substitute_eq_atom_iff {t : Term} (ht : t ≠ .atom x) {a : String} :
    substitute (.atom x) s t = .atom a ↔ t = .atom a := by
  cases t with
  | atom y =>
      have hy : y ≠ x := fun h => ht (h ▸ rfl)
      simp [hy]
  | app op args =>
      cases h : binds (.atom x) op args
      · simp [substitute_app h]
      · simp [substitute_app_of_binds h]
  | group items => simp
  | _ => simp [substitute, same]

/-- A quantifier goes on listing the atoms that it lists. -/
theorem binds_map_of_binds {a : String} {op : Term} {args : List Term}
    (hx : binds (.atom x) op args = false) (h : binds (.atom a) op args) :
    binds (.atom a) op (args.map (substitute (.atom x) s)) := by
  obtain ⟨hop, bound, rest, rfl, ha⟩ := binds_atom_iff.mp h
  have hne : Term.atom a ≠ .atom x := fun heq =>
    absurd (heq ▸ h) (by simp [hx])
  rw [List.map_cons, substitute_group]
  refine binds_atom_iff.mpr ⟨hop, _, _, rfl, List.mem_map.mpr ⟨Term.atom a, ha, ?_⟩⟩
  exact (substitute_eq_atom_iff hne).mpr rfl

/-- And it lists no other atom, unless `x` stands in the place of its group. -/
theorem binds_of_binds_map {a : String} {op : Term} {args : List Term}
    (hx : binds (.atom x) op args = false)
    (hopen : ∀ bound, s = .group bound → ¬ (isQuantifier op && args.head?.any (isAtom x)))
    (h : binds (.atom a) op (args.map (substitute (.atom x) s))) : binds (.atom a) op args := by
  obtain ⟨hop, bound, rest, hargs, ha⟩ := binds_atom_iff.mp h
  obtain ⟨t, args', rfl, ht, -⟩ := List.map_eq_cons_iff.mp hargs
  cases t with
  | atom y =>
      by_cases hy : y = x
      · rw [substitute_atom, if_pos hy] at ht
        exact absurd (by simp [hop, isAtom, hy]) (hopen bound ht)
      · simp [hy] at ht
  | group items =>
      rw [substitute_group, group.injEq] at ht
      rw [← ht] at ha
      obtain ⟨u, hu, hua⟩ := List.mem_map.mp ha
      have hne : u ≠ .atom x := by
        rintro rfl
        exact absurd (binds_atom_iff.mpr ⟨hop, items, args', rfl, hu⟩) (by simp [hx])
      exact binds_atom_iff.mpr
        ⟨hop, items, args', rfl, (substitute_eq_atom_iff hne).mp hua ▸ hu⟩
  | app op' args'' =>
      cases hb : binds (.atom x) op' args''
      · simp [substitute_app hb] at ht
      · simp [substitute_app_of_binds hb] at ht
  | _ => simp [substitute, same] at ht

/-! ### Free atoms under substitution -/

/-- The atom is free in the term and other than `x`, or it is free in `s` and `x` has a free
occurrence where it is not captured. -/
def ComesThrough (x : String) (s : Term) (a : String) (t : Term) : Prop :=
  a ≠ x ∧ t.isFree a ∨ occursOutside [x, a] x t ∧ s.isFree a

/-- What comes through a compound that does not bind `x` comes through an argument. -/
theorem comesThrough_app_iff {a : String} {op : Term} {args : List Term}
    (hx : binds (.atom x) op args = false) :
    ComesThrough x s a (.app op args) ↔
      binds (.atom a) op args = false ∧ ∃ t ∈ args, ComesThrough x s a t := by
  constructor
  · rintro (⟨hne, hfree⟩ | ⟨hout, hs⟩)
    · obtain ⟨hbinds, t, ht, hta⟩ := occursOutside_app.mp hfree
      exact ⟨hbinds a (by simp), t, ht, .inl ⟨hne, hta⟩⟩
    · obtain ⟨hbinds, t, ht, hta⟩ := occursOutside_app.mp hout
      exact ⟨hbinds a (by simp), t, ht, .inr ⟨hta, hs⟩⟩
  · rintro ⟨hbinds, t, ht, ⟨hne, hta⟩ | ⟨hta, hs⟩⟩
    · exact .inl ⟨hne, occursOutside_app.mpr ⟨by simpa using hbinds, t, ht, hta⟩⟩
    · exact .inr ⟨occursOutside_app.mpr ⟨by simp [hx, hbinds], t, ht, hta⟩, hs⟩

/-- What comes through a group comes through an item. -/
theorem comesThrough_group_iff {a : String} {items : List Term} :
    ComesThrough x s a (.group items) ↔ ∃ t ∈ items, ComesThrough x s a t := by
  constructor
  · rintro (⟨hne, hfree⟩ | ⟨hout, hs⟩)
    · obtain ⟨t, ht, hta⟩ := occursOutside_group.mp hfree
      exact ⟨t, ht, .inl ⟨hne, hta⟩⟩
    · obtain ⟨t, ht, hta⟩ := occursOutside_group.mp hout
      exact ⟨t, ht, .inr ⟨hta, hs⟩⟩
  · rintro ⟨t, ht, ⟨hne, hta⟩ | ⟨hta, hs⟩⟩
    · exact .inl ⟨hne, occursOutside_group.mpr ⟨t, ht, hta⟩⟩
    · exact .inr ⟨occursOutside_group.mpr ⟨t, ht, hta⟩, hs⟩

/-- **No free atom of the result comes from elsewhere.** -/
theorem comesThrough_of_isFree_substitute {a : String} {t : Term}
    (h : (substitute (.atom x) s t).isFree a) : ComesThrough x s a t := by
  induction t using Term.walk with
  | atom y =>
      by_cases hy : y = x
      · rw [substitute_atom, if_pos hy] at h
        exact .inr ⟨occursOutside_atom.mpr hy, h⟩
      · rw [substitute_atom, if_neg hy] at h
        have hya : y = a := occursOutside_atom.mp h
        exact .inl ⟨fun hax => hy (hya.trans hax), h⟩
  | app op args ih =>
      cases hx : binds (.atom x) op args with
      | true =>
          rw [substitute_app_of_binds hx] at h
          refine .inl ⟨?_, h⟩
          rintro rfl
          simpa [hx] using (occursOutside_app.mp h).1 a
      | false =>
          rw [substitute_app hx] at h
          obtain ⟨hafter, _, hmem, hua⟩ := occursOutside_app.mp h
          obtain ⟨u, hu, rfl⟩ := List.mem_map.mp hmem
          refine (comesThrough_app_iff hx).mpr ⟨?_, u, hu, ih u hu hua⟩
          refine Bool.eq_false_iff.mpr fun hbefore => ?_
          simpa [hafter a] using @binds_map_of_binds x s a op args hx hbefore
  | group items ih =>
      rw [substitute_group] at h
      obtain ⟨_, hmem, hua⟩ := occursOutside_group.mp h
      obtain ⟨u, hu, rfl⟩ := List.mem_map.mp hmem
      exact comesThrough_group_iff.mpr ⟨u, hu, ih u hu hua⟩
  | _ => simp [substitute, same, isFree, occursOutside] at h

/-- **What comes through is free in the result**, as long as the replacement makes no new
quantifier. -/
theorem isFree_substitute_of_comesThrough {a : String} {t : Term}
    (hopen : ∀ bound, s = .group bound → standsAsBinder x t = false)
    (h : ComesThrough x s a t) : (substitute (.atom x) s t).isFree a := by
  induction t using Term.walk with
  | atom y =>
      rcases h with ⟨hne, hfree⟩ | ⟨hout, hs⟩
      · have hya : y = a := occursOutside_atom.mp hfree
        rw [substitute_atom, if_neg (hya ▸ hne)]
        exact hfree
      · rwa [substitute_atom, if_pos (occursOutside_atom.mp hout)]
  | app op args ih =>
      cases hx : binds (.atom x) op args with
      | true =>
          rw [substitute_app_of_binds hx]
          rcases h with ⟨-, hfree⟩ | ⟨hout, -⟩
          · exact hfree
          · simpa [hx] using (occursOutside_app.mp hout).1 x
      | false =>
          have hparts : ∀ bound, s = .group bound →
              (isQuantifier op && args.head?.any (isAtom x)) = false ∧
                ∀ u ∈ args, standsAsBinder x u = false := by
            intro bound hs
            simpa [standsAsBinder, standsAsBinderIn_eq_any, hx] using hopen bound hs
          obtain ⟨hbefore, u, hu, hua⟩ := (comesThrough_app_iff hx).mp h
          rw [substitute_app hx]
          refine occursOutside_app.mpr ⟨?_, _, List.mem_map_of_mem hu,
            ih u hu (fun bound hs => (hparts bound hs).2 u hu) hua⟩
          intro n hn
          obtain rfl := List.mem_singleton.mp hn
          refine Bool.eq_false_iff.mpr fun hafter => ?_
          have hbound := binds_of_binds_map hx
            (fun bound hs => by simp [(hparts bound hs).1]) hafter
          simp [hbefore] at hbound
  | group items ih =>
      obtain ⟨u, hu, hua⟩ := comesThrough_group_iff.mp h
      rw [substitute_group]
      refine occursOutside_group.mpr ⟨_, List.mem_map_of_mem hu, ih u hu (fun bound hs => ?_) hua⟩
      have hitems : ∀ t ∈ items, standsAsBinder x t = false := by
        simpa [standsAsBinder, standsAsBinderIn_eq_any] using hopen bound hs
      exact hitems u hu
  | _ => simp [ComesThrough, isFree, occursOutside] at h

/-- An atom of the replacement comes through where `x` is free, unless it is captured. -/
theorem comesThrough_or_captures {a : String} {t : Term} (hx : t.isFree x) (ha : s.isFree a) :
    ComesThrough x s a t ∨ t.captures x a := by
  cases hout : occursOutside [x, a] x t with
  | true => exact .inl (.inr ⟨hout, ha⟩)
  | false => exact .inr (by simp [captures, hx, hout])

/-- What comes through is free in the term, or `x` is free there and it is free in `s`. -/
theorem ComesThrough.isFree {a : String} {t : Term} (h : ComesThrough x s a t) :
    a ≠ x ∧ t.isFree a ∨ t.isFree x ∧ s.isFree a :=
  h.imp_right (And.imp_left (occursOutside_mono (by simp)))

/-! ### Substitution of expressions -/

/-- Substitution in several terms fails nowhere if it fails in none of them. -/
theorem substituteFaultIn?_eq_none {y : Term} {ts : List Term}
    (h : ∀ t ∈ ts, substituteFault? y t = none) : substituteFaultIn? y ts = none := by
  induction ts with
  | nil => rfl
  | cons t ts ih =>
      rw [substituteFaultIn?, h t (by simp), ih fun u hu => h u (by simp [hu]), Option.or_none]

/-- Substitution in an expression fails nowhere. -/
theorem substituteFault?_of_isExpr {y t : Term} (ht : t.isExpr) : substituteFault? y t = none := by
  induction t using Term.walk with
  | app op args ih =>
      obtain ⟨⟨name, rfl, -⟩, hne, hargs⟩ := isExpr_app_iff.mp ht
      have hall : substituteFaultIn? y args = none :=
        substituteFaultIn?_eq_none fun a ha => ih a ha (hargs a ha)
      simp [substituteFault?, unkeyed?, hne, hall]
  | group items ih =>
      have hall : substituteFaultIn? y items = none :=
        substituteFaultIn?_eq_none fun a ha => ih a ha (isExpr_group_iff.mp ht a ha)
      simp [substituteFault?, hall]
  | hollow => simp [isExpr] at ht
  | _ => simp [substituteFault?]

/-- A value with a fault is returned when there is none. -/
theorem orFault_eq_ok_iff {α : Type} {fault : Option Error} {value result : α} :
    orFault fault value = .ok result ↔ fault = none ∧ value = result := by
  cases fault <;> simp [orFault]

/-- A substitution left symbolic is carried out in the resolved term. -/
theorem resolve?_substituted {phi phi' s' : Term} (hphi : phi.isExpr)
    (h : resolve? phi' = .ok phi) (hs : resolve? s' = .ok s) :
    resolve? (FirstOrder.substituted phi' (.atom x) s') = .ok (substitute (.atom x) s phi) := by
  obtain ⟨hfault, rfl⟩ := orFault_eq_ok_iff.mp h
  obtain ⟨hfault', rfl⟩ := orFault_eq_ok_iff.mp hs
  refine orFault_eq_ok_iff.mpr ⟨?_, ?_⟩
  · simp [FirstOrder.substituted, ofName, resolveFault?, resolveFaultIn?, resolveStepFault?,
      resolveAll, resolve, hfault, hfault', substituteFault?_of_isExpr hphi]
  · simp [FirstOrder.substituted, ofName, resolve, resolveAll, resolveStep, isAtom]

end

/-- **When substitution captures nothing.** Substitution for the atom `x` in an expression
returns, and so does the resolution of a substitution left symbolic in a conclusion, with the same
result. The free atoms of the result are always among those of the expression, other than `x`,
and those of the replacement if `x` is free in the expression. Unless the replacement is a group
that `x` takes into the place of a binder, they are all of them exactly if every free atom of the
replacement that is captured wherever it is put is free in the expression anyway. -/
theorem free_substitute_iff_not_captured (phi s : Term) (x : String) (hphi : phi.isExpr) :
    ∃ result, substitute? (.atom x) s phi = .ok result ∧
      (∀ phi' s', resolve? phi' = .ok phi → resolve? s' = .ok s →
        resolve? (FirstOrder.substituted phi' (.atom x) s') = .ok result) ∧
      (∀ a, result.isFree a → a ≠ x ∧ phi.isFree a ∨ phi.isFree x ∧ s.isFree a) ∧
      ((∀ bound, s = .group bound → standsAsBinder x phi = false) →
        ((∀ a, result.isFree a ↔ a ≠ x ∧ phi.isFree a ∨ phi.isFree x ∧ s.isFree a) ↔
          ∀ a, phi.captures x a → s.isFree a → a ≠ x ∧ phi.isFree a)) := by
  have hsub : ∀ a, (substitute (.atom x) s phi).isFree a →
      a ≠ x ∧ phi.isFree a ∨ phi.isFree x ∧ s.isFree a := fun a ha =>
    (comesThrough_of_isFree_substitute ha).isFree
  refine ⟨substitute (.atom x) s phi, orFault_eq_ok_iff.mpr ⟨substituteFault?_of_isExpr hphi, rfl⟩,
    fun phi' s' h hs => resolve?_substituted hphi h hs, hsub, fun hopen => ⟨?_, ?_⟩⟩
  · intro hall a hcaptured ha
    obtain ⟨hx, hout⟩ : phi.isFree x ∧ occursOutside [x, a] x phi = false := by
      simpa [captures] using hcaptured
    rcases comesThrough_of_isFree_substitute ((hall a).mpr (.inr ⟨hx, ha⟩)) with hfree | ⟨hx', -⟩
    · exact hfree
    · simp [hout] at hx'
  · intro hcaptured a
    refine ⟨hsub a, fun h => isFree_substitute_of_comesThrough hopen ?_⟩
    rcases h with hfree | ⟨hx, ha⟩
    · exact .inl hfree
    · exact (comesThrough_or_captures hx ha).elim id fun hc => .inl (hcaptured a hc ha)

/-- Putting `(f c)` for `x` below a quantifier with two names and beside one that binds `x`: the
free atoms of the result are `z` of the term and `c` of the replacement. -/
theorem free_substitute_iff_not_captured_closed :
    let phi := ofName "and" [ofName "forall" [.group [.atom "y", .atom "w"],
      ofName "p" [.atom "x", .atom "y", .atom "z"]], FirstOrder.thereIs (.atom "x")
      (ofName "q" [.atom "x"])]
    let s := ofName "f" [.atom "c"]
    phi.isExpr ∧ ∃ result, substitute? (.atom "x") s phi = .ok result ∧
      ∀ a, result.isFree a ↔ a ≠ "x" ∧ phi.isFree a ∨ phi.isFree "x" ∧ s.isFree a := by
  intro phi s
  have hphi : phi.isExpr := by decide
  obtain ⟨result, hresult, -, -, hiff⟩ := free_substitute_iff_not_captured phi s "x" hphi
  refine ⟨hphi, result, hresult, (hiff fun bound hs => by simp [s, ofName] at hs).mpr ?_⟩
  intro a hcaptured ha
  obtain rfl : "c" = a := by simpa using (occursOutside_app.mp ha).2
  exact absurd hcaptured (by decide)

/-- **The elimination of a quantifier can capture.** From `(forall [x] (forall [y] (p x y)))` and
the term `y` the rule concludes `(forall [y] (p x y))` with `y` for `x`. Resolved, that is
`(forall [y] (p y y))`, in which `y` is not free any more. -/
theorem forall_elim_captures :
    let phi := FirstOrder.forAll (.atom "y") (ofName "p" [.atom "x", .atom "y"])
    let result := FirstOrder.forAll (.atom "y") (ofName "p" [.atom "y", .atom "y"])
    (Catalogue.mk (FirstOrder.basicRules.map .ofRule) FirstOrder.predicates false).apply
        ⟨.atom "forall-e", [FirstOrder.forAll (.atom "x") phi, FirstOrder.actual (.atom "y"),
          .wildcard], some .forward, none⟩ 1 =
        .ok (.value (FirstOrder.substituted phi (.atom "x") (.atom "y"))) ∧
      resolve? (FirstOrder.substituted phi (.atom "x") (.atom "y")) = .ok result ∧
      substitute? (.atom "x") (.atom "y") phi = .ok result ∧
      phi.isExpr ∧ phi.isFree "x" ∧ (Term.atom "y").isFree "y" ∧ result.isFree "y" = false :=
  ⟨rfl, rfl, rfl, by decide, by decide, by decide, by decide⟩

end Deduction.Term
