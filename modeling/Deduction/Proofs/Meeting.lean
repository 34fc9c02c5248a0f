import Deduction.Proofs.Terms
import Deduction.Unification

/-!
# The first difference of two terms

Unification looks for the first place where two terms differ (`Term.meet`). This module says
what the outcome means for the maps that make the terms equal: if there is no difference,
every map does; if neither side is a variable there, no map does; and if one side is a
variable, the maps that do are those that solve the equation at that place and everything
after it. So a difference loses no solution and adds none.

## Main definitions

* `Solves`: a map makes the two sides of every pair equal.
* `Difference`: what a difference at a variable says about a list of pairs.
* `Meeting.Explains`: what each outcome says about a list of pairs.

## Main results

* `explains_meet`: the first difference of two expressions explains them.
* `explains_meetPairs`: so does the first difference in a list of pairs.
-/

namespace Deduction

open Term

/-- The map makes the two sides of every pair equal. -/
def Solves (θ : Var → Term) (pairs : List (Term × Term)) : Prop :=
  ∀ p ∈ pairs, p.1.bind θ = p.2.bind θ

/-- The variables of pairs of terms. -/
def pairVars (pairs : List (Term × Term)) : List Var :=
  pairs.flatMap fun p => p.1.vars ++ p.2.vars

/-- Both sides of every pair are expressions. -/
def PairsOfExprs (pairs : List (Term × Term)) : Prop := ∀ p ∈ pairs, p.1.isExpr ∧ p.2.isExpr

@[simp] theorem solves_nil (θ : Var → Term) : Solves θ [] := by simp [Solves]

@[simp] theorem solves_cons {θ : Var → Term} {p : Term × Term} {pairs : List (Term × Term)} :
    Solves θ (p :: pairs) ↔ p.1.bind θ = p.2.bind θ ∧ Solves θ pairs := by
  simp [Solves]

@[simp] theorem solves_append {θ : Var → Term} {ps qs : List (Term × Term)} :
    Solves θ (ps ++ qs) ↔ Solves θ ps ∧ Solves θ qs := by
  simp only [Solves, List.mem_append]
  constructor
  · intro h
    exact ⟨fun p hp => h p (.inl hp), fun p hp => h p (.inr hp)⟩
  · rintro ⟨hp, hq⟩ p (h | h)
    · exact hp p h
    · exact hq p h

/-- A map solves the pairs of two equally long lists when it gives the lists one image. -/
theorem solves_zip_iff {θ : Var → Term} {as bs : List Term} (h : as.length = bs.length) :
    Solves θ (as.zip bs) ↔ as.map (bind θ) = bs.map (bind θ) := by
  induction as generalizing bs with
  | nil =>
      obtain rfl : bs = [] := List.length_eq_zero_iff.mp h.symm
      simp
  | cons a as ih =>
      obtain ⟨b, bs, rfl⟩ := List.exists_cons_of_length_eq_add_one h.symm
      have hs := @ih bs (by simpa using h)
      simp [hs]

theorem mem_pairVars {pairs : List (Term × Term)} {w : Var} :
    w ∈ pairVars pairs ↔ ∃ p ∈ pairs, w ∈ p.1.vars ∨ w ∈ p.2.vars := by
  simp [pairVars]

/-- The variables of the pairs of two lists occur in one of the lists. -/
theorem mem_pairVars_zip {as bs : List Term} {w : Var} (h : w ∈ pairVars (as.zip bs)) :
    (∃ a ∈ as, w ∈ a.vars) ∨ ∃ b ∈ bs, w ∈ b.vars := by
  obtain ⟨p, hp, hw⟩ := mem_pairVars.mp h
  obtain ⟨ha, hb⟩ := List.of_mem_zip hp
  rcases hw with hw | hw
  · exact .inl ⟨_, ha, hw⟩
  · exact .inr ⟨_, hb, hw⟩

theorem pairsOfExprs_zip {as bs : List Term} (ha : ∀ a ∈ as, a.isExpr)
    (hb : ∀ b ∈ bs, b.isExpr) : PairsOfExprs (as.zip bs) := by
  intro p hp
  obtain ⟨hpa, hpb⟩ := List.of_mem_zip hp
  exact ⟨ha _ hpa, hb _ hpb⟩

/-- What a difference at the variable `v`, with `t` on the other side and `rest` after it, says
about a list of pairs: solving the pairs is solving that equation and the rest, and nothing
occurs in the equation and the rest that does not occur in the pairs. -/
structure Difference (pairs : List (Term × Term)) (v : Var) (t : Term)
    (rest : List (Term × Term)) : Prop where
  ne_var : t ≠ .var v
  solves_iff : ∀ θ, Solves θ pairs ↔ θ v = t.bind θ ∧ Solves θ rest
  mem_pairVars : v ∈ pairVars pairs
  vars_subset : ∀ w ∈ t.vars, w ∈ pairVars pairs
  rest_subset : ∀ w ∈ pairVars rest, w ∈ pairVars pairs
  isExpr : t.isExpr
  restExprs : PairsOfExprs rest

/-- What the first difference says about a list of pairs. -/
inductive Meeting.Explains (pairs : List (Term × Term)) : Meeting → Prop
  | agree (h : ∀ θ, Solves θ pairs) : Explains pairs .agree
  | clash (h : ∀ θ, ¬ Solves θ pairs) : Explains pairs .clash
  | bind {v : Var} {t : Term} {rest : List (Term × Term)} (h : Difference pairs v t rest) :
      Explains pairs (.bind v t rest)

namespace Meeting.Explains

/-- An explanation carries over to pairs with the same solutions and no fewer variables. -/
theorem congr {ps qs : List (Term × Term)} {m : Meeting} (h : Explains ps m)
    (hs : ∀ θ, Solves θ qs ↔ Solves θ ps) (hv : ∀ w ∈ pairVars ps, w ∈ pairVars qs) :
    Explains qs m := by
  cases h with
  | agree h => exact .agree fun θ => (hs θ).mpr (h θ)
  | clash h => exact .clash fun θ hθ => h θ ((hs θ).mp hθ)
  | bind h =>
      exact .bind
        { ne_var := h.ne_var
          solves_iff := fun θ => (hs θ).trans (h.solves_iff θ)
          mem_pairVars := hv _ h.mem_pairVars
          vars_subset := fun w hw => hv w (h.vars_subset w hw)
          rest_subset := fun w hw => hv w (h.rest_subset w hw)
          isExpr := h.isExpr
          restExprs := h.restExprs }

/-- A variable on the left is bound to the other side. -/
theorem var_left {v : Var} {u : Term} (hne : u ≠ .var v) (hu : u.isExpr) :
    Explains [(.var v, u)] (.bind v u []) :=
  .bind
    { ne_var := hne
      solves_iff := fun θ => by simp [Term.bind]
      mem_pairVars := by simp [pairVars]
      vars_subset := fun w hw => by simp [pairVars, hw]
      rest_subset := fun w hw => by simp [pairVars] at hw
      isExpr := hu
      restExprs := fun p hp => by simp at hp }

/-- A variable on the right is bound to the other side. -/
theorem var_right {w : Var} {t : Term} (hne : t ≠ .var w) (ht : t.isExpr) :
    Explains [(t, .var w)] (.bind w t []) :=
  (var_left hne ht).congr (fun θ => by simp [eq_comm]) fun x hx => by
    simpa [pairVars, or_comm] using hx

/-- Terms that no map makes equal clash. -/
theorem clash_of_ne {t u : Term} (h : ∀ θ, t.bind θ ≠ u.bind θ) :
    Explains [(t, u)] .clash :=
  .clash fun θ hθ => h θ (hθ (t, u) (by simp))

/-- A difference in the first pair is a difference of the whole list, with the other pairs
left over. -/
theorem cons_bind {p : Term × Term} {pairs more : List (Term × Term)} {v : Var} {t : Term}
    (h : Difference [p] v t more) (hp : PairsOfExprs pairs) :
    Explains (p :: pairs) (.bind v t (more ++ pairs)) := by
  have hsub : ∀ w ∈ pairVars [p], w ∈ pairVars (p :: pairs) := by
    intro w hw
    simp only [pairVars, List.flatMap_cons, List.mem_append] at hw ⊢
    simp only [List.flatMap_nil, List.not_mem_nil, or_false] at hw
    exact .inl hw
  refine .bind
    { ne_var := h.ne_var
      solves_iff := ?_
      mem_pairVars := hsub _ h.mem_pairVars
      vars_subset := fun w hw => hsub w (h.vars_subset w hw)
      rest_subset := ?_
      isExpr := h.isExpr
      restExprs := ?_ }
  · intro θ
    have hθ := h.solves_iff θ
    simp only [solves_cons, solves_nil, and_true] at hθ
    rw [solves_cons, solves_append, hθ, and_assoc]
  · intro w hw
    simp only [pairVars, List.flatMap_append, List.mem_append] at hw
    rcases hw with hw | hw
    · exact hsub w (h.rest_subset w hw)
    · simp only [pairVars, List.flatMap_cons, List.mem_append]
      exact .inr hw
  · intro q hq
    rcases List.mem_append.mp hq with hq | hq
    · exact h.restExprs q hq
    · exact hp q hq

end Meeting.Explains

open Meeting (Explains)

/-- The first difference in a list of pairs explains it if that holds of each pair. -/
theorem explains_meetPairs_of_forall {pairs : List (Term × Term)} (hp : PairsOfExprs pairs)
    (h : ∀ p ∈ pairs, Explains [p] (meet p.1 p.2)) : Explains pairs (meetPairs pairs) := by
  induction pairs with
  | nil => exact .agree fun θ => solves_nil θ
  | cons p pairs ih =>
      have hps : PairsOfExprs pairs := fun q hq => hp q (by simp [hq])
      have hrest := ih hps fun q hq => h q (by simp [hq])
      have hfirst := h p (by simp)
      rw [meetPairs]
      revert hfirst
      cases meet p.1 p.2 with
      | agree =>
          rintro (hagree | _)
          refine hrest.congr (fun θ => ?_) fun w hw => ?_
          · rw [solves_cons, and_iff_right (hagree θ p (by simp))]
          · simp only [pairVars, List.flatMap_cons, List.mem_append]
            exact .inr hw
      | clash =>
          rintro (_ | hclash)
          refine .clash fun θ hθ => hclash θ ?_
          rw [solves_cons] at hθ
          simpa using hθ.1
      | bind v t more =>
          rintro (_ | _ | hdiff)
          exact .cons_bind hdiff hps

/-- The walk along two lists is the walk along their pairs. -/
theorem meetAll_eq_meetPairs (as bs : List Term) : meetAll as bs = meetPairs (as.zip bs) := by
  induction as generalizing bs with
  | nil => cases bs <;> simp [meetAll, meetPairs]
  | cons a as ih =>
      cases bs with
      | nil => simp [meetAll, meetPairs]
      | cons b bs =>
          simp only [meetAll, List.zip_cons_cons, meetPairs, ih]

/-- The walk along the parts of two terms explains the terms if they are equal exactly when
their parts are. -/
theorem explains_meetAll {t u : Term} {as bs : List Term} (hlen : as.length = bs.length)
    (ha : ∀ a ∈ as, a.isExpr) (hb : ∀ b ∈ bs, b.isExpr)
    (ih : ∀ a ∈ as, ∀ b ∈ bs, Explains [(a, b)] (meet a b))
    (hs : ∀ θ, t.bind θ = u.bind θ ↔ as.map (bind θ) = bs.map (bind θ))
    (hat : ∀ a ∈ as, ∀ w ∈ a.vars, w ∈ t.vars) (hbu : ∀ b ∈ bs, ∀ w ∈ b.vars, w ∈ u.vars) :
    Explains [(t, u)] (meetAll as bs) := by
  have hpairs : ∀ p ∈ as.zip bs, Explains [p] (meet p.1 p.2) := by
    intro p hp
    obtain ⟨hpa, hpb⟩ := List.of_mem_zip hp
    exact ih p.1 hpa p.2 hpb
  rw [meetAll_eq_meetPairs]
  refine (explains_meetPairs_of_forall (pairsOfExprs_zip ha hb) hpairs).congr ?_ ?_
  · intro θ
    simp [solves_zip_iff hlen, hs θ]
  · intro w hw
    rw [mem_pairVars]
    refine ⟨(t, u), by simp, ?_⟩
    rcases mem_pairVars_zip hw with ⟨a, ha', hw⟩ | ⟨b, hb', hw⟩
    · exact .inl (hat a ha' w hw)
    · exact .inr (hbu b hb' w hw)

/-- **The first difference of two expressions explains them.** Induction on the left term; the
right one is a variable, of the same kind, or of another kind. -/
theorem explains_meet {t u : Term} (ht : t.isExpr) (hu : u.isExpr) :
    Explains [(t, u)] (meet t u) := by
  induction t using Term.walk generalizing u with
  | atom s =>
      cases u with
      | atom s' =>
          have hm : meet (.atom s) (.atom s') = if s = s' then .agree else .clash := by
            simp [meet, same]
          rw [hm]
          by_cases h : s = s'
          · rw [if_pos h]
            exact .agree fun θ => by simp [h]
          · rw [if_neg h]
            exact .clash_of_ne fun θ => by simpa [Term.bind] using h
      | var w => exact .var_right (by simp) ht
      | _ => exact .clash_of_ne fun θ => by simp [Term.bind]
  | app op args ih =>
      obtain ⟨⟨name, rfl, -⟩, -, hargs⟩ := isExpr_app_iff.mp ht
      cases u with
      | app op' args' =>
          obtain ⟨⟨name', rfl, -⟩, -, hargs'⟩ := isExpr_app_iff.mp hu
          rw [meet]
          by_cases h : name = name' ∧ args.length = args'.length
          · obtain ⟨rfl, hlen⟩ := h
            rw [if_pos (by simp [same, hlen])]
            exact explains_meetAll hlen hargs hargs'
              (fun a ha b hb => ih a ha (hargs a ha) (hargs' b hb))
              (fun θ => by simp [Term.bind, bindAll_eq_map])
              (fun a ha w hw => mem_vars_app.mpr ⟨a, ha, hw⟩)
              (fun b hb w hw => mem_vars_app.mpr ⟨b, hb, hw⟩)
          · rw [if_neg (by simpa [same] using h)]
            refine .clash_of_ne fun θ heq => h ?_
            simp only [Term.bind, bindAll_eq_map, app.injEq, atom.injEq] at heq
            exact ⟨heq.1, by simpa using congrArg List.length heq.2⟩
      | var w => exact .var_right (by simp) ht
      | _ => exact .clash_of_ne fun θ => by simp [Term.bind]
  | group items ih =>
      rw [isExpr_group_iff] at ht
      cases u with
      | group items' =>
          rw [isExpr_group_iff] at hu
          rw [meet]
          by_cases hlen : items.length = items'.length
          · rw [if_pos (by simp [hlen])]
            exact explains_meetAll hlen ht hu
              (fun a ha b hb => ih a ha (ht a ha) (hu b hb))
              (fun θ => by simp [Term.bind, bindAll_eq_map])
              (fun a ha w hw => mem_vars_group.mpr ⟨a, ha, hw⟩)
              (fun b hb w hw => mem_vars_group.mpr ⟨b, hb, hw⟩)
          · rw [if_neg (by simpa using hlen)]
            refine .clash_of_ne fun θ heq => hlen ?_
            simp only [Term.bind, bindAll_eq_map, group.injEq] at heq
            simpa using congrArg List.length heq
      | var w => exact .var_right (by simp) (isExpr_group_iff.mpr ht)
      | _ => exact .clash_of_ne fun θ => by simp [Term.bind]
  | var v =>
      cases u with
      | var w =>
          by_cases h : v = w
          · subst h
            rw [meet, if_pos rfl]
            exact .agree fun θ => by simp
          · rw [meet, if_neg h]
            exact .var_left (by simpa [eq_comm] using h) hu
      | _ => exact .var_left (by simp) hu
  | hollow | wildcard | list | datum => simp [Term.isExpr] at ht

/-- The first difference in a list of pairs of expressions explains it. -/
theorem explains_meetPairs {pairs : List (Term × Term)} (hp : PairsOfExprs pairs) :
    Explains pairs (meetPairs pairs) :=
  explains_meetPairs_of_forall hp fun p h => explains_meet (hp p h).1 (hp p h).2

end Deduction
