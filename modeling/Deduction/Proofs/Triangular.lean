import Deduction.Proofs.Templates
import Deduction.Proofs.Unification

/-!
# Unification keeps bindings triangular

A binding is only ever added for a variable that is open, with a term whose variables are open
too and other than it. The occurs check looks at that one term and not at the chains that are
there already, so it takes an invariant of the whole run to see that no chain ever closes: the
pairs that are left to unify mention open variables only. Then a new binding leads to ends of
chains, and the variable that it binds is gone from what is left.

None of this depends on what the terms are. The statements hold for terms of any kind, also where
unification compares data by value and the terms that it finds equal are not the same.

## Main definitions

* `Meeting.vars`: the variables that a difference mentions.
* `Term.parts?`: the parts of two terms that are built alike.
* `Bindings.Ready`: the invariant of a run of rounds.
* `Bindings.GrowsBy`: bindings that come from others by binding some open variables.

## Main results

* `Term.sideBySide`: induction along two terms side by side.
* `Term.meet_eq_agree_iff`: two terms do not differ exactly when they are the same.
* `Term.mem_vars_of_meet`: a difference of two terms mentions no variable that they do not.
* `Bindings.Ready.round`, `Bindings.Ready.growsBy`: what a round preserves, and what a whole run
  does to the bindings.
* `Bindings.unifyRounds_ne_unfinished`: a run with a round for each variable is not cut short.
* `Bindings.tryUnify_triangular`: unification keeps bindings triangular, and application of
  triangular bindings leaves no bound variable.
-/

namespace Deduction

open Term

/-! ### The variables of a difference -/

/-- The variables that a meeting mentions: the one to be bound, those of its term, and those of
what is left. -/
def Meeting.vars : Meeting → List Var
  | .agree | .clash => []
  | .bind v t rest => v :: (t.vars ++ pairVars rest)

@[simp] theorem Meeting.mem_vars_bind {v w : Var} {t : Term} {rest : List (Term × Term)} :
    w ∈ (Meeting.bind v t rest).vars ↔ w = v ∨ w ∈ t.vars ∨ w ∈ pairVars rest := by
  simp [vars]

@[simp] theorem pairVars_nil : pairVars [] = [] := rfl

theorem mem_pairVars_cons {p : Term × Term} {pairs : List (Term × Term)} {w : Var} :
    w ∈ pairVars (p :: pairs) ↔ (w ∈ p.1.vars ∨ w ∈ p.2.vars) ∨ w ∈ pairVars pairs := by
  simp [mem_pairVars]

theorem mem_pairVars_append {ps qs : List (Term × Term)} {w : Var} :
    w ∈ pairVars (ps ++ qs) ↔ w ∈ pairVars ps ∨ w ∈ pairVars qs := by
  simp only [pairVars, List.flatMap_append, List.mem_append]

/-- The first difference in a list of pairs mentions variables of the pairs only if that holds of
each pair. -/
theorem mem_pairVars_of_meetPairs_of_forall {pairs : List (Term × Term)} {w : Var}
    (h : ∀ p ∈ pairs, w ∈ (meet p.1 p.2).vars → w ∈ p.1.vars ∨ w ∈ p.2.vars)
    (hw : w ∈ (meetPairs pairs).vars) : w ∈ pairVars pairs := by
  induction pairs with
  | nil => simp [meetPairs, Meeting.vars] at hw
  | cons p pairs ih =>
      have hfirst := h p (by simp)
      have hrest := ih fun q hq => h q (by simp [hq])
      rw [mem_pairVars_cons]
      rw [meetPairs] at hw
      cases hm : meet p.1 p.2 with
      | agree =>
          rw [hm] at hw
          exact .inr (hrest hw)
      | clash =>
          rw [hm] at hw
          simp [Meeting.vars] at hw
      | bind v t more =>
          rw [hm, Meeting.mem_vars_bind] at hfirst
          rw [hm, Meeting.mem_vars_bind, mem_pairVars_append, ← or_assoc, ← or_assoc,
            or_assoc (a := w = v)] at hw
          exact hw.imp_left hfirst

namespace Term

/-! ### Terms that are built alike -/

/-- The parts of two terms that are built alike, side by side: the arguments of compounds with the
same operator and equally many arguments, or the items of equally long groups. -/
def parts? : Term → Term → Option (List (Term × Term))
  | .app f as, .app g bs => if f.same g && as.length == bs.length then some (as.zip bs) else none
  | .group as, .group bs => if as.length == bs.length then some (as.zip bs) else none
  | _, _ => none

/-- Is the term a logic variable? -/
def isVar : Term → Bool
  | .var _ => true
  | _ => false

/-- When two terms are built alike. -/
theorem parts?_eq_some_iff {t u : Term} {pairs : List (Term × Term)} :
    parts? t u = some pairs ↔ ∃ as bs, as.length = bs.length ∧ pairs = as.zip bs ∧
      ((∃ f g, f.same g ∧ t = .app f as ∧ u = .app g bs) ∨ t = .group as ∧ u = .group bs) := by
  constructor
  · intro h
    unfold parts? at h
    split at h
    next f as g bs =>
      split_ifs at h with hcond
      simp only [Bool.and_eq_true, beq_iff_eq] at hcond
      exact ⟨as, bs, hcond.2, (Option.some.inj h).symm, .inl ⟨f, g, hcond.1, rfl, rfl⟩⟩
    next as bs =>
      split_ifs at h with hcond
      exact ⟨as, bs, by simpa using hcond, (Option.some.inj h).symm, .inr ⟨rfl, rfl⟩⟩
    next => cases h
  · rintro ⟨as, bs, hlen, rfl, ⟨f, g, hfg, rfl, rfl⟩ | ⟨rfl, rfl⟩⟩
    · simp [parts?, hfg, hlen]
    · simp [parts?, hlen]

theorem isVar_iff {t : Term} : t.isVar ↔ ∃ v, t = .var v := by
  cases t <;> simp [isVar]

/-- Parts are smaller than the whole. -/
theorem sizeOf_lt_of_parts? {t u : Term} {pairs : List (Term × Term)}
    (h : parts? t u = some pairs) {p : Term × Term} (hp : p ∈ pairs) :
    sizeOf p.1 < sizeOf t := by
  obtain ⟨as, bs, -, rfl, ht⟩ := parts?_eq_some_iff.mp h
  have hlt := List.sizeOf_lt_of_mem (List.of_mem_zip hp).1
  obtain ⟨f, g, -, rfl, -⟩ | ⟨rfl, -⟩ := ht
  · rw [app.sizeOf_spec]
    omega
  · rw [group.sizeOf_spec]
    omega

/-- Induction along two terms side by side: a variable meets anything, two terms that are built
alike meet in their parts, and all other terms meet as a whole. -/
theorem sideBySide {P : Term → Term → Prop} (varLeft : ∀ v u, P (.var v) u)
    (varRight : ∀ t w, t.isVar = false → P t (.var w))
    (alike : ∀ t u pairs, t.isVar = false → u.isVar = false → parts? t u = some pairs →
      (∀ p ∈ pairs, P p.1 p.2) → P t u)
    (other : ∀ t u, t.isVar = false → u.isVar = false → parts? t u = none → P t u)
    (t u : Term) : P t u := by
  induction hn : sizeOf t using Nat.strong_induction_on generalizing t u with
  | _ n ih =>
      subst hn
      cases ht : t.isVar with
      | true =>
          obtain ⟨v, rfl⟩ := isVar_iff.mp ht
          exact varLeft v u
      | false =>
          cases hu : u.isVar with
          | true =>
              obtain ⟨w, rfl⟩ := isVar_iff.mp hu
              exact varRight t w ht
          | false =>
              cases hparts : parts? t u with
              | none => exact other t u ht hu hparts
              | some pairs =>
                  exact alike t u pairs ht hu hparts fun p hp =>
                    ih _ (sizeOf_lt_of_parts? hparts hp) p.1 p.2 rfl

/-- The variables of the parts are variables of the terms. -/
theorem mem_vars_of_parts? {t u : Term} {pairs : List (Term × Term)}
    (h : parts? t u = some pairs) {w : Var} (hw : w ∈ pairVars pairs) :
    w ∈ t.vars ∨ w ∈ u.vars := by
  obtain ⟨as, bs, -, rfl, ⟨f, g, -, rfl, rfl⟩ | ⟨rfl, rfl⟩⟩ := parts?_eq_some_iff.mp h
  · simpa using mem_pairVars_zip hw
  · simpa using mem_pairVars_zip hw

/-- Lists of equally many terms are the same when the terms are. -/
theorem sameAll_iff_forall {as bs : List Term} :
    sameAll as bs ↔ as.length = bs.length ∧ ∀ p ∈ as.zip bs, p.1.same p.2 := by
  induction as generalizing bs with
  | nil => cases bs <;> simp [sameAll]
  | cons a as ih =>
      cases bs with
      | nil => simp [sameAll]
      | cons b bs =>
          rw [sameAll, Bool.and_eq_true, ih]
          simp only [List.length_cons, Nat.add_right_cancel_iff, List.zip_cons_cons,
            List.forall_mem_cons]
          exact and_left_comm

/-- Terms that are built alike are the same when their parts are. -/
theorem same_iff_of_parts? {t u : Term} {pairs : List (Term × Term)}
    (h : parts? t u = some pairs) : t.same u ↔ ∀ p ∈ pairs, p.1.same p.2 := by
  obtain ⟨as, bs, hlen, rfl, ⟨f, g, hfg, rfl, rfl⟩ | ⟨rfl, rfl⟩⟩ := parts?_eq_some_iff.mp h
  · rw [same, hfg, Bool.true_and, sameAll_iff_forall]
    exact and_iff_right hlen
  · rw [same, sameAll_iff_forall]
    exact and_iff_right hlen

/-- Terms that are built alike are compared part by part. -/
theorem meet_of_parts? {t u : Term} {pairs : List (Term × Term)}
    (h : parts? t u = some pairs) : meet t u = meetPairs pairs := by
  obtain ⟨as, bs, hlen, rfl, ⟨f, g, hfg, rfl, rfl⟩ | ⟨rfl, rfl⟩⟩ := parts?_eq_some_iff.mp h
  · simp [meet, hfg, hlen, meetAll_eq_meetPairs]
  · simp [meet, hlen, meetAll_eq_meetPairs]

/-- Other terms, neither of them a variable, agree when they are the same, and clash if not. -/
theorem meet_of_parts?_eq_none {t u : Term} (ht : t.isVar = false) (hu : u.isVar = false)
    (h : parts? t u = none) : meet t u = if t.same u then .agree else .clash := by
  cases t with
  | var v => cases ht
  | app f as =>
      cases u with
      | var w => cases hu
      | app g bs =>
          have hne : ¬ (f.same g && as.length == bs.length) = true := by
            simpa [parts?] using h
          have hsame : ¬ (Term.app f as).same (.app g bs) = true := by
            rw [same, Bool.and_eq_true, sameAll_iff_forall]
            rintro ⟨hfg, hlen, -⟩
            simp [hfg, hlen] at hne
          rw [meet, if_neg hne, if_neg hsame]
      | _ => rfl
  | group as =>
      cases u with
      | var w => cases hu
      | group bs =>
          have hne : ¬ (as.length == bs.length) = true := by simpa [parts?] using h
          have hsame : ¬ (Term.group as).same (.group bs) = true := by
            rw [same, sameAll_iff_forall]
            rintro ⟨hlen, -⟩
            simp [hlen] at hne
          rw [meet, if_neg hne, if_neg hsame]
      | _ => rfl
  | _ =>
      cases u with
      | var w => cases hu
      | _ => rfl

/-- A variable on the left is bound to a term that is not the same. -/
theorem meet_var_left {v : Var} {u : Term} (h : ¬ (Term.var v).same u) :
    meet (.var v) u = .bind v u [] := by
  cases u with
  | var w => rw [meet, if_neg (by simpa [same] using h)]
  | _ => rfl

/-- A variable on the right is bound to a term that is no variable. -/
theorem meet_var_right {t : Term} (ht : t.isVar = false) (w : Var) :
    meet t (.var w) = .bind w t [] := by
  cases t with
  | var v => cases ht
  | _ => rfl

/-- There is no difference in pairs of which none differs. -/
theorem meetPairs_eq_agree_iff {pairs : List (Term × Term)} :
    meetPairs pairs = .agree ↔ ∀ p ∈ pairs, meet p.1 p.2 = .agree := by
  induction pairs with
  | nil => simp [meetPairs]
  | cons p pairs ih =>
      rw [meetPairs, List.forall_mem_cons]
      cases meet p.1 p.2 <;> simp [ih]

/-- **Two terms do not differ exactly when they are the same.** -/
theorem meet_eq_agree_iff (t u : Term) : meet t u = .agree ↔ t.same u := by
  induction t, u using sideBySide with
  | varLeft v u =>
      by_cases h : (Term.var v).same u
      · obtain rfl := (same_iff_eq rfl u).mp h
        simp [meet, h]
      · simp [meet_var_left h, h]
  | varRight t w ht =>
      have hsame : t.same (.var w) = false := by cases t <;> simp_all [same, isVar]
      simp [meet_var_right ht, hsame]
  | alike t u pairs _ _ h ih =>
      rw [meet_of_parts? h, meetPairs_eq_agree_iff, same_iff_of_parts? h]
      exact forall₂_congr ih
  | other t u ht hu h =>
      rw [meet_of_parts?_eq_none ht hu h]
      split <;> simp_all

/-- **A difference of two terms mentions no variable that they do not.** -/
theorem mem_vars_of_meet {t u : Term} {w : Var} (hw : w ∈ (meet t u).vars) :
    w ∈ t.vars ∨ w ∈ u.vars := by
  induction t, u using sideBySide with
  | varLeft v u =>
      by_cases h : (Term.var v).same u
      · rw [(meet_eq_agree_iff _ _).mpr h] at hw
        simp [Meeting.vars] at hw
      · simpa [meet_var_left h] using hw
  | varRight t x ht => simpa [meet_var_right ht, or_comm] using hw
  | alike t u pairs _ _ h ih =>
      rw [meet_of_parts? h] at hw
      exact mem_vars_of_parts? h (mem_pairVars_of_meetPairs_of_forall ih hw)
  | other t u ht hu h =>
      rw [meet_of_parts?_eq_none ht hu h] at hw
      split at hw <;> simp [Meeting.vars] at hw

/-- The first difference in a list of pairs mentions variables of the pairs only. -/
theorem mem_pairVars_of_meetPairs {pairs : List (Term × Term)} {w : Var}
    (hw : w ∈ (meetPairs pairs).vars) : w ∈ pairVars pairs :=
  mem_pairVars_of_meetPairs_of_forall (fun _ _ => mem_vars_of_meet) hw

end Term

/-! ### Rounds -/

namespace Bindings

/-- The pairs with the bindings applied. -/
def applyPairs (σ : Bindings) (pairs : List (Term × Term)) : List (Term × Term) :=
  pairs.map fun p => (σ.apply p.1, σ.apply p.2)

/-- The invariant of a run of rounds: the bindings are acyclic, and the pairs mention open variables
only. -/
structure Ready (σ : Bindings) (pairs : List (Term × Term)) : Prop where
  acyclic : σ.Acyclic
  unbound : ∀ w ∈ pairVars pairs, σ.find? w = none

/-- The bindings `τ` come from `σ` by binding some of the variables `vs`: they are acyclic, keep
every binding, and bind no other variables than these. -/
structure GrowsBy (σ : Bindings) (vs : List Var) (τ : Bindings) : Prop where
  acyclic : τ.Acyclic
  keeps : ∀ v t, σ.find? v = some t → τ.find? v = some t
  newKeys : ∀ v, σ.find? v = none → τ.find? v ≠ none → v ∈ vs

section

variable {σ τ : Bindings} {pairs rest : List (Term × Term)} {v : Var} {t u : Term}
  {rounds : Nat}

/-- Pairs are ready once the bindings have been applied to them. -/
theorem Acyclic.ready (hσ : σ.Acyclic) (pairs : List (Term × Term)) :
    σ.Ready (σ.applyPairs pairs) where
  acyclic := hσ
  unbound w hw := by
    obtain ⟨_, hq, hw⟩ := mem_pairVars.mp hw
    obtain ⟨p, -, rfl⟩ := List.mem_map.mp hq
    rcases hw with hw | hw
    · exact hσ.unbound_of_mem_vars_apply hw
    · exact hσ.unbound_of_mem_vars_apply hw

/-- The variable of a difference, those of its term and those of what is left are variables of
the pairs. -/
theorem mem_pairVars_of_bind (hm : meetPairs pairs = .bind v t rest) :
    v ∈ pairVars pairs ∧ (∀ w ∈ t.vars, w ∈ pairVars pairs) ∧
      ∀ w ∈ pairVars rest, w ∈ pairVars pairs := by
  have hmem {w : Var} (hw : w ∈ (Meeting.bind v t rest).vars) : w ∈ pairVars pairs :=
    mem_pairVars_of_meetPairs (by rwa [hm])
  exact ⟨hmem (by simp), fun w hw => hmem (by simp [hw]), fun w hw => hmem (by simp [hw])⟩

/-- **What a round preserves.** The variable that is bound is gone from what is left, and its term
mentions open variables only. -/
theorem Ready.round (h : σ.Ready pairs) (hm : meetPairs pairs = .bind v t rest)
    (hv : v ∉ t.vars) : (σ.insert v t).Ready (replacePairs v t rest) := by
  obtain ⟨-, ht, hrest⟩ := mem_pairVars_of_bind hm
  refine ⟨h.acyclic.insert fun w hw => ⟨fun heq => hv (heq ▸ hw), h.unbound w (ht w hw)⟩, ?_⟩
  intro w hw
  obtain ⟨hmem, hne⟩ := mem_pairVars_of_replaced ht hrest hv hw
  rw [find?_insert_of_ne σ t hne]
  exact h.unbound w hmem

/-- One more variable bound before is one more variable bound in all. -/
theorem GrowsBy.of_insert {vs ws : List Var} (h : (σ.insert v t).GrowsBy ws τ)
    (hv : σ.find? v = none) (hmem : v ∈ vs) (hsub : ∀ w ∈ ws, w ∈ vs) : σ.GrowsBy vs τ where
  acyclic := h.acyclic
  keeps w s hs := h.keeps w s (find?_insert_of_find? hv t hs)
  newKeys w hw hnew := by
    by_cases hwv : w = v
    · exact hwv ▸ hmem
    · exact hsub w (h.newKeys w (by rw [find?_insert_of_ne σ t hwv, hw]) hnew)

/-- **What a whole run does to the bindings.** Induction on the rounds. -/
theorem Ready.growsBy (h : σ.Ready pairs)
    (hrun : unifyRounds true rounds pairs σ = .unified τ) : σ.GrowsBy (pairVars pairs) τ := by
  fun_induction unifyRounds true rounds pairs σ with
  | case1 rounds pairs σ hm =>
      obtain rfl := Verdict.unified.inj hrun
      exact ⟨h.acyclic, fun _ _ hv => hv, fun _ hnone hnew => absurd hnone hnew⟩
  | case2 | case3 | case4 => cases hrun
  | case5 pairs σ v t rest hm hocc rounds ih =>
      have hv : v ∉ t.vars := by simpa [occurs_var_iff] using hocc
      obtain ⟨hmem, ht, hrest⟩ := mem_pairVars_of_bind hm
      refine (ih (h.round hm hv) hrun).of_insert (h.unbound v hmem) hmem fun w hw => ?_
      exact (mem_pairVars_of_replaced ht hrest hv hw).1

/-- A run with a round for each variable is not cut short: each round takes a variable away. -/
theorem unifyRounds_ne_unfinished (hcard : (pairVars pairs).toFinset.card ≤ rounds) :
    unifyRounds true rounds pairs σ ≠ .unfinished := by
  fun_induction unifyRounds true rounds pairs σ with
  | case1 | case2 | case3 => simp
  | case4 pairs σ v t rest hm hocc =>
      have hpos := Finset.card_pos.mpr ⟨v, List.mem_toFinset.mpr (mem_pairVars_of_bind hm).1⟩
      omega
  | case5 pairs σ v t rest hm hocc rounds ih =>
      have hv : v ∉ t.vars := by simpa [occurs_var_iff] using hocc
      obtain ⟨hmem, ht, hrest⟩ := mem_pairVars_of_bind hm
      have hlt := card_pairVars_replaced_lt hmem ht hrest hv
      exact ih (Nat.le_of_lt_succ (lt_of_lt_of_le hlt hcard))

/-- So unification always comes to a verdict. -/
theorem verdict_ne_unfinished (σ : Bindings) (t u : Term) :
    σ.verdict t u true ≠ .unfinished :=
  unifyRounds_ne_unfinished (card_pairVars_le _ _)

/-! ### Unification of two terms -/

/-- Unification that returns has met no compound without an operator. -/
theorem unify_of_tryUnify {check : Bool} {result : Option Bindings}
    (h : σ.tryUnify t u check = .ok result) : σ.unify t u check = result := by
  obtain ⟨_, -, h⟩ := bind_eq_ok_iff.mp h
  obtain ⟨_, -, h⟩ := bind_eq_ok_iff.mp h
  exact Except.ok.inj h

/-- The bindings that unification finds come from the old ones by binding variables of the two
terms as they stand under the old ones. -/
theorem growsBy_of_unify (hσ : σ.Acyclic) (h : σ.unify t u true = some τ) :
    σ.GrowsBy ((σ.apply t).vars ++ (σ.apply u).vars) τ := by
  have hgrows := (hσ.ready [(t, u)]).growsBy (unify_eq_some_iff.mp h)
  simpa [pairVars, applyPairs] using hgrows

/-- Application to a term without bound variables changes nothing. -/
theorem apply_of_unbound (h : ∀ v ∈ t.vars, σ.find? v = none) : σ.apply t = t := by
  rw [apply_eq_bind, bind_congr fun v hv => image_of_unbound (h v hv), bind_var]

/-- **Unification keeps bindings triangular.** Take acyclic bindings. If unification with the occurs
check returns bindings, then these are acyclic, contain the old ones unchanged, and a variable that
they bind in addition was open before and occurs in one of the two terms as it stood under the old
bindings. And application to any term leaves no bound variable, so a second application changes
nothing; on expressions both of them return. -/
theorem tryUnify_triangular (σ : Bindings) (hσ : σ.Acyclic) :
    (∀ (t u : Term) (τ : Bindings), σ.tryUnify t u true = .ok (some τ) →
      τ.Acyclic ∧
      (∀ v s, σ.find? v = some s → τ.find? v = some s) ∧
      ∀ v s, τ.find? v = some s → σ.find? v = some s ∨
        σ.find? v = none ∧ (v ∈ (σ.apply t).vars ∨ v ∈ (σ.apply u).vars)) ∧
    ∀ t : Term,
      (∀ v ∈ (σ.apply t).vars, σ.find? v = none) ∧
      σ.apply (σ.apply t) = σ.apply t ∧
      (σ.AreExprs → t.isExpr → σ.tryApply t = .ok (σ.apply t) ∧
        σ.tryApply (σ.apply t) = .ok (σ.apply t)) := by
  have hunbound (t : Term) : ∀ v ∈ (σ.apply t).vars, σ.find? v = none := fun _ hv =>
    hσ.unbound_of_mem_vars_apply hv
  refine ⟨fun t u τ h => ?_, fun t => ⟨hunbound t, apply_of_unbound (hunbound t), ?_⟩⟩
  · have hgrows := growsBy_of_unify hσ (unify_of_tryUnify h)
    refine ⟨hgrows.acyclic, hgrows.keeps, fun v s hs => ?_⟩
    cases hv : σ.find? v with
    | some s' => exact .inl ((hgrows.keeps v s' hv).symm.trans hs)
    | none =>
        have hmem := hgrows.newKeys v hv (by simp [hs])
        exact .inr ⟨rfl, List.mem_append.mp hmem⟩
  · intro he ht
    have happly := tryApply_eq_ok hσ he (hσ.isExpr_apply he ht)
    rw [apply_of_unbound (hunbound t)] at happly
    exact ⟨tryApply_eq_ok hσ he ht, happly⟩

end

/-- Under the binding of `X` to `(not Y)`, unification of `(and X Y)` with `(and (not (f Z)) V)`
binds `Y` and then `V`. The chain from `X` now goes through `Y` to `Z`, and application follows it
to its end. -/
theorem tryUnify_triangular_chain :
    let X : Var := ⟨"X", 1⟩
    let Y : Var := ⟨"Y", 2⟩
    let Z : Var := ⟨"Z", 3⟩
    let V : Var := ⟨"V", 4⟩
    let σ := Bindings.empty.insert X (.ofName "not" [.var Y])
    let t := Term.ofName "and" [.var X, .var Y]
    let u := Term.ofName "and" [.ofName "not" [.ofName "f" [.var Z]], .var V]
    let τ := (σ.insert Y (.ofName "f" [.var Z])).insert V (.ofName "f" [.var Z])
    σ.Acyclic ∧ σ.tryUnify t u true = .ok (some τ) ∧ τ.Acyclic ∧
      τ.find? X = some (.ofName "not" [.var Y]) ∧
      (V ∈ (σ.apply t).vars ∨ V ∈ (σ.apply u).vars) ∧
      τ.apply (.var X) = .ofName "not" [.ofName "f" [.var Z]] ∧
      τ.apply (τ.apply (.var X)) = τ.apply (.var X) := by
  intro X Y Z V σ t u τ
  have hσ : σ.Acyclic := acyclic_empty.insert fun w hw => by
    simp [Term.ofName, Term.vars, Term.varsIn] at hw
    simp [hw, X, Y]
  have hrun : σ.tryUnify t u true = .ok (some τ) := by rfl
  obtain ⟨hτ, hkeeps, hnew⟩ := (tryUnify_triangular σ hσ).1 t u τ hrun
  refine ⟨hσ, hrun, hτ, hkeeps X _ rfl, ?_, by rfl, ((tryUnify_triangular τ hτ).2 (.var X)).2.1⟩
  rcases hnew V _ rfl with hold | ⟨-, hmem⟩
  · cases hold
  · exact hmem

end Bindings

end Deduction
