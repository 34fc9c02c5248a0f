import Mathlib.Data.Set.Function
import Deduction.Proofs.Determined
import Deduction.Proofs.Failures

/-!
# Placeholders as a normal form

Placeholders can be put in by a single pass over a list of terms that carries along which variables
it has met, and gives the next number to a variable that it meets for the first time. We show that
this numbers the variables in the order in which `Term.freeVars` lists them, and that it comes to
the same as `Term.reifyAll`, which looks up the whole order beforehand.

What is left of a list of terms when its variables have become placeholders is the list up to a
renaming of variables. As long as no placeholder stands in the terms already, each of them can be
turned back into a variable, of the same list or of another one. So if two lists come to the same,
then each variable of the one has a counterpart in the other, and renaming the variables to their
counterparts turns the one list into the other.

## Main definitions

* `Term.numberFrom`, `Term.numberAllFrom`: the pass that numbers variables as it meets them.
* `Term.AreApart`: no placeholder stands in the terms.
* `Term.restore`: placeholders turned back into variables.
* `Term.counterpart`: the variable with the same number in another list.

## Main results

* `Term.numberAllFrom_eq`: the state of the pass and what it returns.
* `Term.map_rename_counterpart`: lists with equal placeholders are renamed to each other.
* `Term.reifyAll_of_injOn`: a renaming that keeps variables apart changes no placeholder.
* `Term.reifyAll?_canonical`: placeholders are a normal form for renaming.
-/

namespace Deduction.Term

/-! ### Numbering in one pass -/

mutual

/-- A term with its variables numbered, where `seen` are the variables that have a number; and the
variables that have one then. -/
def numberFrom (seen : List Var) : Term → Term × List Var
  | .var v =>
    if v ∈ seen then (placeholder (seen.idxOf v), seen)
    else (placeholder seen.length, seen ++ [v])
  | .app op args => ((.app op (numberAllFrom seen args).1), (numberAllFrom seen args).2)
  | .group items => ((.group (numberAllFrom seen items).1), (numberAllFrom seen items).2)
  | t => (t, seen)

/-- `numberFrom` item by item. -/
def numberAllFrom (seen : List Var) : List Term → List Term × List Var
  | [] => ([], seen)
  | t :: ts =>
    let head := numberFrom seen t
    let tail := numberAllFrom head.2 ts
    (head.1 :: tail.1, tail.2)

end

/-- The placeholder of a variable, where `vs` are the occurrences of variables so far. -/
def placeIn (vs : List Var) (v : Var) : Term := placeholder ((firsts vs).idxOf v)

/-- A number is kept when more variables appear. -/
theorem placeIn_append {vs : List Var} {v : Var} (hv : v ∈ vs) (ws : List Var) :
    placeIn (vs ++ ws) v = placeIn vs v := by
  rw [placeIn, placeIn, firsts_append, List.idxOf_append_of_mem (mem_firsts.mpr hv)]

/-- A variable gets its old number, or the next one. -/
theorem numberFrom_var (vs : List Var) (v : Var) :
    numberFrom (firsts vs) (.var v) = (placeIn (vs ++ [v]) v, firsts (vs ++ [v])) := by
  rw [numberFrom]
  by_cases hv : v ∈ vs
  · rw [if_pos (mem_firsts.mpr hv), placeIn_append hv, firsts_append]
    simp [firsts, hv, placeIn]
  · have hfirsts : firsts (vs ++ [v]) = firsts vs ++ [v] := by
      simp [firsts_append, firsts, hv]
    rw [if_neg (mt mem_firsts.mp hv), placeIn, hfirsts,
      List.idxOf_append_of_notMem (mt mem_firsts.mp hv)]
    simp

/-- The pass over a list, from the passes over its items. -/
theorem numberAllFrom_of_forall {ts : List Term}
    (h : ∀ t ∈ ts, ∀ vs, numberFrom (firsts vs) t =
      (t.bind (placeIn (vs ++ t.vars)), firsts (vs ++ t.vars))) (vs : List Var) :
    numberAllFrom (firsts vs) ts =
      (ts.map (bind (placeIn (vs ++ varsIn ts))), firsts (vs ++ varsIn ts)) := by
  induction ts generalizing vs with
  | nil => simp [numberAllFrom, varsIn]
  | cons t ts ih =>
      -- The numbers of the first term do not change while the others are numbered.
      have hhead : t.bind (placeIn (vs ++ t.vars)) =
          t.bind (placeIn (vs ++ (t.vars ++ varsIn ts))) := by
        refine bind_congr fun v hv => ?_
        rw [← List.append_assoc, placeIn_append (List.mem_append_right vs hv)]
      rw [numberAllFrom, h t (by simp), ih fun u hu => h u (by simp [hu])]
      simp only [hhead, List.append_assoc, varsIn, List.map_cons]

/-- **The pass over a term**, after the variables `vs` have appeared. -/
theorem numberFrom_eq (t : Term) (vs : List Var) :
    numberFrom (firsts vs) t = (t.bind (placeIn (vs ++ t.vars)), firsts (vs ++ t.vars)) := by
  induction t using Term.walk generalizing vs with
  | var v => simpa [bind, vars] using numberFrom_var vs v
  | app op args ih => simp [numberFrom, numberAllFrom_of_forall ih, bind, bindAll_eq_map, vars]
  | group items ih => simp [numberFrom, numberAllFrom_of_forall ih, bind, bindAll_eq_map, vars]
  | _ => simp [numberFrom, bind, vars]

/-- **The pass over a list of terms**: it meets the variables in order of first appearance, and
returns the terms with their placeholders. -/
theorem numberAllFrom_eq (ts : List Term) :
    numberAllFrom [] ts = (reifyAll ts, freeVars (.group ts)) := by
  rw [reifyAll, bindAll_eq_map]
  exact numberAllFrom_of_forall (fun t _ => numberFrom_eq t) []

/-! ### Turning placeholders back -/

/-- No placeholder stands in the terms. -/
def AreApart (ts : List Term) : Prop := ∀ n, occursIn (placeholder n) ts = false

/-- Every atom as it is, but the variable `f n` for the placeholder number `n`. -/
noncomputable def restore (f : Nat → Var) : String → Term :=
  Function.extend (fun n : Nat => "_" ++ toString n) (fun n => .var (f n)) .atom

theorem fill_restore_placeholder (f : Nat → Var) (n : Nat) :
    (placeholder n).fill (restore f) = .var (f n) := by
  have hinj : Function.Injective fun n : Nat => "_" ++ toString n :=
    fun m n h => placeholder_inj.mp (congrArg Term.atom h)
  rw [placeholder, fill, if_neg (Bool.eq_false_iff.mp (isKeyword_placeholder n))]
  exact hinj.extend_apply _ _ n

theorem restore_of_mem_patternNames {ts : List Term} (hts : AreApart ts) (f : Nat → Var) {t : Term}
    (ht : t ∈ ts) {x : String} (hx : x ∈ t.patternNames) : restore f x = .atom x := by
  refine Function.extend_apply' _ _ _ ?_
  rintro ⟨n, rfl⟩
  have hoccurs : occursIn (placeholder n) ts = true := by
    rw [occursIn_eq_any, List.any_eq_true]
    exact ⟨t, ht, (occurs_atom_iff (isKeyword_placeholder n)).mpr hx⟩
  exact Bool.false_ne_true ((hts n).symm.trans hoccurs)

/-- Placeholders that are turned into variables are variables renamed. -/
theorem map_fill_restore {ts : List Term} (hts : AreApart ts) (f : Nat → Var) :
    (reifyAll ts).map (fill (restore f)) = ts.map (rename fun v => f (rank ts v)) := by
  rw [reifyAll_eq_map, List.map_map]
  refine List.map_congr_left fun t ht => ?_
  rw [Function.comp_apply, fill_bind fun x hx => restore_of_mem_patternNames hts f ht hx, rename]
  simp only [fill_restore_placeholder]

/-- The variable of the second list that has the number of `v` in the first one. -/
def counterpart (ts us : List Term) (v : Var) : Var :=
  (firsts (varsIn us)).getD (rank ts v) default

theorem counterpart_self {ts : List Term} {v : Var} (hv : v ∈ varsIn ts) :
    counterpart ts ts v = v := by
  have hlt : rank ts v < (firsts (varsIn ts)).length :=
    List.idxOf_lt_length_iff.mpr (mem_firsts.mpr hv)
  rw [counterpart, List.getD_eq_getElem?_getD, List.getElem?_eq_getElem hlt]
  exact List.getElem_idxOf hlt

theorem mem_varsIn {ts : List Term} {v : Var} : v ∈ varsIn ts ↔ ∃ t ∈ ts, v ∈ t.vars := by
  rw [varsIn_eq_flatMap, List.mem_flatMap]

/-- Renaming variables to themselves. -/
theorem map_rename_eq_self_iff {ts : List Term} {ρ : Var → Var} :
    ts.map (rename ρ) = ts ↔ ∀ v ∈ varsIn ts, ρ v = v := by
  constructor
  · intro h
    have hvars : (varsIn ts).map ρ = (varsIn ts).map id := by
      rw [← varsIn_rename, h, List.map_id]
    exact List.map_inj_left.mp hvars
  · intro h
    refine (List.map_congr_left fun t ht => ?_).trans (List.map_id ts)
    have hvars : ∀ v ∈ t.vars, Term.var (ρ v) = .var v := fun v hv =>
      congrArg Term.var (h v (mem_varsIn.mpr ⟨t, ht, hv⟩))
    rw [rename, bind_congr hvars, bind_var, id_eq]

section

variable {ts us : List Term} (hts : AreApart ts) (hus : AreApart us)
  (h : reifyAll ts = reifyAll us)

include hts hus h

/-- **Lists with equal placeholders are renamed to each other.** -/
theorem map_rename_counterpart : ts.map (rename (counterpart ts us)) = us := by
  let f (n : Nat) : Var := (firsts (varsIn us)).getD n default
  calc ts.map (rename (counterpart ts us))
      = (reifyAll ts).map (fill (restore f)) := (map_fill_restore hts f).symm
    _ = (reifyAll us).map (fill (restore f)) := by rw [h]
    _ = us.map (rename (counterpart us us)) := map_fill_restore hus f
    _ = us := map_rename_eq_self_iff.mpr fun v hv => counterpart_self hv

/-- There and back again each variable is its own counterpart. -/
theorem counterpart_counterpart {v : Var} (hv : v ∈ varsIn ts) :
    counterpart us ts (counterpart ts us v) = v := by
  have hself : ts.map (rename fun v => counterpart us ts (counterpart ts us v)) = ts := calc
    _ = (ts.map (rename (counterpart ts us))).map (rename (counterpart us ts)) := by
      rw [List.map_map]
      exact List.map_congr_left fun t _ => (bind_rename (fun v => .var _) _ t).symm
    _ = ts := by rw [map_rename_counterpart hts hus h, map_rename_counterpart hus hts h.symm]
  exact map_rename_eq_self_iff.mp hself v hv

theorem counterpart_mem {v : Var} (hv : v ∈ varsIn ts) : counterpart ts us v ∈ varsIn us := by
  have hvars : varsIn us = (varsIn ts).map (counterpart ts us) := by
    rw [← varsIn_rename, map_rename_counterpart hts hus h]
  exact hvars ▸ List.mem_map_of_mem hv

/-- The counterparts of the variables are a bijection. -/
theorem counterpart_bijOn :
    Set.BijOn (counterpart ts us) {v | v ∈ varsIn ts} {v | v ∈ varsIn us} := by
  have hinv : Set.InvOn (counterpart us ts) (counterpart ts us) {v | v ∈ varsIn ts}
      {v | v ∈ varsIn us} :=
    ⟨fun v hv => counterpart_counterpart hts hus h hv,
      fun v hv => counterpart_counterpart hus hts h.symm hv⟩
  exact hinv.bijOn (fun v hv => counterpart_mem hts hus h hv)
    fun v hv => counterpart_mem hus hts h.symm hv

end

/-- A renaming that keeps the variables of the terms apart changes no placeholder. -/
theorem reifyAll_of_injOn {ts : List Term} {ρ : Var → Var}
    (hρ : Set.InjOn ρ {v | v ∈ varsIn ts}) : reifyAll (ts.map (rename ρ)) = reifyAll ts := by
  have hnodup : ((firsts (varsIn ts)).map ρ).Nodup :=
    (nodup_firsts (varsIn ts)).map_on fun v hv w hw heq =>
      hρ (mem_firsts.mp hv) (mem_firsts.mp hw) heq
  obtain ⟨π, hπ⟩ := exists_perm_map_eq (nodup_firsts (varsIn ts)) hnodup (List.length_map ρ).symm
  have hagree : ts.map (rename ρ) = ts.map (rename π) := by
    refine List.map_congr_left fun t ht => bind_congr fun v hv => congrArg Term.var ?_
    have hmem : v ∈ firsts (varsIn ts) := mem_firsts.mpr (mem_varsIn.mpr ⟨t, ht, hv⟩)
    exact (List.map_inj_left.mp hπ v hmem).symm
  rw [hagree, reifyAll_rename π.injective]

/-! ### The normal form -/

/-- The placeholder of a variable has the number under which the variable is listed. -/
theorem rank_of_getElem? {ts : List Term} {i : Nat} {v : Var}
    (h : (freeVars (.group ts))[i]? = some v) : rank ts v = i := by
  obtain ⟨hi, rfl⟩ := List.getElem?_eq_some_iff.mp h
  exact (nodup_firsts (varsIn ts)).idxOf_getElem i hi

/-- **Placeholders are a normal form for renaming.** Reification of a list of expressions returns
the list with the placeholder number `i` for the variable that stands at `i` in the order of first
appearance; so does the pass that numbers variables as it meets them, and it meets them in that
order. No variable is left. And two lists in which no placeholder stands come to the same if and
only if a bijection between their variables turns the one into the other. -/
theorem reifyAll?_canonical (ts : List Term) (hts : ∀ t ∈ ts, t.isExpr) :
    (∃ θ : Var → Term,
      (∀ i v, (freeVars (.group ts))[i]? = some v → θ v = placeholder i) ∧
      reifyAll? ts = .ok (ts.map (bind θ)) ∧
      numberAllFrom [] ts = (ts.map (bind θ), freeVars (.group ts)) ∧
      ∀ t ∈ ts, (t.bind θ).isGround) ∧
    ∀ us : List Term, (∀ u ∈ us, u.isExpr) → AreApart ts → AreApart us →
      (reifyAll? ts = reifyAll? us ↔ ∃ ρ : Var → Var,
        Set.BijOn ρ {v | v ∈ varsIn ts} {v | v ∈ varsIn us} ∧ ts.map (rename ρ) = us) := by
  have hok := reifyAll?_eq_ok hts
  constructor
  · refine ⟨fun v => placeholder (rank ts v), ?_, ?_, ?_, ?_⟩
    · exact fun i v h => congrArg placeholder (rank_of_getElem? h)
    · rw [hok, reifyAll_eq_map]
    · rw [numberAllFrom_eq, reifyAll_eq_map]
    · exact fun t _ => isGround_bind_placeholder (rank ts) t
  · intro us hus htsApart husApart
    rw [hok, reifyAll?_eq_ok hus, Except.ok.injEq]
    constructor
    · intro h
      exact ⟨counterpart ts us, counterpart_bijOn htsApart husApart h,
        map_rename_counterpart htsApart husApart h⟩
    · rintro ⟨ρ, hρ, rfl⟩
      exact (reifyAll_of_injOn hρ.injOn).symm

/-- The terms `(p v [w v])` and `(q w c)` for the variables with the serials `n` and `n + 1`. -/
def twoTerms (n : Int) : List Term :=
  [ofName "p" [.var ⟨"X", n⟩, .group [.var ⟨"X", n + 1⟩, .var ⟨"X", n⟩]],
    ofName "q" [.var ⟨"X", n + 1⟩, .atom "c"]]

/-- The terms `(p _0 [_1 _0])` and `(q _1 c)`. -/
def twoTermsNumbered : List Term :=
  [ofName "p" [.atom "_0", .group [.atom "_1", .atom "_0"]], ofName "q" [.atom "_1", .atom "c"]]

/-- With the serials from 1 on and from 2 on, the terms come to the same placeholders. So some
bijection takes the two variables of the ones to those of the others, of which they share one, and
turns the ones into the others. -/
theorem reifyAll?_canonical_shifted :
    (∀ t ∈ twoTerms 1, t.isExpr) ∧ (∀ u ∈ twoTerms 2, u.isExpr) ∧
      AreApart (twoTerms 1) ∧ AreApart (twoTerms 2) ∧
      reifyAll? (twoTerms 1) = .ok twoTermsNumbered ∧
      reifyAll? (twoTerms 2) = .ok twoTermsNumbered ∧
      ∃ ρ : Var → Var, Set.BijOn ρ {v | v ∈ varsIn (twoTerms 1)} {v | v ∈ varsIn (twoTerms 2)} ∧
        (twoTerms 1).map (rename ρ) = twoTerms 2 := by
  have hexpr₁ : ∀ t ∈ twoTerms 1, t.isExpr := by decide
  have hexpr₂ : ∀ t ∈ twoTerms 2, t.isExpr := by decide
  have hapart (n : Int) : AreApart (twoTerms n) := by
    intro k
    have hne : ("_" ++ toString k == "c") = false := by
      refine beq_eq_false_iff_ne.mpr fun h => ?_
      have hhead := congrArg (fun s => s.toList.head?) h
      simp [String.toList_append] at hhead
    simp only [twoTerms, placeholder, occursIn, occurs, ofName, same, hne, Bool.or_false]
  have hresult₁ : reifyAll? (twoTerms 1) = .ok twoTermsNumbered := by rfl
  have hresult₂ : reifyAll? (twoTerms 2) = .ok twoTermsNumbered := by rfl
  refine ⟨hexpr₁, hexpr₂, hapart 1, hapart 2, hresult₁, hresult₂, ?_⟩
  exact ((reifyAll?_canonical (twoTerms 1) hexpr₁).2 (twoTerms 2) hexpr₂ (hapart 1)
    (hapart 2)).mp (hresult₁.trans hresult₂.symm)

end Deduction.Term
