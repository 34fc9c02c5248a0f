import Mathlib.Data.List.Basic
import Deduction.CallShape
import Deduction.Proofs.Terms

/-!
# Call shapes slot by slot

The slots of a call are found in several passes over all of them: every given gets a slot of its
own, optional slots become mandatory, a mixture of two kinds of slots becomes a choice, and some
shapes are refused in the end for a slot that an earlier pass has put there. This module says what
the passes come to for one slot: which slot a given has, from its own mark, its place and what
there is among the other givens and the extras.

The slot of a given depends on its place only as far as it is the first one or a later one. So
the slots of a list of givens are that of the first one and the images of the others under one
map, and a pass that looks for a kind of slot asks whether there is a mark of some kind among the
later givens.

## Main definitions

* `CallShape.forwardGiven`, `CallShape.conclusionSlots`: the slots of a forward call.
* `CallShape.backwardGiven`: the slots of the givens of a backward call.

## Main results

* `CallShape.inputSlots_eq`, `CallShape.givenSlots_eq`: the passes give these slots.
* `Term.scanIn_eq_found_iff`: the search for an operator finds it where it is a part.
* `Rule.shapes_slotwise`: the shapes of a rule.
-/

namespace Deduction

namespace CallShape

/-! ### One slot -/

/-- The slot of a given of a forward call, from its place and mark and the marks of all givens. -/
def forwardGiven (marks : List (Option Marker)) (extras index : Nat) (mark : Option Marker) :
    Slot :=
  if mark = some .infer then .query
  else if extras ≠ 0 ∨ some .actual ∈ marks then .mandatory
  else if some .infer ∉ marks ∧ ∃ m ∈ marks.tail, m ≠ some .succ then .oneOf
  else if index = 0 ∨ mark = some .succ then .mandatory
  else .optional

/-- The slots of the conclusions of a forward call. -/
def conclusionSlots (marks : List (Option Marker)) (conclusions : Nat) : List Slot :=
  if conclusions = 1 ∧ some .infer ∈ marks then [.combined]
  else List.replicate conclusions .output

/-- A given that a backward call solves for because of its mark. -/
def IsAsked (mark : Option Marker) : Prop := mark = some .infer ∨ mark = some .substitution

instance (mark : Option Marker) : Decidable (IsAsked mark) :=
  inferInstanceAs (Decidable (_ ∨ _))

/-- The slot of a given of a backward call, from its place and mark and the marks of all
givens. -/
def backwardGiven (marks : List (Option Marker)) (index : Nat) (mark : Option Marker) : Slot :=
  if marks.length = 1 ∨ IsAsked mark then .query
  else if index = 0 ∧ ∃ m ∈ marks.tail, IsAsked m then .optional
  else .required

/-! ### Lists of slots -/

section

variable {α β : Type} {f : Nat → α → β}

/-- Where the place matters only for the first item, the others are mapped. -/
theorem mapIdx_cons_eq_map (hf : ∀ i a, f (i + 1) a = f 1 a) (first : α) (rest : List α) :
    (first :: rest).mapIdx f = f 0 first :: rest.map (f 1) := by
  rw [List.mapIdx_cons]
  exact congrArg _ (List.ext_getElem (by simp) (by simp [hf]))

/-- A property of the images that does not depend on the place. -/
theorem forall_mem_mapIdx {p : α → Prop} {q : β → Prop} (hf : ∀ i a, q (f i a) ↔ p a)
    (l : List α) : (∀ b ∈ l.mapIdx f, q b) ↔ ∀ a ∈ l, p a := by
  constructor
  · intro h a ha
    obtain ⟨i, hi, rfl⟩ := List.mem_iff_getElem.mp ha
    exact (hf i _).mp (h _ (List.mem_mapIdx.mpr ⟨i, hi, rfl⟩))
  · intro h b hb
    obtain ⟨i, hi, rfl⟩ := List.mem_mapIdx.mp hb
    exact (hf i _).mpr (h _ (List.getElem_mem hi))

end

/-- The test for a mixture of two kinds of slots. -/
theorem mixture_iff {a b : Slot} {slots : List Slot} :
    (slots.contains a && slots.contains b && slots.all fun s => s = a || s = b) = true ↔
      a ∈ slots ∧ b ∈ slots ∧ ∀ s ∈ slots, s = a ∨ s = b := by
  simp [and_assoc]

/-! ### Forward -/

theorem forwardSlot_later (index : Nat) (mark : Option Marker) :
    forwardSlot (index + 1) mark = forwardSlot 1 mark := by
  simp [forwardSlot]

/-- No given has the slot of an extra. -/
theorem extra_notMem_forwardSlot (marks : List (Option Marker)) :
    Slot.extra ∉ marks.mapIdx forwardSlot := by
  intro h
  obtain ⟨i, hi, hslot⟩ := List.mem_mapIdx.mp h
  unfold forwardSlot at hslot
  split_ifs at hslot

/-- The givens with the slot of a query are those of an inference. -/
theorem forwardSlot_ne_query_iff (index : Nat) (mark : Option Marker) :
    forwardSlot index mark = .mandatory ∨ forwardSlot index mark = .optional ↔
      mark ≠ some .infer := by
  unfold forwardSlot
  split_ifs <;> simp_all

/-- An optional slot belongs to a later given. -/
theorem optional_mem_forwardSlot_iff (marks : List (Option Marker)) :
    Slot.optional ∈ marks.mapIdx forwardSlot ↔
      ∃ m ∈ marks.tail, m ≠ some .infer ∧ m ≠ some .succ := by
  cases marks with
  | nil => simp
  | cons first rest =>
      have hfirst : Slot.optional ≠ forwardSlot 0 first := by
        unfold forwardSlot
        split_ifs <;> simp_all
      have hlater : ∀ m, forwardSlot 1 m = .optional ↔ m ≠ some .infer ∧ m ≠ some .succ := by
        intro m
        unfold forwardSlot
        split_ifs <;> simp_all
      rw [mapIdx_cons_eq_map forwardSlot_later, List.mem_cons, List.mem_map, List.tail_cons]
      exact (or_iff_right hfirst).trans
        (exists_congr fun m => and_congr_right fun _ => hlater m)

/-- Mandatory and optional slots are mixed when no given is an inference and a later one is no
step to the next state. -/
theorem forward_mixture_iff (marks : List (Option Marker)) :
    (Slot.mandatory ∈ marks.mapIdx forwardSlot ∧ Slot.optional ∈ marks.mapIdx forwardSlot ∧
      ∀ s ∈ marks.mapIdx forwardSlot, s = .mandatory ∨ s = .optional) ↔
      some .infer ∉ marks ∧ ∃ m ∈ marks.tail, m ≠ some .succ := by
  rw [optional_mem_forwardSlot_iff, forall_mem_mapIdx forwardSlot_ne_query_iff]
  constructor
  · rintro ⟨-, ⟨m, hm, -, hsucc⟩, hinfer⟩
    exact ⟨fun h => hinfer _ h rfl, m, hm, hsucc⟩
  · rintro ⟨hinfer, m, hm, hsucc⟩
    have hne : ∀ m ∈ marks, m ≠ some .infer := fun m hm h => hinfer (h ▸ hm)
    refine ⟨?_, ⟨m, hm, hne m (List.mem_of_mem_tail hm), hsucc⟩, hne⟩
    obtain ⟨first, rest, rfl⟩ := List.exists_cons_of_ne_nil (List.ne_nil_of_mem
      (List.mem_of_mem_tail hm))
    rw [mapIdx_cons_eq_map forwardSlot_later]
    simp [forwardSlot, hne first List.mem_cons_self]

/-- The test for an extra or a term known to denote. -/
theorem needsAll_iff (marks : List (Option Marker)) (extras : Nat) :
    (marks.contains (some .actual) ||
      (marks.mapIdx forwardSlot ++ List.replicate extras Slot.extra).contains .extra) = true ↔
      extras ≠ 0 ∨ some .actual ∈ marks := by
  rw [Bool.or_eq_true, List.contains_iff_mem, List.contains_iff_mem, List.mem_append,
    or_iff_right (extra_notMem_forwardSlot marks), List.mem_replicate, or_comm]
  exact or_congr_left (and_iff_left rfl)

/-- With an extra or a term known to denote, no slot stays optional. -/
theorem inputSlots_of_needsAll {marks : List (Option Marker)} {extras : Nat}
    (h : extras ≠ 0 ∨ some .actual ∈ marks) :
    inputSlots marks extras =
      marks.mapIdx (forwardGiven marks extras) ++ List.replicate extras .extra := by
  have hgiven : ∀ i m, forwardGiven marks extras i m =
      if forwardSlot i m = .optional then .mandatory else forwardSlot i m := by
    intro i m
    unfold forwardGiven forwardSlot
    split_ifs <;> simp_all
  have hpass : (marks.mapIdx forwardSlot ++ List.replicate extras Slot.extra).map
      (fun s => if s = .optional then .mandatory else s) =
        marks.mapIdx (forwardGiven marks extras) ++ List.replicate extras .extra := by
    rw [List.map_append, List.map_replicate, if_neg (by simp)]
    refine congrArg (· ++ _) (List.ext_getElem (by simp) fun i _ _ => ?_)
    rw [List.getElem_map, List.getElem_mapIdx, List.getElem_mapIdx, hgiven]
  have hnone : Slot.optional ∉
      marks.mapIdx (forwardGiven marks extras) ++ List.replicate extras .extra := by
    rw [← hpass, List.mem_map]
    rintro ⟨s, -, hs⟩
    split_ifs at hs with hopt
    · exact hopt hs
  dsimp only [inputSlots]
  rw [if_pos ((needsAll_iff marks extras).mpr h), hpass]
  exact if_neg fun hmixed => hnone (mixture_iff.mp hmixed).2.1

/-- Without them the slots stay as they are, unless mandatory and optional ones are mixed. -/
theorem inputSlots_of_not_needsAll {marks : List (Option Marker)}
    (h : some .actual ∉ marks) :
    inputSlots marks 0 = marks.mapIdx (forwardGiven marks 0) := by
  have hneeds : ¬ ((0 : Nat) ≠ 0 ∨ some .actual ∈ marks) := by simpa using h
  dsimp only [inputSlots]
  rw [if_neg fun hn => hneeds ((needsAll_iff marks 0).mp hn), List.replicate_zero,
    List.append_nil]
  by_cases hmixed : some .infer ∉ marks ∧ ∃ m ∈ marks.tail, m ≠ some .succ
  · rw [if_pos (mixture_iff.mpr ((forward_mixture_iff marks).mpr hmixed))]
    refine List.ext_getElem (by simp) fun i hi _ => ?_
    rw [List.getElem_map, List.getElem_mapIdx, forwardGiven, if_neg, if_neg hneeds,
      if_pos hmixed]
    exact fun hinfer => hmixed.1 (hinfer ▸ List.getElem_mem _)
  · rw [if_neg fun hm => hmixed ((forward_mixture_iff marks).mp (mixture_iff.mp hm))]
    refine List.mapIdx_eq_mapIdx_iff.mpr fun i hi => ?_
    rw [forwardGiven, forwardSlot, if_neg hneeds, if_neg hmixed]
    simp only [or_comm]

/-- **The passes of a forward call, slot by slot.** -/
theorem inputSlots_eq (marks : List (Option Marker)) (extras : Nat) :
    inputSlots marks extras =
      marks.mapIdx (forwardGiven marks extras) ++ List.replicate extras .extra := by
  by_cases h : extras ≠ 0 ∨ some .actual ∈ marks
  · exact inputSlots_of_needsAll h
  · obtain ⟨rfl, hactual⟩ : extras = 0 ∧ some .actual ∉ marks := by simpa using h
    rw [inputSlots_of_not_needsAll hactual, List.replicate_zero, List.append_nil]

/-- A given is a query exactly if it is an inference. -/
theorem forwardGiven_eq_query_iff {marks : List (Option Marker)} {extras index : Nat}
    {mark : Option Marker} :
    forwardGiven marks extras index mark = .query ↔ mark = some .infer := by
  unfold forwardGiven
  split_ifs <;> simp_all

/-- There is a query among the slots exactly if there is an inference among the givens. -/
theorem query_mem_inputSlots_iff {marks : List (Option Marker)} {extras : Nat} :
    Slot.query ∈ inputSlots marks extras ↔ some .infer ∈ marks := by
  rw [inputSlots_eq, List.mem_append, List.mem_mapIdx, List.mem_replicate, List.mem_iff_getElem]
  simp only [forwardGiven_eq_query_iff, reduceCtorEq, and_false, or_false]

/-- The first slot is a query exactly if the first given is an inference. -/
theorem head?_inputSlots_eq_query_iff {marks : List (Option Marker)} {extras : Nat} :
    (inputSlots marks extras).head? = some .query ↔ marks.head? = some (some .infer) := by
  rw [inputSlots_eq]
  cases marks with
  | nil => cases extras <;> simp [List.replicate_succ]
  | cons first rest => simp [List.mapIdx_cons, forwardGiven_eq_query_iff]

/-- When a rule cannot be used forward. -/
theorem forwardBlocked_iff (marks : List (Option Marker)) (extras : Nat) :
    forwardBlocked marks extras ↔
      marks.head? = some (some .infer) ∨ some .substitution ∈ marks := by
  rw [forwardBlocked, Bool.or_eq_true, beq_iff_eq, head?_inputSlots_eq_query_iff,
    List.contains_iff_mem]

theorem forward_eq_none_iff {marks : List (Option Marker)} {extras conclusions : Nat} :
    forward marks extras conclusions = none ↔
      marks.head? = some (some .infer) ∨ some .substitution ∈ marks := by
  rw [← forwardBlocked_iff marks extras]
  dsimp only [forward]
  split_ifs <;> simp_all

/-- **The shape of a forward call, slot by slot.** -/
theorem eq_of_forward_eq_some {marks : List (Option Marker)} {extras conclusions : Nat}
    {slots : List Slot} (h : forward marks extras conclusions = some slots) :
    slots = marks.mapIdx (forwardGiven marks extras) ++ List.replicate extras .extra ++
      conclusionSlots marks conclusions := by
  have hcombined : (decide (conclusions = 1) && (inputSlots marks extras).contains .query) = true ↔
      conclusions = 1 ∧ some .infer ∈ marks := by
    rw [Bool.and_eq_true, decide_eq_true_eq, List.contains_iff_mem, query_mem_inputSlots_iff]
  dsimp only [forward] at h
  rw [conclusionSlots, ← inputSlots_eq]
  split_ifs at h with hblocked hlone
  · rw [if_pos (hcombined.mp hlone), Option.some.inj h]
  · rw [if_neg fun hc => hlone (hcombined.mpr hc), Option.some.inj h]

/-! ### Backward -/

theorem backwardSlot_of_isAsked {mark : Option Marker} (h : IsAsked mark) (index : Nat) :
    backwardSlot index mark = .query :=
  if_pos h

theorem backwardSlot_first {mark : Option Marker} (h : ¬ IsAsked mark) :
    backwardSlot 0 mark = .optional :=
  (if_neg h).trans (if_pos rfl)

theorem backwardSlot_later {mark : Option Marker} (h : ¬ IsAsked mark) (index : Nat) :
    backwardSlot (index + 1) mark = .required :=
  (if_neg h).trans (if_neg index.succ_ne_zero)

/-- The givens with the slot of a query are those that are asked for. -/
theorem backwardSlot_ne_query_iff (index : Nat) (mark : Option Marker) :
    backwardSlot index mark = .optional ∨ backwardSlot index mark = .required ↔
      ¬ IsAsked mark := by
  by_cases h : IsAsked mark
  · simp [backwardSlot_of_isAsked h, h]
  · cases index with
    | zero => simp [backwardSlot_first h, h]
    | succ index => simp [backwardSlot_later h, h]

/-- Optional and required slots of two or more givens are mixed when no given is asked for. -/
theorem backward_mixture_iff (first second : Option Marker) (rest : List (Option Marker)) :
    (Slot.optional ∈ (first :: second :: rest).mapIdx backwardSlot ∧
      Slot.required ∈ (first :: second :: rest).mapIdx backwardSlot ∧
      ∀ s ∈ (first :: second :: rest).mapIdx backwardSlot, s = .optional ∨ s = .required) ↔
      ∀ m ∈ first :: second :: rest, ¬ IsAsked m := by
  rw [forall_mem_mapIdx backwardSlot_ne_query_iff]
  refine ⟨fun h => h.2.2, fun h => ⟨?_, ?_, h⟩⟩
  · exact List.mem_mapIdx.mpr ⟨0, by simp, backwardSlot_first (h first (by simp))⟩
  · exact List.mem_mapIdx.mpr ⟨1, by simp, backwardSlot_later (h second (by simp)) 0⟩

/-- Among two or more givens, the slots are changed only where no given is asked for. -/
theorem givenSlots_cons_cons (first second : Option Marker) (rest : List (Option Marker)) :
    givenSlots (first :: second :: rest) =
      if ∀ m ∈ first :: second :: rest, ¬ IsAsked m then
        (first :: second :: rest).map fun _ => Slot.required
      else (first :: second :: rest).mapIdx backwardSlot := by
  dsimp only [givenSlots]
  by_cases h : ∀ m ∈ first :: second :: rest, ¬ IsAsked m
  · rw [if_pos (mixture_iff.mpr ((backward_mixture_iff first second rest).mpr h)), if_pos h,
      if_neg (by simp)]
    exact List.ext_getElem (by simp) (by simp)
  · rw [if_neg fun hm => h ((backward_mixture_iff first second rest).mp (mixture_iff.mp hm)),
      if_neg h, if_neg (by simp)]

/-- **The passes of a backward call, slot by slot.** -/
theorem givenSlots_eq (marks : List (Option Marker)) :
    givenSlots marks = marks.mapIdx (backwardGiven marks) := by
  match marks with
  | [] => rfl
  | [m] =>
      dsimp only [givenSlots]
      rw [if_pos (by split_ifs <;> simp), List.mapIdx_cons, List.mapIdx_nil, backwardGiven,
        if_pos (.inl rfl)]
  | first :: second :: rest =>
      rw [givenSlots_cons_cons]
      split_ifs with hnone
      · refine List.ext_getElem (by simp) fun i hi _ => ?_
        rw [List.length_map] at hi
        have hasked : ¬ IsAsked (first :: second :: rest)[i] := hnone _ (List.getElem_mem hi)
        rw [List.getElem_map, List.getElem_mapIdx, backwardGiven, if_neg (by simp [hasked]), if_neg]
        rintro ⟨-, m, hm, hm'⟩
        exact hnone m (List.mem_of_mem_tail hm) hm'
      · refine List.mapIdx_eq_mapIdx_iff.mpr fun i hi => ?_
        by_cases hasked : IsAsked (first :: second :: rest)[i]
        · rw [backwardSlot_of_isAsked hasked, backwardGiven, if_pos (.inr hasked)]
        · rw [backwardGiven, if_neg (by simp [hasked])]
          cases i with
          | zero =>
              -- The given that is asked for is not the first one, so it is a later one.
              obtain ⟨m, hm, hm'⟩ : ∃ m ∈ first :: second :: rest, IsAsked m := by
                simpa only [not_forall, not_not, exists_prop] using hnone
              have htail : m ∈ second :: rest :=
                (List.mem_cons.mp hm).resolve_left fun heq => hasked (heq ▸ hm')
              rw [backwardSlot_first hasked, if_pos ⟨rfl, m, htail, hm'⟩]
          | succ i => rw [backwardSlot_later hasked, if_neg (by simp)]

theorem backward_eq_none_iff {marks : List (Option Marker)} {extras conclusions : Nat}
    {substitutes : Bool} :
    backward marks extras conclusions substitutes = none ↔
      1 < conclusions ∨ extras ≠ 0 ∨ marks = [] ∨ substitutes = true := by
  unfold backward
  split_ifs with h
  · simpa [Nat.pos_iff_ne_zero, or_assoc] using h
  · simpa [Nat.pos_iff_ne_zero, or_assoc] using h

/-- **The shape of a backward call, slot by slot.** -/
theorem eq_of_backward_eq_some {marks : List (Option Marker)} {extras conclusions : Nat}
    {substitutes : Bool} {slots : List Slot}
    (h : backward marks extras conclusions substitutes = some slots) :
    slots = .goal :: marks.mapIdx (backwardGiven marks) := by
  unfold backward at h
  split_ifs at h
  rw [← givenSlots_eq, Option.some.inj h]

end CallShape

/-! ### Marks and operators of expressions -/

/-- A mark belongs to one operator. -/
theorem Marker.ofOperator?_eq_some_iff {op : Term} {m : Marker} :
    ofOperator? op = some m ↔ op = .atom m.name := by
  constructor
  · intro h
    rw [ofOperator?] at h
    have hname := List.find?_some h
    exact Term.isAtom_iff.mp hname
  · rintro rfl
    cases m <;> rfl

namespace Term

/-- A template has a mark exactly if it is a compound with the operator of the mark. -/
theorem marker_eq_some_iff {t : Term} {m : Marker} :
    t.marker = some m ↔ ∃ args, t = ofName m.name args := by
  cases t with
  | app op args => simp [marker, operator?, Marker.ofOperator?_eq_some_iff, ofName]
  | _ => simp [marker, operator?, ofName]

/-- Where templates are expressions, their marks can be looked up. -/
theorem marker?_of_isExpr {t : Term} (ht : t.isExpr) : marker? t = .ok t.marker := by
  cases t with
  | app op args =>
      obtain ⟨⟨name, rfl, -⟩, -⟩ := isExpr_app_iff.mp ht
      rfl
  | hollow => simp [isExpr] at ht
  | _ => rfl

theorem markers?_of_isExpr {ts : List Term} (hts : ∀ t ∈ ts, t.isExpr) :
    markers? ts = .ok (ts.map marker) := by
  induction ts with
  | nil => rfl
  | cons t ts ih =>
      rw [markers?, marker?_of_isExpr (hts t (by simp)), ih fun u hu => hts u (by simp [hu])]
      rfl

/-- A search through several terms finds the operator if it finds it in one of them, as long as
none of them breaks it off. -/
theorem scanIn_of_forall {op : String} {ts : List Term} (h : ∀ t ∈ ts, scan op t ≠ .noOperator) :
    scanIn op ts ≠ .noOperator ∧ (scanIn op ts = .found ↔ ∃ t ∈ ts, scan op t = .found) := by
  induction ts with
  | nil => simp [scanIn]
  | cons t ts ih =>
      obtain ⟨hne, hiff⟩ := ih fun u hu => h u (by simp [hu])
      have ht := h t (by simp)
      cases hscan : scan op t with
      | found => simp [scanIn, hscan]
      | absent => simp [scanIn, hscan, hne, hiff]
      | noOperator => exact absurd hscan ht

/-- **A search through an expression finds an operator where a part has it.** -/
theorem scan_of_isExpr (op : String) {t : Term} (ht : t.isExpr) :
    scan op t ≠ .noOperator ∧ (scan op t = .found ↔ ∃ args, Within (ofName op args) t) := by
  induction t using Term.walk with
  | app head args ih =>
      obtain ⟨-, -, hargs⟩ := isExpr_app_iff.mp ht
      obtain ⟨hne, hiff⟩ := scanIn_of_forall fun a ha => (ih a ha (hargs a ha)).1
      by_cases hhead : head.isAtom op
      · obtain rfl := isAtom_iff.mp hhead
        rw [scan, if_pos hhead]
        exact ⟨by simp, iff_of_true rfl ⟨args, .whole _⟩⟩
      · rw [scan, if_neg hhead]
        refine ⟨hne, hiff.trans ⟨?_, ?_⟩⟩
        · rintro ⟨a, ha, hfound⟩
          obtain ⟨args', h⟩ := (ih a ha (hargs a ha)).2.mp hfound
          exact ⟨args', .arg ha h⟩
        · rintro ⟨args', h⟩
          rcases within_app_iff.mp h with heq | ⟨a, ha, h⟩
          · cases heq
            exact absurd (isAtom_iff.mpr rfl) hhead
          · exact ⟨a, ha, (ih a ha (hargs a ha)).2.mpr ⟨args', h⟩⟩
  | group items ih =>
      have hitems := isExpr_group_iff.mp ht
      obtain ⟨hne, hiff⟩ := scanIn_of_forall fun a ha => (ih a ha (hitems a ha)).1
      rw [scan]
      refine ⟨hne, hiff.trans ⟨?_, ?_⟩⟩
      · rintro ⟨a, ha, hfound⟩
        obtain ⟨args', h⟩ := (ih a ha (hitems a ha)).2.mp hfound
        exact ⟨args', .item ha h⟩
      · rintro ⟨args', h⟩
        rcases within_group_iff.mp h with heq | ⟨a, ha, h⟩
        · cases heq
        · exact ⟨a, ha, (ih a ha (hitems a ha)).2.mpr ⟨args', h⟩⟩
  | hollow => simp [isExpr] at ht
  | _ =>
      refine ⟨by simp [scan], iff_of_false (by simp [scan]) ?_⟩
      rintro ⟨args', h⟩
      cases h

/-- The same for several expressions. -/
theorem scanIn_eq_found_iff (op : String) {ts : List Term} (hts : ∀ t ∈ ts, t.isExpr) :
    scanIn op ts ≠ .noOperator ∧
      (scanIn op ts = .found ↔ ∃ t ∈ ts, ∃ args, Within (ofName op args) t) := by
  obtain ⟨hne, hiff⟩ := scanIn_of_forall fun t ht => (scan_of_isExpr op (hts t ht)).1
  refine ⟨hne, hiff.trans ?_⟩
  exact exists_congr fun t => and_congr_right fun ht => (scan_of_isExpr op (hts t ht)).2

end Term

/-! ### The shapes of a rule -/

namespace CallShape

/-- On expressions the shapes of lists of templates are found without a failure. -/
theorem forwardOf_list {given : List Term} (hgiven : ∀ t ∈ given, t.isExpr)
    (extra conclusion : List Term) :
    forwardOf (.list given) (.list extra) (.list conclusion) =
      .ok (forward (given.map Term.marker) extra.length conclusion.length) := by
  have hmembers : ∀ ts, members (.list ts) = .ok ts := fun _ => rfl
  unfold forwardOf
  rw [hmembers, hmembers, hmembers]
  simp only [bind, Except.bind, Term.markers?_of_isExpr hgiven]
  split_ifs with hblocked
  · have hcause := (forwardBlocked_iff _ _).mp hblocked
    exact congrArg Except.ok (forward_eq_none_iff.mpr hcause).symm
  · rfl

/-- The same for backward calls. -/
theorem backwardOf_list {given conclusion : List Term} (hgiven : ∀ t ∈ given, t.isExpr)
    (hconclusion : ∀ t ∈ conclusion, t.isExpr) (extra : List Term) :
    backwardOf (.list given) (.list extra) (.list conclusion) =
      .ok (backward (given.map Term.marker) extra.length conclusion.length
        (Term.scanIn Marker.substitution.name conclusion == .found)) := by
  have hmembers : ∀ ts, members (.list ts) = .ok ts := fun _ => rfl
  have hvacant : (Term.list extra).isVacant = extra.isEmpty := rfl
  have hne := (Term.scanIn_eq_found_iff Marker.substitution.name hconclusion).1
  unfold backwardOf
  rw [hmembers, hmembers, hvacant]
  simp only [bind, Except.bind, Term.markers?_of_isExpr hgiven]
  cases hscan : Term.scanIn Marker.substitution.name conclusion with
  | noOperator => exact absurd hscan hne
  | found =>
      have hnone : backward (given.map Term.marker) extra.length conclusion.length true = none :=
        backward_eq_none_iff.mpr (by simp)
      simp only [beq_self_eq_true, hnone]
      split_ifs <;> rfl
  | absent =>
      split_ifs with hblocked
      · refine congrArg Except.ok (backward_eq_none_iff.mpr ?_).symm
        simpa [or_assoc] using hblocked
      · obtain rfl : extra = [] := by simp_all
        rfl

end CallShape

namespace Rule

/-- The marks of the givens. -/
def marks (r : Rule) : List (Option Marker) := r.given.map Term.marker

/-- **The shapes of a rule, slot by slot.** A given has a mark when it is a compound with the
operator of the mark. A rule cannot be used forward when its first given is an inference or some
given is a substitution; otherwise the slots are those of the givens, one for each extra, and those
of the conclusions. A rule cannot be used backward when it has several conclusions, an extra, no
given, or a substitution as a part of a conclusion; otherwise the slots are that of the conclusion
and those of the givens. -/
theorem shapes_slotwise (r : Rule) (h : ∀ t ∈ r.given ++ r.extra ++ r.conclusion, t.isExpr) :
    (∀ t m, Term.marker t = some m ↔ ∃ args, t = .ofName m.name args) ∧
    (CallShape.forwardOf (.list r.given) (.list r.extra) (.list r.conclusion) =
        .ok r.forwardShape ∧
      (r.forwardShape = none ↔
        r.marks.head? = some (some .infer) ∨ some .substitution ∈ r.marks) ∧
      ∀ slots, r.forwardShape = some slots →
        slots = r.marks.mapIdx (CallShape.forwardGiven r.marks r.extra.length) ++
          List.replicate r.extra.length .extra ++
          CallShape.conclusionSlots r.marks r.conclusion.length) ∧
    CallShape.backwardOf (.list r.given) (.list r.extra) (.list r.conclusion) =
        .ok r.backwardShape ∧
      (r.backwardShape = none ↔
        1 < r.conclusion.length ∨ r.extra ≠ [] ∨ r.given = [] ∨
          ∃ t ∈ r.conclusion, ∃ args, Term.Within (.ofName Marker.substitution.name args) t) ∧
      ∀ slots, r.backwardShape = some slots →
        slots = .goal :: r.marks.mapIdx (CallShape.backwardGiven r.marks) := by
  simp only [List.forall_mem_append] at h
  obtain ⟨⟨hgiven, -⟩, hconclusion⟩ := h
  refine ⟨fun t m => Term.marker_eq_some_iff,
    ⟨CallShape.forwardOf_list hgiven _ _, CallShape.forward_eq_none_iff,
      fun slots hslots => CallShape.eq_of_forward_eq_some hslots⟩,
    CallShape.backwardOf_list hgiven hconclusion _, ?_,
    fun slots hslots => CallShape.eq_of_backward_eq_some hslots⟩
  rw [backwardShape, CallShape.backward_eq_none_iff, beq_iff_eq,
    (Term.scanIn_eq_found_iff _ hconclusion).2]
  simp

/-- A rule with a plain given, an inference, a step to the next state and another plain given:
forward the last one is optional, and backward the first one is. -/
theorem shapes_slotwise_four_givens :
    let r := Rule.plain "r" [.atom "A", .ofName "infer" [.atom "B", .atom "C"],
      .ofName "succ" [.atom "i", .atom "j"], .atom "D"] [.atom "C"]
    (∀ t ∈ r.given ++ r.extra ++ r.conclusion, t.isExpr) ∧
      r.forwardShape = some [.mandatory, .query, .mandatory, .optional, .combined] ∧
      r.backwardShape = some [.goal, .optional, .query, .required, .required] := by
  intro r
  have hexpr : ∀ t ∈ r.given ++ r.extra ++ r.conclusion, t.isExpr := by decide
  obtain ⟨-, ⟨-, hnone, hforward⟩, -, -, hbackward⟩ := shapes_slotwise r hexpr
  refine ⟨hexpr, ?_, ?_⟩
  · cases hshape : r.forwardShape with
    | none => exact absurd (hnone.mp hshape) (by decide)
    | some slots => rw [hforward slots hshape]; rfl
  · cases hshape : r.backwardShape with
    | none => exact absurd hshape (by decide)
    | some slots => rw [hbackward slots hshape]; rfl

end Rule

end Deduction
