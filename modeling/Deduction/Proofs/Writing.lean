import Mathlib.Algebra.Group.Int.Defs
import Mathlib.Algebra.Group.Nat.Defs
import Deduction.Proofs.Templates

/-!
# What can be written

A text cannot hold a whole number with too many digits. Terms hold such numbers in two places: in
data, and as the serials of their variables. An expression holds no data, so an expression without
variables can always be written. Normalisation turns lists into groups and keeps everything else,
so it neither adds nor removes anything that is too long. And where it refuses a value, the
complaint shows a part of the value, so one that can be written is complained about in words.

An error whose wording cannot be written is not passed on as it is. It gives way to the failure to
write it, which can itself be written.

## Main results

* `Term.isWritable_of_isGround`: expressions without variables can be written.
* `Term.isWritable_of_normalize`: normalisation changes nothing about what can be written.
* `Term.isWritable_of_normalize_eq_error`: nor do its complaints.
* `Error.raised_of_isWritable`, `Error.raised_eq_or`: what errors are passed on as.
-/

namespace Deduction

namespace Text

/-- The least number that is too long to be written. -/
def longNumber : Int := 10 ^ digitLimit

end Text

namespace Term

/-- An expression without variables can be written: it holds names only. -/
theorem isWritable_of_isGround {t : Term} (ht : t.isExpr) (hground : t.isGround) :
    t.isWritable := by
  induction t using Term.walk with
  | app op args ih =>
      obtain ⟨⟨name, rfl, -⟩, -, hargs⟩ := isExpr_app_iff.mp ht
      have hall : areWritable args := areWritable_iff.mpr fun a ha => by
        refine ih a ha (hargs a ha) (isGround_iff.mpr fun v hv => ?_)
        exact isGround_iff.mp hground v (mem_vars_app.mpr ⟨a, ha, hv⟩)
      simpa [isWritable] using hall
  | group items ih =>
      have hall : areWritable items := areWritable_iff.mpr fun a ha => by
        refine ih a ha (isExpr_group_iff.mp ht a ha) (isGround_iff.mpr fun v hv => ?_)
        exact isGround_iff.mp hground v (mem_vars_group.mpr ⟨a, ha, hv⟩)
      simpa [isWritable] using hall
  | var v => exact absurd hground (by simp [isGround, vars])
  | atom | hollow | wildcard => rfl
  | list | datum => simp [isExpr] at ht

mutual

/-- The expression that a value stands for can be written if and only if the value can. -/
theorem isWritable_of_normalize : ∀ {t u : Term}, normalize t = .ok u →
    t.isWritable = u.isWritable
  | .atom s, u, h => by
      by_cases hs : s.isEmpty
      · simp [normalize, hs] at h
      · rw [normalize, if_neg hs, Except.ok.injEq] at h
        rw [h]
  | .app op args, u, h => by
      obtain ⟨name, us, rfl, -, -, hus, rfl⟩ := normalize_app_eq_ok_iff.mp h
      rw [isWritable, isWritable, areWritable_of_normalizeAll hus]
  | .hollow, u, h => by simp [normalize] at h
  | .group items, u, h => by
      obtain ⟨us, hus, rfl⟩ := normalize_items_eq_ok_iff.mp h
      rw [isWritable, isWritable, areWritable_of_normalizeAll hus]
  | .var v, u, h => by
      rw [normalize, Except.ok.injEq] at h
      rw [h]
  | .wildcard, u, h => by simp [normalize] at h
  | .list items, u, h => by
      obtain ⟨us, hus, rfl⟩ := normalize_items_eq_ok_iff.mp h
      rw [isWritable, isWritable, areWritable_of_normalizeAll hus]
  | .datum d, u, h => by simp [normalize] at h

/-- The same item by item. -/
theorem areWritable_of_normalizeAll : ∀ {ts us : List Term}, normalizeAll ts = .ok us →
    areWritable ts = areWritable us
  | [], us, h => by
      rw [normalizeAll, Except.ok.injEq] at h
      rw [h]
  | t :: ts, us, h => by
      obtain ⟨u, us', hu, hus', rfl⟩ := normalizeAll_cons_eq_ok_iff.mp h
      rw [areWritable, areWritable, isWritable_of_normalize hu, areWritable_of_normalizeAll hus']

end

mutual

/-- The complaint about a value shows a part of it, so it can be written if the value can. -/
theorem isWritable_of_normalize_eq_error : ∀ {t : Term} {cause : Malformed},
    normalize t = .error cause → t.isWritable → cause.isWritable
  | .atom s, cause, h, _ => by
      by_cases hs : s.isEmpty
      · rw [normalize, if_pos hs, Except.error.injEq] at h
        rw [← h]
        rfl
      · simp [normalize, hs] at h
  | .app (.atom name) args, cause, h, ht => by
      by_cases hbad : name.isEmpty || args.isEmpty
      · rw [normalize, if_pos hbad, Except.error.injEq] at h
        rw [← h]
        exact ht
      · rw [normalize, if_neg hbad] at h
        rcases bind_eq_error_iff.mp h with h | ⟨us, -, h⟩
        · rw [isWritable, Bool.and_eq_true] at ht
          exact areWritable_of_normalizeAll_eq_error h ht.2
        · cases h
  | .app (.app _ _) _, cause, h, ht | .app .hollow _, cause, h, ht
  | .app (.group _) _, cause, h, ht | .app (.var _) _, cause, h, ht
  | .app .wildcard _, cause, h, ht | .app (.list _) _, cause, h, ht
  | .app (.datum _) _, cause, h, ht => by
      rw [normalize, Except.error.injEq] at h
      · rw [← h]
        exact ht
      · simp
  | .hollow, cause, h, ht | .wildcard, cause, h, ht | .datum d, cause, h, ht => by
      rw [normalize, Except.error.injEq] at h
      rw [← h]
      exact ht
  | .group items, cause, h, ht | .list items, cause, h, ht => by
      rw [isWritable] at ht
      rcases bind_eq_error_iff.mp h with h | ⟨us, -, h⟩
      · exact areWritable_of_normalizeAll_eq_error h ht
      · cases h
  | .var v, cause, h, _ => by simp [normalize] at h

/-- The same for the first item that is complained about. -/
theorem areWritable_of_normalizeAll_eq_error : ∀ {ts : List Term} {cause : Malformed},
    normalizeAll ts = .error cause → areWritable ts → cause.isWritable
  | [], cause, h, _ => by simp [normalizeAll] at h
  | t :: ts, cause, h, hts => by
      rw [areWritable, Bool.and_eq_true] at hts
      rcases bind_eq_error_iff.mp h with h | ⟨u, -, h⟩
      · exact isWritable_of_normalize_eq_error h hts.1
      · rcases bind_eq_error_iff.mp h with h | ⟨us, -, h⟩
        · exact areWritable_of_normalizeAll_eq_error h hts.2
        · cases h

end

end Term

namespace Error

/-- An error that can be written is passed on as it is. -/
theorem raised_of_isWritable {e : Error} (h : e.isWritable) : e.raised = e := by
  cases e <;> simp [raised, h]

/-- Every error is passed on as it is, or as the failure to write it. -/
theorem raised_eq_or (e : Error) :
    e.raised = e ∨ e.isWritable = false ∧ e.raised = .unwritable := by
  unfold raised
  split
  · exact .inl rfl
  · cases h : e.isWritable with
    | true => exact .inl rfl
    | false => exact .inr ⟨rfl, rfl⟩

/-- No other error is passed on as the complaint of a run about the number of its arguments. -/
theorem raised_eq_wrongArity_iff {e : Error} {id : String} {expected got : Nat} :
    e.raised = .wrongArity id expected got ↔ e = .wrongArity id expected got := by
  rcases raised_eq_or e with h | ⟨hlong, h⟩
  · rw [h]
  · rw [h]
    constructor
    · rintro ⟨⟩
    · rintro rfl
      cases hlong

end Error

end Deduction
