import Deduction.Json.Printer
import Deduction.Json.Reader

/-!
# JSON text is read back

A file of rules is a tree of texts, arrays and objects. The printer writes such a tree over
several lines, with every character outside of plain ASCII as an escape. We show that the reader
gets the tree back from the text, whatever characters the texts in it hold.

The reader works with a budget that bounds the nesting. A value is read back with any budget that
exceeds the length of its text, which the reader always grants. What follows the value in the text
is left alone, because the text of a tree ends with a closing mark.

Of two fields with one name the reader keeps one, so the names of the fields of an object have to
be different.

## Main definitions

* `Json.isTree`: trees of texts, arrays and objects.
* `Json.ReadsBack`: the text of a value is read as that value, with anything behind it.
* `Json.inner`: what stands between the brackets of an array or object.

## Main results

* `Json.stringTail_escapeChar`: an escaped character is read as the character.
* `Json.items_inner`, `Json.fields_inner`: items and fields are read one by one.
* `Json.parse_pretty`: the text of a tree is read as that tree.
-/

namespace Deduction.Json

/-- Induction along the items of arrays and the values of fields. -/
theorem walk {P : Json → Prop} (null : P .null) (bool : ∀ b, P (.bool b))
    (number : ∀ n, P (.number n)) (string : ∀ s, P (.string s))
    (array : ∀ items, (∀ j ∈ items, P j) → P (.array items))
    (object : ∀ fields, (∀ f ∈ fields, P f.2) → P (.object fields)) (j : Json) : P j :=
  match j with
  | .null => null
  | .bool b => bool b
  | .number n => number n
  | .string s => string s
  | .array items => array items fun k _ => walk null bool number string array object k
  | .object fields => object fields fun f _ => walk null bool number string array object f.2
termination_by sizeOf j
decreasing_by
  · have := List.sizeOf_lt_of_mem ‹k ∈ _›
    simp only [Json.array.sizeOf_spec]
    omega
  · have := List.sizeOf_lt_of_mem ‹f ∈ _›
    have : sizeOf f = 1 + sizeOf f.1 + sizeOf f.2 := rfl
    simp only [Json.object.sizeOf_spec]
    omega

/-! ### Characters -/

theorem hexValue?_hexDigit : ∀ d < 16, hexValue? (Text.hexDigit d) = some d := by decide

/-- Four hexadecimal digits spell the unit that they were written for. -/
theorem unit?_hex {n : Nat} (hn : n < 0x10000) (rest : List Char) :
    unit? (Text.hex 4 n ++ rest) = some (n, rest) := by
  have hdigit : ∀ m : Nat, hexValue? (Text.hexDigit (m % 16)) = some (m % 16) := fun m =>
    hexValue?_hexDigit _ (Nat.mod_lt _ (by decide))
  have hsum : ((n / 16 / 16 / 16 % 16 * 16 + n / 16 / 16 % 16) * 16 + n / 16 % 16) * 16 + n % 16 =
      n := by omega
  simp only [Text.hex, List.nil_append, List.cons_append, unit?, hdigit]
  exact congrArg (fun m => some (m, rest)) hsum

/-- No character is half of a surrogate pair. -/
theorem toNat_lt_or_lt (c : Char) : c.toNat < 0xd800 ∨ 0xdfff < c.toNat ∧ c.toNat < 0x110000 :=
  c.valid

/-- The unit of a character stands for the character alone. -/
theorem ofUnit_toNat (c : Char) (rest : List Char) : ofUnit c.toNat rest = (c, rest) := by
  have hvalid := toNat_lt_or_lt c
  have hhigh : ¬ (0xd800 ≤ c.toNat && c.toNat < 0xdc00) := by
    simp only [Bool.and_eq_true, decide_eq_true_eq]
    omega
  have hlow : ¬ (0xdc00 ≤ c.toNat && c.toNat < 0xe000) := by
    simp only [Bool.and_eq_true, decide_eq_true_eq]
    omega
  unfold ofUnit
  rw [if_neg hhigh, if_neg hlow, Char.ofNat_toNat]

/-- The two halves of a surrogate pair stand for one character. -/
theorem ofUnit_pair {high low : Nat} (hhigh : high < 0x400) (hlow : low < 0x400)
    (rest : List Char) :
    ofUnit (0xd800 + high) (unitEscape (0xdc00 + low) ++ rest) =
      (Char.ofNat (0x10000 + high * 0x400 + low), rest) := by
  have hunit : unit? (Text.hex 4 (0xdc00 + low) ++ rest) = some (0xdc00 + low, rest) :=
    unit?_hex (by omega) rest
  have hfirst : (0xd800 ≤ 0xd800 + high && 0xd800 + high < 0xdc00) = true := by
    simp only [Bool.and_eq_true, decide_eq_true_eq]
    omega
  have hsecond : (0xdc00 ≤ 0xdc00 + low && 0xdc00 + low < 0xe000) = true := by
    simp only [Bool.and_eq_true, decide_eq_true_eq]
    omega
  simp only [ofUnit, unitEscape, List.cons_append, hunit, hfirst, hsecond, if_true,
    Nat.add_sub_cancel_left]

/-! ### Texts -/

/-- A unit of sixteen bits, which stands for a character, perhaps with the text behind it. -/
theorem stringTail_unitEscape {n : Nat} (hn : n < 0x10000) {c : Char} {rest more : List Char}
    (hunit : ofUnit n rest = (c, more)) (budget : Nat) :
    stringTail (budget + 1) (unitEscape n ++ rest) =
      (stringTail budget more).map fun p => (c :: p.1, p.2) := by
  have hread := unit?_hex hn rest
  cases htail : stringTail budget more <;> simp [unitEscape, stringTail, hread, hunit, htail]

/-- A letter after a backslash. -/
theorem stringTail_escape {e c : Char} (hc : ofEscape? e = some c) (budget : Nat)
    (rest : List Char) :
    stringTail (budget + 1) ('\\' :: e :: rest) =
      (stringTail budget rest).map fun p => (c :: p.1, p.2) := by
  have he : e ≠ 'u' := by
    rintro rfl
    cases hc
  cases htail : stringTail budget rest <;> simp [stringTail, hc, htail]

/-- A character that is written as it is. -/
theorem stringTail_plain {c : Char} (hlow : 0x20 ≤ c.toNat) (hmark : c ≠ '\x22')
    (hback : c ≠ '\\') (budget : Nat) (rest : List Char) :
    stringTail (budget + 1) (c :: rest) =
      (stringTail budget rest).map fun p => (c :: p.1, p.2) := by
  simp only [stringTail, beq_iff_eq, hmark, hback, if_false, Nat.not_lt.mpr hlow]
  cases stringTail budget rest <;> rfl

/-- How a character is written: as a letter after a backslash, as it is, as one unit, or as the two
units of a surrogate pair. -/
theorem escapeChar_cases (c : Char) :
    (∃ e, ofEscape? e = some c ∧ escapeChar c = ['\\', e]) ∨
      (0x20 ≤ c.toNat ∧ c ≠ '\x22' ∧ c ≠ '\\' ∧ escapeChar c = [c]) ∨
      (c.toNat < 0x10000 ∧ escapeChar c = unitEscape c.toNat) ∨
      (0x10000 ≤ c.toNat ∧ escapeChar c = unitEscape (0xd800 + (c.toNat - 0x10000) / 0x400) ++
        unitEscape (0xdc00 + (c.toNat - 0x10000) % 0x400)) := by
  have hletter {d e : Char} (hd : (c == d) = true) (he : ofEscape? e = some d) :
      ofEscape? e = some c := (eq_of_beq hd).symm ▸ he
  by_cases hself : (c == '\x22' || c == '\\') = true
  · obtain rfl | rfl : c = '\x22' ∨ c = '\\' := by simpa using hself
    · exact .inl ⟨_, rfl, rfl⟩
    · exact .inl ⟨_, rfl, rfl⟩
  have hrest : escapeChar c = _ := if_neg hself
  by_cases hn : (c == '\n') = true
  · exact .inl ⟨_, hletter hn rfl, hrest.trans (if_pos hn)⟩
  replace hrest := hrest.trans (if_neg hn)
  by_cases hr : (c == '\r') = true
  · exact .inl ⟨_, hletter hr rfl, hrest.trans (if_pos hr)⟩
  replace hrest := hrest.trans (if_neg hr)
  by_cases ht : (c == '\t') = true
  · exact .inl ⟨_, hletter ht rfl, hrest.trans (if_pos ht)⟩
  replace hrest := hrest.trans (if_neg ht)
  by_cases hb : (c == '\x08') = true
  · exact .inl ⟨_, hletter hb rfl, hrest.trans (if_pos hb)⟩
  replace hrest := hrest.trans (if_neg hb)
  by_cases hf : (c == '\x0c') = true
  · exact .inl ⟨_, hletter hf rfl, hrest.trans (if_pos hf)⟩
  replace hrest := hrest.trans (if_neg hf)
  by_cases hplain : (0x20 ≤ c.toNat && c.toNat < 0x7f) = true
  · obtain ⟨hmark, hback⟩ : c ≠ '\x22' ∧ c ≠ '\\' := by simpa using hself
    replace hrest := hrest.trans (if_pos hplain)
    rw [Bool.and_eq_true, decide_eq_true_eq] at hplain
    exact .inr (.inl ⟨hplain.1, hmark, hback, hrest⟩)
  replace hrest := hrest.trans (if_neg hplain)
  by_cases hunit : c.toNat < 0x10000
  · exact .inr (.inr (.inl ⟨hunit, hrest.trans (if_pos hunit)⟩))
  · exact .inr (.inr (.inr ⟨Nat.le_of_not_lt hunit, hrest.trans (if_neg hunit)⟩))

/-- **An escaped character is read as the character.** -/
theorem stringTail_escapeChar (c : Char) (budget : Nat) (rest : List Char) :
    stringTail (budget + 1) (escapeChar c ++ rest) =
      (stringTail budget rest).map fun p => (c :: p.1, p.2) := by
  obtain ⟨e, he, hc⟩ | ⟨hlow, hmark, hback, hc⟩ | ⟨hunit, hc⟩ | ⟨hpair, hc⟩ := escapeChar_cases c
  · rw [hc]
    exact stringTail_escape he budget rest
  · rw [hc]
    exact stringTail_plain hlow hmark hback budget rest
  · rw [hc]
    exact stringTail_unitEscape hunit (ofUnit_toNat c rest) budget
  -- The units of a surrogate pair are read in one step.
  · have hvalid := toNat_lt_or_lt c
    have hchar : 0x10000 + (c.toNat - 0x10000) / 0x400 * 0x400 + (c.toNat - 0x10000) % 0x400 =
        c.toNat := by omega
    have hread := @ofUnit_pair ((c.toNat - 0x10000) / 0x400) ((c.toNat - 0x10000) % 0x400)
      (by omega) (by omega) rest
    rw [hchar, Char.ofNat_toNat] at hread
    rw [hc, List.append_assoc]
    exact stringTail_unitEscape (by omega) hread budget

/-- Escaped characters up to the closing mark. -/
theorem stringTail_flatMap_escapeChar (cs rest : List Char) {budget : Nat}
    (hbudget : cs.length < budget) :
    stringTail budget (cs.flatMap escapeChar ++ '\x22' :: rest) = some (cs, rest) := by
  induction cs generalizing budget with
  | nil =>
      obtain ⟨budget, rfl⟩ := Nat.exists_eq_succ_of_ne_zero (Nat.ne_zero_of_lt hbudget)
      rfl
  | cons c cs ih =>
      obtain ⟨budget, rfl⟩ := Nat.exists_eq_succ_of_ne_zero (Nat.ne_zero_of_lt hbudget)
      rw [List.flatMap_cons, List.append_assoc, stringTail_escapeChar,
        ih (Nat.lt_of_succ_lt_succ hbudget)]
      rfl

/-- Every character takes at least one to write. -/
theorem length_le_flatMap_escapeChar (cs : List Char) :
    cs.length ≤ (cs.flatMap escapeChar).length := by
  have hone : ∀ c, 1 ≤ (escapeChar c).length := by
    intro c
    obtain ⟨e, -, hc⟩ | ⟨-, -, -, hc⟩ | ⟨-, hc⟩ | ⟨-, hc⟩ := escapeChar_cases c
    all_goals simp [hc, unitEscape]
  induction cs with
  | nil => exact Nat.le_refl 0
  | cons c cs ih =>
      have := hone c
      rw [List.flatMap_cons, List.length_append, List.length_cons]
      omega

/-- **A written text is read back**, after its opening mark. -/
theorem stringTail_stringText (s : String) (rest : List Char) :
    ∃ tail, (stringText s).toList ++ rest = '\x22' :: tail ∧
      stringTail (tail.length + 1) tail = some (s.toList, rest) := by
  refine ⟨s.toList.flatMap escapeChar ++ '\x22' :: rest, by simp [stringText],
    stringTail_flatMap_escapeChar _ _ ?_⟩
  have := length_le_flatMap_escapeChar s.toList
  rw [List.length_append]
  omega

/-! ### Blanks -/

theorem skip_replicate (n : Nat) (cs : List Char) :
    skip (List.replicate n ' ' ++ cs) = skip cs := by
  induction n with
  | zero => rfl
  | succ n ih => exact ih

/-- The start of a line is skipped. -/
@[simp] theorem skip_newLine (level : Nat) (cs : List Char) :
    skip ((newLine level).toList ++ cs) = skip cs := by
  have hblanks : skip ('\n' :: (List.replicate (2 * level) ' ' ++ cs)) = skip cs :=
    skip_replicate (2 * level) cs
  simpa [newLine] using hblanks

/-- Blanks in front of a value do not matter. -/
theorem value_of_skip {cs cs' : List Char} (h : skip cs = skip cs') (budget : Nat) :
    value budget cs = value budget cs' := by
  cases budget with
  | zero => rfl
  | succ budget => rw [value, value, h]

theorem items_of_skip {cs cs' : List Char} (h : skip cs = skip cs') (budget : Nat) :
    items budget cs = items budget cs' := by
  cases budget with
  | zero => rfl
  | succ budget => rw [items, items, value_of_skip h]

theorem fields_of_skip {cs cs' : List Char} (h : skip cs = skip cs') (budget : Nat)
    (before : List (String × Json)) : fields budget before cs = fields budget before cs' := by
  cases budget with
  | zero => rfl
  | succ budget => rw [fields, fields, h]

/-! ### The text of a value -/

/-- What follows the opening bracket of an array or object and the line end after it. -/
def inner (level : Nat) (close : Char) (pieces : List String) : List Char :=
  (Text.join ("," ++ newLine (level + 1)) pieces).toList ++ ((newLine level).toList ++ [close])

theorem inner_singleton (level : Nat) (close : Char) (piece : String) :
    inner level close [piece] = piece.toList ++ ((newLine level).toList ++ [close]) := rfl

theorem inner_cons_cons (level : Nat) (close : Char) (piece next : String)
    (pieces : List String) :
    inner level close (piece :: next :: pieces) = piece.toList ++
      ',' :: ((newLine (level + 1)).toList ++ inner level close (next :: pieces)) := by
  simp [inner]

theorem toList_prettyAt_array (level : Nat) (item : Json) (items : List Json) :
    (prettyAt level (.array (item :: items))).toList = '[' :: ((newLine (level + 1)).toList ++
      inner level ']' (prettyItems (level + 1) (item :: items))) := by
  simp [prettyAt, inner]

theorem toList_prettyAt_object (level : Nat) (field : String × Json)
    (fields : List (String × Json)) :
    (prettyAt level (.object (field :: fields))).toList =
      '\x7b' :: ((newLine (level + 1)).toList ++
        inner level '\x7d' (prettyFields (level + 1) (field :: fields))) := by
  simp [prettyAt, inner]

mutual

/-- Is the value a tree of texts, arrays, and objects whose fields have different names? -/
def isTree : Json → Bool
  | .string _ => true
  | .array items => areTrees items
  | .object fields => decide (fields.map Prod.fst).Nodup && areTreeFields fields
  | _ => false

/-- Are all the values trees? -/
def areTrees : List Json → Bool
  | [] => true
  | item :: items => isTree item && areTrees items

/-- Are the values of all fields trees? -/
def areTreeFields : List (String × Json) → Bool
  | [] => true
  | (_, value) :: fields => isTree value && areTreeFields fields

end

theorem areTrees_iff {js : List Json} : areTrees js ↔ ∀ j ∈ js, j.isTree := by
  induction js with
  | nil => simp [areTrees]
  | cons j js ih => simp [areTrees, ih]

theorem areTreeFields_iff {fs : List (String × Json)} :
    areTreeFields fs ↔ ∀ f ∈ fs, f.2.isTree := by
  induction fs with
  | nil => simp [areTreeFields]
  | cons f fs ih => simp [areTreeFields, ih]

/-- The text starts with the mark that opens a tree. -/
def Opens (cs : List Char) : Prop := ∃ c rest, cs = c :: rest ∧ c ∈ ['\x22', '[', '\x7b']

theorem opens_stringText (s : String) : Opens (stringText s).toList :=
  ⟨'\x22', s.toList.flatMap escapeChar ++ ['\x22'], by simp [stringText], by simp⟩

/-- The text of a tree starts with its opening mark, so no blank is skipped in front of it. -/
theorem opens_prettyAt {j : Json} (h : j.isTree) (level : Nat) :
    Opens (prettyAt level j).toList := by
  cases j with
  | string s => exact opens_stringText s
  | array items =>
      cases items with
      | nil => exact ⟨'[', [']'], by simp [prettyAt], by simp⟩
      | cons item items => exact ⟨'[', _, toList_prettyAt_array level item items, by simp⟩
  | object fields =>
      cases fields with
      | nil => exact ⟨'\x7b', ['\x7d'], by simp [prettyAt], by simp⟩
      | cons field fields =>
          exact ⟨'\x7b', _, toList_prettyAt_object level field fields, by simp⟩
  | null | bool | number => simp [isTree] at h

theorem Opens.append {cs : List Char} (h : Opens cs) (rest : List Char) : Opens (cs ++ rest) := by
  obtain ⟨c, cs, rfl, hc⟩ := h
  exact ⟨c, cs ++ rest, rfl, hc⟩

theorem Opens.skip_eq {cs : List Char} (h : Opens cs) : skip cs = cs := by
  obtain ⟨c, cs, rfl, hc⟩ := h
  have hspace : ∀ c ∈ ['\x22', '[', '\x7b'], ¬ isSpace c := by simp [isSpace]
  exact List.dropWhile_cons_of_neg (hspace c hc)

/-- What opens a tree closes none. -/
theorem Opens.ne_cons {cs : List Char} (h : Opens cs) {c : Char}
    (hc : c ∉ ['\x22', '[', '\x7b']) (rest : List Char) : cs ≠ c :: rest := by
  obtain ⟨first, cs, rfl, hfirst⟩ := h
  intro heq
  rw [(List.cons.inj heq).1] at hfirst
  exact hc hfirst

/-! ### Reading values -/

/-- The text of the value is read as the value, with anything behind it. -/
def ReadsBack (j : Json) : Prop := ∀ (level budget : Nat) (rest : List Char),
  (prettyAt level j).toList.length < budget →
    value budget ((prettyAt level j).toList ++ rest) = .ok (j, rest)

theorem readsBack_string (s : String) : ReadsBack (.string s) := by
  intro level budget rest hbudget
  obtain ⟨budget, rfl⟩ := Nat.exists_eq_succ_of_ne_zero (Nat.ne_zero_of_lt hbudget)
  obtain ⟨tail, htail, hstring⟩ := stringTail_stringText s rest
  have hmark : skip ('\x22' :: tail) = '\x22' :: tail := rfl
  rw [prettyAt, htail, value, hmark]
  simp only [hstring, orBad, bind, Except.bind, String.ofList_toList]
  rfl

section

variable {j : Json} {level budget : Nat} {after rest more : List Char}

/-- The last item of an array. -/
theorem items_last (hj : ReadsBack j) (hbudget : (prettyAt level j).toList.length < budget)
    (hafter : skip after = ']' :: rest) :
    items (budget + 1) ((prettyAt level j).toList ++ after) = .ok ([j], rest) := by
  rw [items, hj level budget after hbudget]
  simp only [bind, Except.bind, hafter]
  rfl

/-- An item of an array with others behind it. -/
theorem items_more {js : List Json} (hj : ReadsBack j)
    (hbudget : (prettyAt level j).toList.length < budget) (hafter : skip after = ',' :: more)
    (hmore : items budget more = .ok (js, rest)) :
    items (budget + 1) ((prettyAt level j).toList ++ after) = .ok (j :: js, rest) := by
  rw [items, hj level budget after hbudget]
  simp only [bind, Except.bind, hafter, hmore]
  rfl

/-- A field is read up to the end of its value. -/
theorem fields_eq (hj : ReadsBack j) (hbudget : (prettyAt level j).toList.length < budget)
    (name : String) (before : List (String × Json)) (after : List Char) :
    fields (budget + 1) before ((stringText name ++ ": " ++ prettyAt level j).toList ++ after) =
      match skip after with
      | '\x7d' :: rest => .ok (setField name j before, rest)
      | ',' :: rest => fields budget (setField name j before) rest
      | _ => .error .badText := by
  obtain ⟨tail, htail, hstring⟩ :=
    stringTail_stringText name (':' :: ' ' :: ((prettyAt level j).toList ++ after))
  have htext : (stringText name ++ ": " ++ prettyAt level j).toList ++ after =
      '\x22' :: tail := by simpa using htail
  have hmark : skip ('\x22' :: tail) = '\x22' :: tail := rfl
  have hcolon : ∀ cs, skip (':' :: cs) = ':' :: cs := fun cs => rfl
  have hblank : skip (' ' :: ((prettyAt level j).toList ++ after)) =
      skip ((prettyAt level j).toList ++ after) := rfl
  rw [fields, htext]
  simp only [hmark, hstring, orBad, bind, Except.bind, hcolon, value_of_skip hblank,
    hj level budget after hbudget, String.ofList_toList]
  rfl

end

/-- A field with a new name comes last. -/
theorem setField_of_not_mem {name : String} {fields : List (String × Json)}
    (h : name ∉ fields.map Prod.fst) (value : Json) :
    setField name value fields = fields ++ [(name, value)] := by
  induction fields with
  | nil => rfl
  | cons field fields ih =>
      rw [List.map_cons, List.mem_cons, not_or] at h
      rw [setField, if_neg (by simpa using Ne.symm h.1), ih h.2]
      rfl

/-- **The items of an array are read one by one.** Induction on the items; the budget goes down by
one and the text by at least the closing bracket. -/
theorem items_inner {js : List Json} (hne : js ≠ []) (h : ∀ j ∈ js, ReadsBack j)
    (level budget : Nat) (rest : List Char)
    (hbudget : (inner level ']' (prettyItems (level + 1) js)).length < budget) :
    items budget (inner level ']' (prettyItems (level + 1) js) ++ rest) = .ok (js, rest) := by
  induction js generalizing budget with
  | nil => exact absurd rfl hne
  | cons j js ih =>
      obtain ⟨budget, rfl⟩ := Nat.exists_eq_succ_of_ne_zero (Nat.ne_zero_of_lt hbudget)
      obtain ⟨hj, hjs⟩ := List.forall_mem_cons.mp h
      cases js with
      | nil =>
          simp only [prettyItems, inner_singleton, List.length_append, List.append_assoc,
            List.length_singleton] at hbudget ⊢
          exact items_last hj (by omega) (skip_newLine level (']' :: rest))
      | cons k js =>
          simp only [prettyItems, inner_cons_cons, List.length_append, List.length_cons,
            List.append_assoc, List.cons_append] at ih hbudget ⊢
          refine items_more hj (by omega) rfl ?_
          rw [items_of_skip (skip_newLine _ _)]
          exact ih (List.cons_ne_nil _ _) hjs budget (by omega)

/-- **The fields of an object are read one by one**, behind those read before. -/
theorem fields_inner {fs : List (String × Json)} (hne : fs ≠ [])
    (h : ∀ f ∈ fs, ReadsBack f.2) (level budget : Nat) (before : List (String × Json))
    (hnodup : ((before ++ fs).map Prod.fst).Nodup) (rest : List Char)
    (hbudget : (inner level '\x7d' (prettyFields (level + 1) fs)).length < budget) :
    fields budget before (inner level '\x7d' (prettyFields (level + 1) fs) ++ rest) =
      .ok (before ++ fs, rest) := by
  induction fs generalizing budget before with
  | nil => exact absurd rfl hne
  | cons f fs ih =>
      obtain ⟨budget, rfl⟩ := Nat.exists_eq_succ_of_ne_zero (Nat.ne_zero_of_lt hbudget)
      obtain ⟨name, j⟩ := f
      obtain ⟨hj, hfs⟩ : ReadsBack j ∧ ∀ f ∈ fs, ReadsBack f.2 := List.forall_mem_cons.mp h
      have hset : setField name j before = before ++ [(name, j)] := by
        refine setField_of_not_mem (fun hmem => ?_) j
        rw [List.map_append, List.nodup_append] at hnodup
        exact hnodup.2.2 name hmem name (by simp) rfl
      cases fs with
      | nil =>
          have hpretty : prettyFields (level + 1) [(name, j)] =
              [stringText name ++ ": " ++ prettyAt (level + 1) j] := rfl
          have hclose : skip ((newLine level).toList ++ '\x7d' :: rest) = '\x7d' :: rest :=
            skip_newLine level ('\x7d' :: rest)
          rw [hpretty, inner_singleton] at hbudget ⊢
          simp only [List.length_append, String.toList_append, List.length_singleton] at hbudget
          rw [List.append_assoc, List.append_assoc, List.singleton_append,
            fields_eq hj (by omega), hclose, hset]
          rfl
      | cons g fs =>
          have hpretty : prettyFields (level + 1) ((name, j) :: g :: fs) =
              (stringText name ++ ": " ++ prettyAt (level + 1) j) ::
                prettyFields (level + 1) (g :: fs) := rfl
          have hcomma : ∀ cs, skip (',' :: cs) = ',' :: cs := fun cs => rfl
          obtain ⟨next, hnext⟩ : ∃ next, prettyFields (level + 1) (g :: fs) =
              next :: prettyFields (level + 1) fs := ⟨_, rfl⟩
          rw [List.append_cons, ← hset] at hnodup
          rw [hpretty, hnext, inner_cons_cons, ← hnext] at hbudget ⊢
          simp only [List.length_append, List.length_cons, String.toList_append] at hbudget
          rw [List.append_assoc, List.cons_append, List.append_assoc, fields_eq hj (by omega),
            hcomma]
          have hrest := ih (List.cons_ne_nil g fs) hfs budget (setField name j before) hnodup
            (by omega)
          rw [hset, ← List.append_cons] at hrest
          exact (fields_of_skip (skip_newLine _ _) budget _).trans (hset ▸ hrest)

/-- What stands between brackets starts with its first piece. -/
theorem opens_inner {piece : String} (h : Opens piece.toList) (level : Nat) (close : Char)
    (pieces : List String) : Opens (inner level close (piece :: pieces)) := by
  cases pieces with
  | nil => exact h.append _
  | cons next pieces =>
      rw [inner_cons_cons]
      exact h.append _

/-- An array is read once its items are. -/
theorem value_array {budget : Nat} {cs text rest : List Char} {js : List Json}
    (hskip : skip cs = text) (hopens : Opens text) (hitems : items budget text = .ok (js, rest)) :
    value (budget + 1) ('[' :: cs) = .ok (.array js, rest) := by
  have hbracket : skip ('[' :: cs) = '[' :: cs := rfl
  -- The array does not close at once.
  have hclosing : ∀ rest, text ≠ ']' :: rest := hopens.ne_cons (by decide)
  rw [value, hbracket]
  simp only [hskip, bind, Except.bind, hitems]
  rfl

/-- An object is read once its fields are. -/
theorem value_object {budget : Nat} {cs text rest : List Char} {fs : List (String × Json)}
    (hskip : skip cs = text) (hopens : Opens text)
    (hfields : fields budget [] text = .ok (fs, rest)) :
    value (budget + 1) ('\x7b' :: cs) = .ok (.object fs, rest) := by
  have hbracket : skip ('\x7b' :: cs) = '\x7b' :: cs := rfl
  have hclosing : ∀ rest, text ≠ '\x7d' :: rest := hopens.ne_cons (by decide)
  rw [value, hbracket]
  simp only [hskip, bind, Except.bind, hfields]
  rfl

/-- An array of trees that are read back is read back. -/
theorem readsBack_array {js : List Json} (htrees : ∀ j ∈ js, j.isTree)
    (h : ∀ j ∈ js, ReadsBack j) : ReadsBack (.array js) := by
  intro level budget rest hbudget
  obtain ⟨budget, rfl⟩ := Nat.exists_eq_succ_of_ne_zero (Nat.ne_zero_of_lt hbudget)
  cases js with
  | nil =>
      rw [prettyAt]
      rfl
  | cons j js =>
      rw [toList_prettyAt_array] at hbudget ⊢
      simp only [List.length_append, List.length_cons] at hbudget
      have hopens : Opens (inner level ']' (prettyItems (level + 1) (j :: js)) ++ rest) :=
        (opens_inner (opens_prettyAt (htrees j (by simp)) _) level _ _).append rest
      rw [List.cons_append, List.append_assoc]
      refine value_array ((skip_newLine _ _).trans hopens.skip_eq) hopens ?_
      exact items_inner (List.cons_ne_nil j js) h level budget rest (by omega)

/-- An object of trees that are read back is read back, if its fields have different names. -/
theorem readsBack_object {fs : List (String × Json)} (hnodup : (fs.map Prod.fst).Nodup)
    (h : ∀ f ∈ fs, ReadsBack f.2) : ReadsBack (.object fs) := by
  intro level budget rest hbudget
  obtain ⟨budget, rfl⟩ := Nat.exists_eq_succ_of_ne_zero (Nat.ne_zero_of_lt hbudget)
  cases fs with
  | nil =>
      rw [prettyAt]
      rfl
  | cons f fs =>
      rw [toList_prettyAt_object] at hbudget ⊢
      simp only [List.length_append, List.length_cons] at hbudget
      have hopens : Opens (inner level '\x7d' (prettyFields (level + 1) (f :: fs)) ++ rest) := by
        refine (opens_inner ?_ level _ _).append rest
        rw [String.toList_append, String.toList_append]
        exact ((opens_stringText f.1).append _).append _
      rw [List.cons_append, List.append_assoc]
      refine value_object ((skip_newLine _ _).trans hopens.skip_eq) hopens ?_
      exact fields_inner (List.cons_ne_nil f fs) h level budget [] hnodup rest (by omega)

/-- Every tree is read back. -/
theorem readsBack_of_isTree {j : Json} (h : j.isTree) : ReadsBack j := by
  induction j using Json.walk with
  | string s => exact readsBack_string s
  | array items ih =>
      have htrees := areTrees_iff.mp (by simpa [isTree] using h)
      exact readsBack_array htrees fun j hj => ih j hj (htrees j hj)
  | object fields ih =>
      obtain ⟨hnodup, htrees⟩ : (fields.map Prod.fst).Nodup ∧ areTreeFields fields := by
        simpa [isTree] using h
      exact readsBack_object hnodup fun f hf => ih f hf (areTreeFields_iff.mp htrees f hf)
  | null | bool | number => simp [isTree] at h

/-- **The text of a tree is read as that tree.** -/
theorem parse_pretty {j : Json} (h : j.isTree) : parse j.pretty = .ok j := by
  have hvalue : value ((prettyAt 0 j).toList.length + 1) (prettyAt 0 j).toList = .ok (j, []) := by
    simpa using readsBack_of_isTree h 0 _ [] (Nat.lt_succ_self _)
  rw [parse, pretty]
  simp only [hvalue, bind, Except.bind]
  rfl

end Deduction.Json
