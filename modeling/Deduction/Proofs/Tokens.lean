import Deduction.Token

/-!
# What texts are cut into

The lemmas with which a text is cut into its tokens piece by piece: blanks are skipped, brackets
stand alone, and a word reaches as far as it can.

## Main definitions

* `Token.isWord`: a non-empty run of word characters.
* `Token.Ends`: a text that no word before it can reach into.
* `Token.Cuts`: a piece of text is cut into the given tokens, whatever comes after it.

## Main results

* `Token.scan_append_word`: a word in front of a text that ends it is one token.
* `Token.isWord_of_mem_scan`: the words of a text are words.
* `Token.Cuts.join`, `Token.Cuts.enclose`: pieces with blanks between them, and in brackets.
-/

namespace Deduction.Token

/-- Can the characters be one word? -/
def isWord (cs : List Char) : Bool := !cs.isEmpty && cs.all isWordChar

/-- No word that stands before the text reaches into it. -/
def Ends (rest : List Char) : Prop := ∀ d ∈ rest.head?, isWordChar d = false

theorem isWord_iff {cs : List Char} : isWord cs ↔ cs ≠ [] ∧ ∀ c ∈ cs, isWordChar c := by
  simp [isWord]

theorem ends_nil : Ends [] := by simp [Ends]

theorem ends_cons {d : Char} {rest : List Char} : Ends (d :: rest) ↔ isWordChar d = false := by
  simp [Ends]

/-! ### Single characters -/

theorem isWordChar_space : isWordChar ' ' = false := by decide

@[simp] theorem scan_space (rest : List Char) : scan (' ' :: rest) = scan rest :=
  if_pos (by decide)

@[simp] theorem scan_opening (b : Bracket) (rest : List Char) :
    scan ((opening b).chars ++ rest) = opening b :: scan rest := by
  cases b <;> exact if_neg (by decide)

@[simp] theorem scan_closing (b : Bracket) (rest : List Char) :
    scan ((closing b).chars ++ rest) = closing b :: scan rest := by
  cases b <;> exact if_neg (by decide)

theorem ends_closing (b : Bracket) (rest : List Char) : Ends ((closing b).chars ++ rest) := by
  cases b <;> exact ends_cons.mpr (by decide)

theorem scan_wordChar {c : Char} (hc : isWordChar c) (rest : List Char) :
    scan (c :: rest) = attach c rest (scan rest) := by
  obtain ⟨hblank, hbracket⟩ : Text.isBlank c = false ∧ ofBracket? c = none := by
    simpa [isWordChar] using hc
  rw [scan, if_neg (by simp [hblank]), hbracket]

theorem attach_of_ends (c : Char) {rest : List Char} (hrest : Ends rest) (tokens : List Token) :
    attach c rest tokens = word [c] :: tokens := by
  fun_cases attach c rest tokens with
  | case1 d rest cs more hd => exact absurd hd (by simp [ends_cons.mp hrest])
  | case2 d rest cs more hd => rfl
  | case3 => rfl

/-! ### Words -/

/-- A word in front of a text that ends it is one token. -/
theorem scan_append_word {cs rest : List Char} (hcs : isWord cs) (hrest : Ends rest) :
    scan (cs ++ rest) = word cs :: scan rest := by
  obtain ⟨hne, hall⟩ := isWord_iff.mp hcs
  clear hcs
  induction cs with
  | nil => exact absurd rfl hne
  | cons c cs ih =>
      rw [List.cons_append, scan_wordChar (hall c (by simp))]
      cases cs with
      | nil => exact attach_of_ends c hrest (scan rest)
      | cons d cs =>
          rw [ih (by simp) fun x hx => hall x (List.mem_cons_of_mem c hx)]
          exact if_pos (hall d (by simp))

/-- A character that is attached is a word of its own, or makes the first word longer. -/
theorem attach_cases (c : Char) (rest : List Char) (tokens : List Token) :
    attach c rest tokens = word [c] :: tokens ∨
      ∃ cs more, tokens = word cs :: more ∧ attach c rest tokens = word (c :: cs) :: more := by
  fun_cases attach c rest tokens with
  | case1 d rest cs more hd => exact .inr ⟨cs, more, rfl, rfl⟩
  | case2 d rest cs more hd => exact .inl rfl
  | case3 => exact .inl rfl

/-- The words of a text are words. -/
theorem isWord_of_mem_scan {text cs : List Char} (h : word cs ∈ scan text) : isWord cs := by
  induction text generalizing cs with
  | nil => simp [scan] at h
  | cons c text ih =>
      rw [scan] at h
      split at h
      next => exact ih h
      next hblank =>
        split at h
        next token hbracket =>
          rcases List.mem_cons.mp h with rfl | h
          · exact absurd hbracket (by unfold ofBracket?; split <;> simp)
          · exact ih h
        next hbracket =>
          have hc : isWordChar c := by simp [isWordChar, hblank, hbracket]
          rcases attach_cases c text (scan text) with heq | ⟨ds, more, htokens, heq⟩
          · rcases List.mem_cons.mp (heq ▸ h) with hself | hmem
            · cases hself
              simp [isWord, hc]
            · exact ih hmem
          · rcases List.mem_cons.mp (heq ▸ h) with hself | hmem
            · cases hself
              obtain ⟨-, hall⟩ := isWord_iff.mp (ih (htokens ▸ List.mem_cons_self ..))
              exact isWord_iff.mpr ⟨by simp, by simpa [hc] using hall⟩
            · exact ih (htokens ▸ List.mem_cons_of_mem _ hmem)

/-! ### Pieces of text -/

/-- The piece is cut into the tokens, if the text after it ends its words. -/
def Cuts (piece : String) (tokens : List Token) : Prop :=
  ∀ rest, Ends rest → scan (piece.toList ++ rest) = tokens ++ scan rest

theorem Cuts.scan_eq {piece : String} {tokens : List Token} (h : Cuts piece tokens) :
    scan piece.toList = tokens := by
  simpa [scan] using h [] ends_nil

theorem cuts_word {s : String} (h : isWord s.toList) : Cuts s [word s.toList] := fun _ hrest =>
  scan_append_word h hrest

/-- Pieces with blanks between them. -/
theorem Cuts.join {α : Type} {piece : α → String} {tokens : α → List Token} {xs : List α}
    (h : ∀ x ∈ xs, Cuts (piece x) (tokens x)) :
    Cuts (Text.join " " (xs.map piece)) (xs.flatMap tokens) := by
  induction xs with
  | nil => exact fun rest _ => rfl
  | cons x xs ih =>
      have hx := h x (by simp)
      have hxs := ih fun y hy => h y (List.mem_cons_of_mem x hy)
      cases xs with
      | nil => simpa using hx
      | cons y ys =>
          intro rest hrest
          have hspace : Ends (' ' :: ((Text.join " " ((y :: ys).map piece)).toList ++ rest)) :=
            ends_cons.mpr isWordChar_space
          calc scan ((Text.join " " ((x :: y :: ys).map piece)).toList ++ rest)
              = scan ((piece x).toList ++
                  ' ' :: ((Text.join " " ((y :: ys).map piece)).toList ++ rest)) := by
                simp [String.toList_append]
            _ = tokens x ++ ((y :: ys).flatMap tokens ++ scan rest) := by
                rw [hx _ hspace, scan_space, hxs rest hrest]
            _ = (x :: y :: ys).flatMap tokens ++ scan rest := by
                simp only [List.flatMap_cons, List.append_assoc]

/-- A piece in brackets. -/
theorem Cuts.enclose {piece : String} {tokens : List Token} (h : Cuts piece tokens)
    (b : Bracket) :
    Cuts ((opening b).text ++ piece ++ (closing b).text) (opening b :: tokens ++ [closing b]) := by
  intro rest _
  have hends := ends_closing b rest
  simp only [text, String.toList_append, String.toList_ofList, List.append_assoc, scan_opening,
    h _ hends, scan_closing, List.cons_append, List.nil_append]

end Deduction.Token
