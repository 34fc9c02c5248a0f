import Mathlib.Data.List.DropRight
import Mathlib.Logic.Relation
import Deduction.Proofs.Tokens

/-!
# Cutting a text in rounds

A text can be cut into its tokens round by round: blanks are taken off its end once, and then every
round skips as many blanks as there are and takes a bracket or the longest run of word characters,
until nothing is left. Such a loop could get stuck at a place where no token stands, or in a round
that takes nothing. We show that it does neither. What is left after a round does not end in a
blank, so unless it is empty, a token stands behind its blanks, and a token is at least one
character. The loop comes to the tokens of `Token.scan`, which goes over the text once from its end.

So the tokens of a text can be taken from its front one after the other. This gives what they have
in common with the text: all of its characters but the blanks, in order, and a blank wherever two
words meet. Tokens with blanks between them are cut into themselves again.

## Main definitions

* `Token.token?`, `Token.next?`: the token at the start of a text, and behind its blanks.
* `Token.cut`: the rounds that cut a text.
* `Token.Leads`: a token can stand before a text and be a token of its own.
* `Token.IsTrimmed`: a text that does not end in a blank.

## Main results

* `Token.exists_next?`: in a text that is not blank a token stands behind the blanks.
* `Token.IsTrimmed.of_next?`: no round leaves a text that ends in a blank.
* `Token.cut_eq_scan`: the rounds come to the tokens of the text.
* `Token.rounds`: induction on the rounds.
* `Token.flatMap_chars_scan`: the tokens are the text without its blanks.
* `Token.exists_gap_of_scan`: neighbouring words have blanks between them.
* `Token.cut_lossless`: cutting a text fails nowhere and loses nothing but blanks.
-/

namespace Deduction.Token

/-! ### Rounds -/

/-- The token at the start of a text, with what comes after it: a bracket, or else the longest run
of word characters. -/
def token? : List Char → Option (Token × List Char)
  | [] => none
  | c :: rest => match ofBracket? c with
    | some bracket => some (bracket, rest)
    | none =>
      if isWordChar c then
        some (.word (c :: rest.takeWhile isWordChar), rest.dropWhile isWordChar)
      else none

/-- The token behind the blanks at the start of a text. As many blanks as possible are skipped, and
fewer only if no token comes after them. -/
def next? : List Char → Option (Token × List Char)
  | [] => none
  | c :: rest =>
    if Text.isBlank c then (next? rest).or (token? (c :: rest)) else token? (c :: rest)

/-- A token can stand before a text and be a token of its own: a word must end there. -/
def Leads : Token → List Char → Prop
  | .word cs, rest => isWord cs ∧ Ends rest
  | _, _ => True

variable {text rest gap : List Char} {token : Token} {tokens : List Token}

theorem Leads.of_append {right : List Char} (h : Leads token (rest ++ right)) :
    Leads token rest := by
  cases token with
  | word cs =>
      refine ⟨h.1, fun d hd => h.2 d ?_⟩
      rw [List.head?_append, Option.mem_def.mp hd]
      rfl
  | _ => trivial

theorem Leads.append_blanks (h : Leads token rest) (hgap : ∀ c ∈ gap, Text.isBlank c) :
    Leads token (rest ++ gap) := by
  cases token with
  | word cs =>
      refine ⟨h.1, fun d hd => ?_⟩
      cases rest with
      | nil => simp [isWordChar, hgap d (List.mem_of_mem_head? hd)]
      | cons c rest => exact h.2 d hd
  | _ => trivial

/-- A bracket is the token of its character. -/
theorem of_ofBracket? {c : Char} (h : ofBracket? c = some token) :
    token.chars = [c] ∧ ∀ rest, Leads token rest := by
  unfold ofBracket? at h
  split at h <;> cases h <;> exact ⟨rfl, fun _ => trivial⟩

/-- A run of word characters that is as long as possible is a word that ends there. -/
theorem leads_longest {c : Char} (hc : isWordChar c) (cs : List Char) :
    Leads (.word (c :: cs.takeWhile isWordChar)) (cs.dropWhile isWordChar) := by
  refine ⟨isWord_iff.mpr ⟨List.cons_ne_nil _ _, ?_⟩, fun d hd => ?_⟩
  · rintro d (_ | ⟨_, hd⟩)
    · exact hc
    · exact List.mem_takeWhile_imp hd
  · have hstop := List.head?_dropWhile_not isWordChar cs
    rw [Option.mem_def.mp hd] at hstop
    simpa using hstop

/-- The token at the start of a text is what the text starts with, as far as it can reach. -/
theorem of_token? (h : token? text = some (token, rest)) :
    Leads token rest ∧ text = token.chars ++ rest := by
  cases text with
  | nil => cases h
  | cons c cs =>
      rw [token?] at h
      split at h
      next bracket hbracket =>
        obtain ⟨rfl, rfl⟩ := Prod.mk.inj (Option.some.inj h)
        obtain ⟨hchars, hleads⟩ := of_ofBracket? hbracket
        exact ⟨hleads cs, by rw [hchars, List.singleton_append]⟩
      next hbracket =>
        split at h
        next hc =>
          obtain ⟨rfl, rfl⟩ := Prod.mk.inj (Option.some.inj h)
          refine ⟨leads_longest hc cs, ?_⟩
          rw [chars, List.cons_append, List.takeWhile_append_dropWhile]
        next => cases h

/-- **In a text that is not blank a token stands behind the blanks.** -/
theorem exists_next? {c : Char} (hc : c ∈ text) (hblank : Text.isBlank c = false) :
    ∃ token rest, next? text = some (token, rest) := by
  induction text with
  | nil => cases hc
  | cons d cs ih =>
      rw [next?]
      by_cases hd : Text.isBlank d
      · have hmem : c ∈ cs := by
          rcases List.mem_cons.mp hc with rfl | hmem
          · simp [hblank] at hd
          · exact hmem
        obtain ⟨token, rest, h⟩ := ih hmem
        exact ⟨token, rest, by rw [if_pos hd, h, Option.some_or]⟩
      · rw [if_neg hd, token?]
        cases hbracket : ofBracket? d with
        | some bracket => exact ⟨bracket, cs, rfl⟩
        | none => exact ⟨_, _, if_pos (by simp [isWordChar, hd, hbracket])⟩

/-- A token is found behind blanks. -/
theorem of_next? (h : next? text = some (token, rest)) :
    ∃ gap, (∀ c ∈ gap, Text.isBlank c) ∧ Leads token rest ∧ text = gap ++ token.chars ++ rest := by
  have bare {text : List Char} (h : token? text = some (token, rest)) :
      ∃ gap, (∀ c ∈ gap, Text.isBlank c) ∧ Leads token rest ∧
        text = gap ++ token.chars ++ rest :=
    ⟨[], by simp, (of_token? h).1, (of_token? h).2⟩
  induction text with
  | nil => cases h
  | cons c cs ih =>
      rw [next?] at h
      split at h
      next hc =>
        rcases Option.or_eq_some_iff.mp h with hnext | ⟨-, htoken⟩
        · obtain ⟨gap, hgap, hleads, rfl⟩ := ih hnext
          exact ⟨c :: gap, by simpa [hc] using hgap, hleads, rfl⟩
        · exact bare htoken
      next => exact bare h

/-! ### The characters of tokens -/

theorem chars_ne_nil (h : Leads token rest) : token.chars ≠ [] := by
  rcases token with (_ | _) | (_ | _) | cs
  case word => exact (isWord_iff.mp h.1).1
  all_goals exact List.cons_ne_nil _ _

theorem isBlank_of_mem_chars (h : Leads token rest) {c : Char} (hc : c ∈ token.chars) :
    Text.isBlank c = false := by
  rcases token with (_ | _) | (_ | _) | cs
  case word =>
    have hword := (isWord_iff.mp h.1).2 c hc
    simp only [isWordChar, Bool.and_eq_true, Bool.not_eq_true'] at hword
    exact hword.1
  all_goals
    obtain rfl := List.mem_singleton.mp hc
    decide

/-- A round takes at least one character. -/
theorem length_lt_of_next? (h : next? text = some (token, rest)) :
    rest.length < text.length := by
  obtain ⟨gap, -, hleads, rfl⟩ := of_next? h
  have hpos := List.length_pos_iff.mpr (chars_ne_nil hleads)
  simp only [List.length_append]
  omega

/-- The rounds that cut what is left of a text. If no token is found, that is the error. -/
def cutFrom (text : List Char) : Except (List Char) (List Token) :=
  match text with
  | [] => .ok []
  | c :: cs => match _ : next? (c :: cs) with
    | none => .error (c :: cs)
    | some (token, rest) => do return token :: (← cutFrom rest)
termination_by text.length
decreasing_by exact length_lt_of_next? ‹_›

/-- The rounds that cut a text, after blanks have been taken off its end. -/
def cut (text : List Char) : Except (List Char) (List Token) :=
  cutFrom (text.rdropWhile Text.isBlank)

theorem cutFrom_nil : cutFrom [] = .ok [] := by rw [cutFrom]

theorem cutFrom_of_next? (h : next? text = some (token, rest)) :
    cutFrom text = (do return token :: (← cutFrom rest)) := by
  cases text with
  | nil => cases h
  | cons c cs =>
      rw [cutFrom]
      split
      next hnone => simp [h] at hnone
      next token' rest' hsome =>
        obtain ⟨rfl, rfl⟩ := Prod.mk.inj (Option.some.inj (h.symm.trans hsome))
        rfl

/-! ### Tokens in front of a text -/

/-- Blanks at the start of a text are skipped. -/
theorem scan_blanks_append (h : ∀ c ∈ gap, Text.isBlank c) (rest : List Char) :
    scan (gap ++ rest) = scan rest := by
  induction gap with
  | nil => rfl
  | cons c gap ih =>
      rw [List.cons_append, scan, if_pos (h c (by simp))]
      exact ih fun d hd => h d (by simp [hd])

theorem scan_blanks (h : ∀ c ∈ gap, Text.isBlank c) : scan gap = [] := by
  simpa [scan] using scan_blanks_append h []

/-- The first token of a text, and the others. -/
theorem scan_of_leads (hgap : ∀ c ∈ gap, Text.isBlank c) (h : Leads token rest) :
    scan (gap ++ token.chars ++ rest) = token :: scan rest := by
  rw [List.append_assoc, scan_blanks_append hgap]
  cases token with
  | opening b => exact scan_opening b rest
  | closing b => exact scan_closing b rest
  | word cs => exact scan_append_word h.1 h.2

theorem scan_of_next? (h : next? text = some (token, rest)) : scan text = token :: scan rest := by
  obtain ⟨gap, hgap, hleads, rfl⟩ := of_next? h
  exact scan_of_leads hgap hleads

/-- A text is blank, or a token stands behind the blanks at its start. -/
theorem blank_or_leads (text : List Char) :
    (∀ c ∈ text, Text.isBlank c) ∨ ∃ gap token rest, (∀ c ∈ gap, Text.isBlank c) ∧
      Leads token rest ∧ text = gap ++ token.chars ++ rest := by
  by_cases hblank : ∀ c ∈ text, Text.isBlank c
  · exact .inl hblank
  · simp only [not_forall, Bool.not_eq_true] at hblank
    obtain ⟨c, hc, hblank⟩ := hblank
    obtain ⟨token, rest, h⟩ := exists_next? hc hblank
    obtain ⟨gap, hgap, hleads, htext⟩ := of_next? h
    exact .inr ⟨gap, token, rest, hgap, hleads, htext⟩

/-- **Induction on the rounds**: what holds of blank texts, and of a text with a token in front of
it if it holds of the text, holds of every text. -/
theorem rounds {P : List Char → Prop} (blank : ∀ gap, (∀ c ∈ gap, Text.isBlank c) → P gap)
    (round : ∀ gap token rest, (∀ c ∈ gap, Text.isBlank c) → Leads token rest → P rest →
      P (gap ++ token.chars ++ rest)) (text : List Char) : P text := by
  induction hn : text.length using Nat.strong_induction_on generalizing text with
  | _ n ih =>
      rcases blank_or_leads text with hblank | ⟨gap, token, rest, hgap, hleads, rfl⟩
      · exact blank text hblank
      · have hpos := List.length_pos_iff.mpr (chars_ne_nil hleads)
        simp only [List.length_append] at hn
        exact round gap token rest hgap hleads (ih rest.length (by omega) rest rfl)

/-! ### The rounds come to the tokens -/

/-- The text does not end in a blank. -/
def IsTrimmed (text : List Char) : Prop := ∀ c ∈ text.getLast?, Text.isBlank c = false

theorem isTrimmed_rdropWhile (text : List Char) : IsTrimmed (text.rdropWhile Text.isBlank) := by
  intro c hc
  obtain ⟨hne, rfl⟩ := List.mem_getLast?_eq_getLast hc
  simpa using List.rdropWhile_last_not Text.isBlank text hne

/-- Blanks at the end of a text are no tokens. -/
theorem scan_append_blanks (text : List Char) (hgap : ∀ c ∈ gap, Text.isBlank c) :
    scan (text ++ gap) = scan text := by
  induction text using rounds with
  | blank blanks hblanks =>
      have hall : ∀ c ∈ blanks ++ gap, Text.isBlank c := fun c hc =>
        (List.mem_append.mp hc).elim (hblanks c) (hgap c)
      rw [scan_blanks hblanks, scan_blanks hall]
  | round blanks token rest hblanks hleads ih =>
      rw [List.append_assoc, scan_of_leads hblanks (hleads.append_blanks hgap), ih,
        scan_of_leads hblanks hleads]

/-- What one round leaves does not end in a blank either. -/
theorem IsTrimmed.of_next? (htext : IsTrimmed text) (h : next? text = some (token, rest)) :
    IsTrimmed rest := by
  obtain ⟨gap, -, -, rfl⟩ := Token.of_next? h
  intro c hc
  exact htext c (List.mem_getLast?_append_of_mem_getLast? hc)

/-- A text that does not end in a blank is empty or has a token. -/
theorem IsTrimmed.exists_next? (htext : IsTrimmed text) (hne : text ≠ []) :
    ∃ token rest, next? text = some (token, rest) :=
  Token.exists_next? (List.getLast_mem hne) (htext _ (List.getLast?_eq_some_getLast hne))

/-- The rounds from a text that does not end in a blank come to its tokens. -/
theorem IsTrimmed.cutFrom_eq (htext : IsTrimmed text) : cutFrom text = .ok (scan text) := by
  induction hn : text.length using Nat.strong_induction_on generalizing text with
  | _ n ih =>
      by_cases hne : text = []
      · subst hne
        exact cutFrom_nil
      · obtain ⟨token, rest, h⟩ := htext.exists_next? hne
        have hrest := ih rest.length (hn ▸ length_lt_of_next? h) (htext.of_next? h) rfl
        rw [cutFrom_of_next? h, hrest, scan_of_next? h]
        rfl

/-- **The rounds come to the tokens of the text.** -/
theorem cut_eq_scan (text : List Char) : cut text = .ok (scan text) := by
  have hblank : ∀ c ∈ text.rtakeWhile Text.isBlank, Text.isBlank c := fun c hc =>
    List.mem_rtakeWhile_imp hc
  have htext : scan text = scan (text.rdropWhile Text.isBlank) := calc
    scan text = scan (text.rdropWhile Text.isBlank ++ text.rtakeWhile Text.isBlank) := by
      rw [List.rdropWhile_append_rtakeWhile]
    _ = scan (text.rdropWhile Text.isBlank) := scan_append_blanks _ hblank
  rw [cut, (isTrimmed_rdropWhile text).cutFrom_eq, htext]

/-- A round leads from one text to another. -/
def Follows (text rest : List Char) : Prop := ∃ token, next? text = some (token, rest)

/-- After any number of rounds what is left does not end in a blank. -/
theorem IsTrimmed.of_follows (htext : IsTrimmed text)
    (h : Relation.ReflTransGen Follows text rest) : IsTrimmed rest := by
  induction h with
  | refl => exact htext
  | tail _ hround ih =>
      obtain ⟨token, hnext⟩ := hround
      exact ih.of_next? hnext

/-! ### What tokens and text have in common -/

/-- **The tokens are the text without its blanks.** -/
theorem flatMap_chars_scan (text : List Char) :
    (scan text).flatMap chars = text.filter fun c => !Text.isBlank c := by
  induction text using rounds with
  | blank gap hgap =>
      rw [scan_blanks hgap, List.flatMap_nil, eq_comm, List.filter_eq_nil_iff]
      exact fun c hc => by simp [hgap c hc]
  | round gap token rest hgap hleads ih =>
      have hnil : gap.filter (fun c => !Text.isBlank c) = [] :=
        List.filter_eq_nil_iff.mpr fun c hc => by simp [hgap c hc]
      have hself : token.chars.filter (fun c => !Text.isBlank c) = token.chars :=
        List.filter_eq_self.mpr fun c hc => by simp [isBlank_of_mem_chars hleads hc]
      rw [scan_of_leads hgap hleads, List.flatMap_cons, ih, List.filter_append,
        List.filter_append, hnil, hself, List.nil_append]

/-- The first token of a text in its place. -/
theorem exists_of_scan_eq_cons (h : scan text = token :: tokens) :
    ∃ gap rest, (∀ c ∈ gap, Text.isBlank c) ∧ Leads token rest ∧
      text = gap ++ token.chars ++ rest ∧ scan rest = tokens := by
  rcases blank_or_leads text with hblank | ⟨gap, token', rest, hgap, hleads, rfl⟩
  · rw [scan_blanks hblank] at h
    cases h
  · rw [scan_of_leads hgap hleads] at h
    obtain ⟨rfl, htokens⟩ := List.cons.inj h
    exact ⟨gap, rest, hgap, hleads, rfl, htokens⟩

/-- **Neighbouring words have blanks between them.** Induction on the tokens before the words. -/
theorem exists_gap_of_scan {before after : List Token} {a b : List Char}
    (h : scan text = before ++ word a :: word b :: after) :
    ∃ left gap right, text = left ++ a ++ gap ++ b ++ right ∧ gap ≠ [] ∧
      (∀ c ∈ gap, Text.isBlank c) ∧ scan left = before ∧ scan right = after := by
  induction before generalizing text with
  | nil =>
      obtain ⟨left, rest, hleft, ⟨-, hends⟩, rfl, hrest⟩ := exists_of_scan_eq_cons h
      obtain ⟨gap, right, hgap, ⟨hb, -⟩, rfl, hright⟩ := exists_of_scan_eq_cons hrest
      refine ⟨left, gap, right, by simp [chars], ?_, hgap, scan_blanks hleft, hright⟩
      -- Without a blank between them the first word would reach into the second.
      rintro rfl
      obtain ⟨hne, hall⟩ := isWord_iff.mp hb
      obtain ⟨d, ds, rfl⟩ := List.exists_cons_of_ne_nil hne
      exact absurd (hall d (by simp)) (by simp [hends d (by simp [chars])])
  | cons token before ih =>
      obtain ⟨start, rest, hstart, hleads, rfl, hrest⟩ := exists_of_scan_eq_cons h
      obtain ⟨left, gap, right, rfl, hne, hgap, hleft, hright⟩ := ih hrest
      refine ⟨start ++ token.chars ++ left, gap, right, by simp, hne, hgap, ?_, hright⟩
      simp only [List.append_assoc] at hleads
      rw [scan_of_leads hstart hleads.of_append, hleft]

/-- A token of a text is its own token. -/
theorem cuts_text_of_mem_scan (h : token ∈ scan text) : Cuts token.text [token] := by
  cases token with
  | opening b => exact fun rest _ => by simp [Token.text]
  | closing b => exact fun rest _ => by simp [Token.text]
  | word cs =>
      have hcuts := cuts_word (s := String.ofList cs) (by simpa using isWord_of_mem_scan h)
      simpa [Token.text, chars] using hcuts

/-- The tokens of a text with blanks between them are its tokens again. -/
theorem scan_join_text (text : List Char) :
    scan (Text.join " " ((scan text).map Token.text)).toList = scan text := by
  have hcuts := Cuts.join fun token (h : token ∈ scan text) => cuts_text_of_mem_scan h
  simpa using hcuts.scan_eq

/-- The characters of brackets. -/
def brackets : List Char := ['(', ')', '[', ']']

theorem of_isWordChar {c : Char} (h : isWordChar c) : Text.isBlank c = false ∧ c ∉ brackets := by
  obtain ⟨hblank, hbracket⟩ : Text.isBlank c = false ∧ ofBracket? c = none := by
    simpa [isWordChar] using h
  refine ⟨hblank, fun hmem => ?_⟩
  have hall : brackets.all fun d => (ofBracket? d).isSome := by decide
  simpa [hbracket] using List.all_eq_true.mp hall c hmem

/-- A token of a text is a bracket or a word. -/
theorem bracket_or_word_of_mem_scan (h : token ∈ scan text) :
    (∃ c ∈ brackets, token.chars = [c]) ∨
      token.chars ≠ [] ∧ ∀ c ∈ token.chars, Text.isBlank c = false ∧ c ∉ brackets := by
  cases token with
  | opening b => exact .inl (by cases b <;> simp [chars, brackets])
  | closing b => exact .inl (by cases b <;> simp [chars, brackets])
  | word cs =>
      obtain ⟨hne, hall⟩ := isWord_iff.mp (isWord_of_mem_scan h)
      exact .inr ⟨hne, fun c hc => of_isWordChar (hall c hc)⟩

/-- **Cutting a text fails nowhere and loses nothing but blanks.** The rounds return the tokens of
the text, and each round before the end finds a token and leaves less than there was. A token is a
single bracket, or characters that are neither blank nor brackets. The tokens in a row are the text
without its blanks. Where two words are neighbours among the tokens, there are blanks between them
in the text. And the tokens with single blanks between them are cut into the same tokens. -/
theorem cut_lossless (text : List Char) :
    cut text = .ok (scan text) ∧
    (∀ rest, Relation.ReflTransGen Follows (text.rdropWhile Text.isBlank) rest → rest ≠ [] →
      ∃ token rest', next? rest = some (token, rest') ∧ rest'.length < rest.length) ∧
    (∀ token ∈ scan text, (∃ c ∈ brackets, token.chars = [c]) ∨
      token.chars ≠ [] ∧ ∀ c ∈ token.chars, Text.isBlank c = false ∧ c ∉ brackets) ∧
    (scan text).flatMap chars = text.filter (fun c => !Text.isBlank c) ∧
    (∀ before a b after, scan text = before ++ word a :: word b :: after →
      ∃ left gap right, text = left ++ a ++ gap ++ b ++ right ∧ gap ≠ [] ∧
        (∀ c ∈ gap, Text.isBlank c) ∧ scan left = before ∧ scan right = after) ∧
    cut (Text.join " " ((scan text).map Token.text)).toList = .ok (scan text) := by
  refine ⟨cut_eq_scan text, ?_, ?_, flatMap_chars_scan text, ?_, ?_⟩
  · intro rest hrest hne
    have htrimmed := (isTrimmed_rdropWhile text).of_follows hrest
    obtain ⟨token, rest', hnext⟩ := htrimmed.exists_next? hne
    exact ⟨token, rest', hnext, length_lt_of_next? hnext⟩
  · exact fun token h => bracket_or_word_of_mem_scan h
  · exact fun before a b after h => exists_gap_of_scan h
  · rw [cut_eq_scan, scan_join_text]

/-- A text with blanks of several kinds: between `p` and `q` there is an ideographic space. -/
theorem cut_lossless_wide_blank :
    cut " [p\u3000q](r)\t\n".toList = .ok [opening .square, word ['p'], word ['q'],
      closing .square, opening .round, word ['r'], closing .round] ∧
    ∃ left gap right, " [p\u3000q](r)\t\n".toList = left ++ ['p'] ++ gap ++ ['q'] ++ right ∧
      gap ≠ [] ∧ (∀ c ∈ gap, Text.isBlank c) ∧ scan left = [opening .square] ∧
      scan right = [closing .square, opening .round, word ['r'], closing .round] := by
  obtain ⟨hcut, -, -, -, hgap, -⟩ := cut_lossless " [p\u3000q](r)\t\n".toList
  exact ⟨hcut, hgap [opening .square] ['p'] ['q'] _ rfl⟩

end Deduction.Token
