import Deduction.Proofs.Templates
import Deduction.Proofs.Tokens
import Deduction.Term.Printer
import Deduction.Term.Reader

/-!
# What can be read

The reader takes one token at a time and keeps a stack of open brackets. The tokens read so far
can always be told from that stack, so a text that is read is the spelling of the expression
that it is read as. Conversely the spelling of an expression is read back. Together with the way
texts are cut into tokens, this says of every text what it is read as: the reader accepts exactly
the printed forms of the readable expressions, up to blanks, and the lone wildcard.

## Main definitions

* `Term.isReadable`: the expressions that have a printed form of their own.
* `Term.spell`: the tokens of an expression.
* `Progress.spell`: the tokens read so far.

## Main results

* `Term.spell_of_readToken`: one token is read.
* `Term.spell_of_readFrom`, `Term.readFrom_spell`: all tokens are read, and read back.
* `Term.cuts_render`: the printed form of an expression is cut into its tokens.
* `Term.read_iff_spelled`: what the reader makes of every text.
-/

namespace Deduction

namespace Term

/-! ### Readable expressions -/

mutual

/-- Atoms and operators are words, compounds have an argument, and the name of the wildcard is
used for operators only. -/
def isReadable : Term → Bool
  | .atom s => Token.isWord s.toList && s != wildcardName
  | .app (.atom op) args => Token.isWord op.toList && !args.isEmpty && areReadable args
  | .group items => areReadable items
  | _ => false

/-- Are all the terms readable? -/
def areReadable : List Term → Bool
  | [] => true
  | t :: ts => isReadable t && areReadable ts

end

mutual

/-- Readable expressions without regard to the names in them. -/
def isBracketed : Term → Bool
  | .atom _ => true
  | .app (.atom _) args => !args.isEmpty && areBracketed args
  | .group items => areBracketed items
  | _ => false

/-- `isBracketed` item by item. -/
def areBracketed : List Term → Bool
  | [] => true
  | t :: ts => isBracketed t && areBracketed ts

end

mutual

/-- The tokens of an expression. -/
def spell : Term → List Token
  | .atom s => [.word s.toList]
  | .app op args => .opening .round :: (spell op ++ spellAll args) ++ [.closing .round]
  | .group items => .opening .square :: spellAll items ++ [.closing .square]
  | _ => []

/-- The tokens of several expressions. -/
def spellAll : List Term → List Token
  | [] => []
  | t :: ts => spell t ++ spellAll ts

end

theorem areReadable_iff (ts : List Term) : areReadable ts ↔ ∀ t ∈ ts, t.isReadable := by
  induction ts with
  | nil => simp [areReadable]
  | cons t ts ih => simp [areReadable, ih]

theorem areBracketed_iff (ts : List Term) : areBracketed ts ↔ ∀ t ∈ ts, t.isBracketed := by
  induction ts with
  | nil => simp [areBracketed]
  | cons t ts ih => simp [areBracketed, ih]

theorem spellAll_eq_flatMap (ts : List Term) : spellAll ts = ts.flatMap spell := by
  induction ts with
  | nil => rfl
  | cons t ts ih => rw [spellAll, ih, List.flatMap_cons]

theorem renderAll_eq_map (ts : List Term) : renderAll ts = ts.map render := by
  induction ts with
  | nil => rfl
  | cons t ts ih => rw [renderAll, ih, List.map_cons]

theorem spell_ofName (op : String) (args : List Term) :
    (ofName op args).spell = .opening .round :: spellAll (.atom op :: args) ++ [.closing .round] :=
  rfl

/-- The operator of a compound that can be read is an atom. -/
theorem isBracketed_app_iff {op : Term} {args : List Term} : (app op args).isBracketed ↔
    ∃ name, op = .atom name ∧ args ≠ [] ∧ ∀ t ∈ args, t.isBracketed := by
  cases op <;> simp [isBracketed, areBracketed_iff]

theorem isReadable_app_iff {op : Term} {args : List Term} : (app op args).isReadable ↔
    ∃ name, op = .atom name ∧ Token.isWord name.toList ∧ args ≠ [] ∧ ∀ t ∈ args, t.isReadable := by
  cases op <;> simp [isReadable, areReadable_iff, and_assoc]

theorem isReadable_group_iff {items : List Term} :
    (group items).isReadable ↔ ∀ t ∈ items, t.isReadable := by
  simp [isReadable, areReadable_iff]

theorem isBracketed_group_iff {items : List Term} :
    (group items).isBracketed ↔ ∀ t ∈ items, t.isBracketed := by
  simp [isBracketed, areBracketed_iff]

theorem word_mem_spellAll {cs : List Char} {ts : List Term} :
    .word cs ∈ spellAll ts ↔ ∃ t ∈ ts, .word cs ∈ t.spell := by
  rw [spellAll_eq_flatMap, List.mem_flatMap]

/-- Readability is a matter of the brackets, of the words, and of the wildcard. -/
theorem isReadable_iff {t : Term} : t.isReadable ↔ t.isBracketed ∧
    (∀ cs, .word cs ∈ t.spell → Token.isWord cs) ∧ occurs (.atom wildcardName) t = false := by
  have hall : ∀ ts : List Term,
      (∀ t ∈ ts, (t.isReadable ↔ t.isBracketed ∧ (∀ cs, .word cs ∈ t.spell → Token.isWord cs) ∧
        occurs (.atom wildcardName) t = false)) →
      ((∀ t ∈ ts, t.isReadable) ↔ (∀ t ∈ ts, t.isBracketed) ∧
        (∀ cs, .word cs ∈ spellAll ts → Token.isWord cs) ∧
        occursIn (.atom wildcardName) ts = false) := by
    intro ts ih
    simp only [word_mem_spellAll, occursIn_eq_any, List.any_eq_false, Bool.not_eq_true]
    constructor
    · intro h
      refine ⟨fun t ht => ((ih t ht).mp (h t ht)).1, ?_, fun t ht => ((ih t ht).mp (h t ht)).2.2⟩
      rintro cs ⟨t, ht, hcs⟩
      exact ((ih t ht).mp (h t ht)).2.1 cs hcs
    · rintro ⟨hbracketed, hwords, hoccurs⟩ t ht
      exact (ih t ht).mpr ⟨hbracketed t ht, fun cs hcs => hwords cs ⟨t, ht, hcs⟩, hoccurs t ht⟩
  induction t using Term.walk with
  | atom s =>
      have hoccurs : occurs (.atom wildcardName) (.atom s) = (wildcardName == s) := by
        simp [occurs, same]
      rw [hoccurs, beq_eq_false_iff_ne, ne_comm]
      simp [isReadable, isBracketed, spell]
  | app op args ih =>
      rw [isReadable_app_iff, isBracketed_app_iff]
      -- The operator is one of the words, but the wildcard is not searched for in its place.
      constructor
      · rintro ⟨name, rfl, hname, hne, hargs⟩
        obtain ⟨hbracketed, hwords, hoccurs⟩ := (hall args ih).mp hargs
        refine ⟨⟨name, rfl, hne, hbracketed⟩, fun cs hcs => ?_, by simpa [occurs, same]⟩
        have hmem : cs = name.toList ∨ .word cs ∈ spellAll args := by simpa [spell] using hcs
        exact hmem.elim (fun heq => heq ▸ hname) (hwords cs)
      · rintro ⟨⟨name, rfl, hne, hbracketed⟩, hwords, hoccurs⟩
        refine ⟨name, rfl, hwords _ (by simp [spell]), hne, (hall args ih).mpr ?_⟩
        refine ⟨hbracketed, fun cs hcs => hwords cs (by simp [spell, hcs]), ?_⟩
        simpa [occurs, same] using hoccurs
  | group items ih =>
      rw [isReadable_group_iff, isBracketed_group_iff, hall items ih]
      simp [spell, occurs, same]
  | _ => simp [isReadable, isBracketed]

/-! ### The tokens read so far -/

/-- The tokens of a text up to a place inside brackets. -/
def spellStack : List Frame → List Token
  | [] => []
  | f :: outer => spellStack outer ++ .opening f.bracket :: spellAll f.items.reverse

end Term

namespace Progress

/-- The tokens read so far. -/
def spell : Progress → List Token
  | .inside stack => Term.spellStack stack
  | .done t => t.spell

/-- Everything read so far is well bracketed. -/
def IsBracketed : Progress → Prop
  | .inside stack => ∀ f ∈ stack, ∀ t ∈ f.items, t.isBracketed
  | .done t => t.isBracketed

/-- Read the remaining tokens. -/
def resume : Progress → List Token → Except ReadError Term
  | .inside stack, tokens => Term.readFrom stack tokens
  | .done t, tokens => if tokens.isEmpty then .ok t else .error .extraTokens

end Progress

namespace Term

theorem readFrom_cons (stack : List Frame) (token : Token) (tokens : List Token) :
    readFrom stack (token :: tokens) =
      (readToken stack token >>= fun progress => progress.resume tokens) := by
  rw [readFrom]
  cases readToken stack token with
  | error e => rfl
  | ok progress => cases progress <;> rfl

/-- An expression comes after the tokens before it. -/
theorem spell_place (t : Term) (stack : List Frame) :
    (place t stack).spell = spellStack stack ++ t.spell := by
  cases stack with
  | nil => rfl
  | cons f outer =>
      simp [place, Progress.spell, spellStack, spellAll_eq_flatMap]

theorem isBracketed_place {t : Term} {stack : List Frame} (ht : t.isBracketed)
    (hstack : (Progress.inside stack).IsBracketed) : (place t stack).IsBracketed := by
  cases stack with
  | nil => exact ht
  | cons f outer =>
      intro g hg u hu
      rcases List.mem_cons.mp hg with rfl | hg
      · rcases List.mem_cons.mp hu with rfl | hu
        · exact ht
        · exact hstack f (by simp) u hu
      · exact hstack g (List.mem_cons_of_mem f hg) u hu

/-- A bracket that is closed is the expression of its items. -/
theorem spell_of_close {f : Frame} {t : Term} (h : f.close = .ok t)
    (hitems : ∀ u ∈ f.items, u.isBracketed) : t.isBracketed ∧
      t.spell = .opening f.bracket :: spellAll f.items.reverse ++ [.closing f.bracket] := by
  have hrev : ∀ u ∈ f.items.reverse, u.isBracketed := fun u hu =>
    hitems u (List.mem_reverse.mp hu)
  rw [Frame.close] at h
  split at h
  next items hbracket =>
    cases h
    rw [hbracket]
    exact ⟨isBracketed_group_iff.mpr hrev, rfl⟩
  next op arg args hbracket heq =>
    cases h
    rw [heq] at hrev
    have hargs : ∀ u ∈ arg :: args, u.isBracketed := fun u hu => hrev u (List.mem_cons_of_mem _ hu)
    rw [hbracket, heq]
    exact ⟨isBracketed_app_iff.mpr ⟨op, rfl, by simp, hargs⟩, spell_ofName op (arg :: args)⟩
  next => exact absurd h (by simp)

/-- **One token is read.** -/
theorem spell_of_readToken {stack : List Frame} {token : Token} {progress : Progress}
    (h : readToken stack token = .ok progress) (hstack : (Progress.inside stack).IsBracketed) :
    progress.IsBracketed ∧ progress.spell = spellStack stack ++ [token] := by
  cases token with
  | word cs =>
      cases h
      refine ⟨isBracketed_place rfl hstack, ?_⟩
      rw [spell_place, spell, String.toList_ofList]
  | opening b =>
      cases h
      refine ⟨fun f hf t ht => ?_, by simp [Progress.spell, spellStack, spellAll]⟩
      rcases List.mem_cons.mp hf with rfl | hf
      · simp at ht
      · exact hstack f hf t ht
  | closing b =>
      cases stack with
      | nil => exact absurd h (by simp [readToken])
      | cons f outer =>
          rw [readToken] at h
          split at h
          next hb =>
            obtain ⟨t, hclose, ht⟩ := bind_eq_ok_iff.mp h
            cases ht
            -- The closed bracket becomes an item of the one around it.
            obtain ⟨hbracketed, hspell⟩ := spell_of_close hclose (hstack f (by simp))
            refine ⟨isBracketed_place hbracketed fun g hg => hstack g (by simp [hg]), ?_⟩
            rw [spell_place, hspell, hb, spellStack, hb]
            simp
          next => exact absurd h (by simp)

/-- **All tokens are read.** What has been read before them and they themselves are the tokens
of the expression that is read. -/
theorem spell_of_readFrom {stack : List Frame} {tokens : List Token} {t : Term}
    (h : readFrom stack tokens = .ok t) (hstack : (Progress.inside stack).IsBracketed) :
    t.isBracketed ∧ spellStack stack ++ tokens = t.spell := by
  induction tokens generalizing stack with
  | nil => exact absurd h (by simp [readFrom])
  | cons token tokens ih =>
      rw [readFrom_cons] at h
      obtain ⟨progress, hread, hresume⟩ := bind_eq_ok_iff.mp h
      obtain ⟨hbracketed, hspell⟩ := spell_of_readToken hread hstack
      have hmove : spellStack stack ++ token :: tokens = progress.spell ++ tokens := by
        rw [hspell, List.append_assoc, List.singleton_append]
      rw [hmove]
      cases progress with
      | inside inner => exact ih hresume hbracketed
      | done u =>
          rw [Progress.resume] at hresume
          split at hresume
          next hempty =>
            cases hresume
            rw [List.isEmpty_iff.mp hempty, List.append_nil]
            exact ⟨hbracketed, rfl⟩
          next => exact absurd hresume (by simp)

/-! ### Reading back -/

/-- The items of a bracket are read one after the other. -/
theorem readFrom_spellAll {ts : List Term} {rest : List Token} (f : Frame) (outer : List Frame)
    (h : ∀ t ∈ ts, ∀ stack rest,
      readFrom stack (t.spell ++ rest) = (place t stack).resume rest) :
    readFrom (f :: outer) (spellAll ts ++ rest) =
      readFrom (⟨f.bracket, ts.reverse ++ f.items⟩ :: outer) rest := by
  induction ts generalizing f with
  | nil => rfl
  | cons t ts ih =>
      rw [spellAll, List.append_assoc, h t (by simp)]
      have hts := ih ⟨f.bracket, t :: f.items⟩ fun u hu => h u (List.mem_cons_of_mem t hu)
      simpa [place, Progress.resume] using hts

/-- A bracket with its items is read as the expression of the closed bracket. -/
theorem readFrom_enclose {ts : List Term} {t : Term} (b : Bracket) (stack : List Frame)
    (rest : List Token) (hclose : Frame.close ⟨b, ts.reverse⟩ = .ok t)
    (h : ∀ t ∈ ts, ∀ stack rest,
      readFrom stack (t.spell ++ rest) = (place t stack).resume rest) :
    readFrom stack (.opening b :: spellAll ts ++ [.closing b] ++ rest) =
      (place t stack).resume rest := by
  have hopen : readFrom stack (.opening b :: spellAll ts ++ [.closing b] ++ rest) =
      readFrom (⟨b, []⟩ :: stack) (spellAll ts ++ .closing b :: rest) := by
    rw [List.append_assoc, List.cons_append, readFrom_cons]
    rfl
  rw [hopen, readFrom_spellAll _ _ h, List.append_nil, readFrom_cons, readToken, if_pos rfl, hclose]
  rfl

/-- **The tokens of an expression are read back**, whatever stands before and after them. -/
theorem readFrom_spell {t : Term} (ht : t.isBracketed) (stack : List Frame) (rest : List Token) :
    readFrom stack (t.spell ++ rest) = (place t stack).resume rest := by
  have hatom : ∀ s stack rest, readFrom stack ((atom s).spell ++ rest) =
      (place (.atom s) stack).resume rest := by
    intro s stack rest
    rw [spell, List.singleton_append, readFrom_cons, readToken, String.ofList_toList]
    rfl
  induction t using Term.walk generalizing stack rest with
  | atom s => exact hatom s stack rest
  | app op args ih =>
      obtain ⟨name, rfl, hne, hargs⟩ := isBracketed_app_iff.mp ht
      obtain ⟨arg, more, rfl⟩ := List.exists_cons_of_ne_nil hne
      have hclose : Frame.close ⟨.round, (atom name :: arg :: more).reverse⟩ =
          .ok (.app (.atom name) (arg :: more)) := by
        rw [Frame.close, List.reverse_reverse]
      refine readFrom_enclose .round stack rest hclose fun u hu => ?_
      rcases List.mem_cons.mp hu with rfl | hu
      · exact hatom name
      · exact ih u hu (hargs u hu)
  | group items ih =>
      have hclose : Frame.close ⟨.square, items.reverse⟩ = .ok (.group items) := by
        rw [Frame.close, List.reverse_reverse]
      exact readFrom_enclose .square stack rest hclose fun u hu =>
        ih u hu (isBracketed_group_iff.mp ht u hu)
  | _ => simp [isBracketed] at ht

/-- A list of tokens is read as the expression that it spells. -/
theorem ofTokens_eq_ok_iff {tokens : List Token} {t : Term} :
    ofTokens tokens = .ok t ↔ t.isBracketed ∧ tokens = t.spell := by
  constructor
  · intro h
    rw [ofTokens] at h
    split at h
    next => exact absurd h (by simp)
    next => exact @spell_of_readFrom [] tokens t h (by simp [Progress.IsBracketed])
  · rintro ⟨ht, rfl⟩
    have hread := readFrom_spell ht [] []
    rw [List.append_nil] at hread
    have hne : t.spell.isEmpty = false := by
      cases hspell : t.spell with
      | nil => exact absurd (hspell ▸ hread) (by simp [readFrom, place, Progress.resume])
      | cons token tokens => rfl
    rw [ofTokens, hne, if_neg (by simp), hread]
    rfl

/-! ### Texts -/

/-- **The printed form of a readable expression is cut into its tokens.** -/
theorem cuts_render {t : Term} (ht : t.isReadable) : Token.Cuts t.render t.spell := by
  induction t using Term.walk with
  | atom s =>
      obtain ⟨hword, -⟩ : Token.isWord s.toList ∧ s ≠ wildcardName := by
        simpa [isReadable] using ht
      exact Token.cuts_word hword
  | app op args ih =>
      obtain ⟨name, rfl, hname, -, hargs⟩ := isReadable_app_iff.mp ht
      have hitems : ∀ u ∈ atom name :: args, Token.Cuts u.render u.spell := by
        intro u hu
        rcases List.mem_cons.mp hu with rfl | hu
        · exact Token.cuts_word hname
        · exact ih u hu (hargs u hu)
      have hcuts := (Token.Cuts.join hitems).enclose .round
      rwa [← spellAll_eq_flatMap, ← renderAll_eq_map] at hcuts
  | group items ih =>
      have hcuts := (Token.Cuts.join fun u hu =>
        ih u hu (isReadable_group_iff.mp ht u hu)).enclose .square
      rwa [← spellAll_eq_flatMap, ← renderAll_eq_map] at hcuts
  | _ => simp [isReadable] at ht

/-- Readable expressions are expressions. -/
theorem isExpr_of_isReadable {t : Term} (ht : t.isReadable) : t.isExpr := by
  have hname : ∀ s : String, Token.isWord s.toList → s.isEmpty = false := by
    intro s hs
    obtain ⟨hne, -⟩ := Token.isWord_iff.mp hs
    exact Bool.eq_false_iff.mpr fun hempty => hne (by simpa using hempty)
  induction t using Term.walk with
  | atom s =>
      obtain ⟨hword, -⟩ : Token.isWord s.toList ∧ s ≠ wildcardName := by
        simpa [isReadable] using ht
      simp [isExpr, hname s hword]
  | app op args ih =>
      obtain ⟨name, rfl, hword, hne, hargs⟩ := isReadable_app_iff.mp ht
      exact isExpr_app_iff.mpr
        ⟨⟨name, rfl, hname name hword⟩, hne, fun u hu => ih u hu (hargs u hu)⟩
  | group items ih =>
      exact isExpr_group_iff.mpr fun u hu => ih u hu (isReadable_group_iff.mp ht u hu)
  | _ => simp [isReadable] at ht

/-- Tokens are read as the wildcard if they are its name, and else as what they spell, unless
the name of the wildcard occurs in it. -/
theorem ofTokensOrWildcard_eq_ok_iff {tokens : List Token} {t : Term} :
    ofTokensOrWildcard tokens = .ok t ↔
      t = .wildcard ∧ tokens = [.word wildcardName.toList] ∨
      t.isBracketed ∧ tokens = t.spell ∧ occurs (.atom wildcardName) t = false := by
  rw [ofTokensOrWildcard, bind_eq_ok_iff]
  simp only [ofTokens_eq_ok_iff]
  constructor
  · rintro ⟨u, ⟨hu, rfl⟩, hresult⟩
    split at hresult
    next hatom =>
      cases hresult
      obtain rfl := isAtom_iff.mp hatom
      exact .inl ⟨rfl, rfl⟩
    next hatom =>
      split at hresult
      next => exact absurd hresult (by simp)
      next hoccurs =>
        cases hresult
        exact .inr ⟨hu, rfl, Bool.eq_false_iff.mpr hoccurs⟩
  · rintro (⟨rfl, rfl⟩ | ⟨ht, rfl, hoccurs⟩)
    · exact ⟨.atom wildcardName, ⟨rfl, rfl⟩, by simp [isAtom]⟩
    · have hatom : ¬ t.isAtom wildcardName := by
        intro h
        obtain rfl := isAtom_iff.mp h
        exact absurd hoccurs (by simp [occurs, same])
      exact ⟨t, ⟨ht, rfl⟩, by rw [if_neg hatom, if_neg (by simp [hoccurs])]⟩

/-- What a text is read as. -/
theorem read_eq_ok_iff {text : String} {t : Term} :
    read text = .ok t ↔ t = .wildcard ∧ Token.scan text.toList = [.word wildcardName.toList] ∨
      t.isReadable ∧ Token.scan text.toList = t.spell := by
  have hread : read text = .ok t ↔ ofTokensOrWildcard (Token.scan text.toList) = .ok t := by
    rw [read]
    split
    next u hu => rw [hu]; simp
    next cause hcause => rw [hcause]; simp
  rw [hread, ofTokensOrWildcard_eq_ok_iff, isReadable_iff]
  refine or_congr_right ⟨?_, ?_⟩
  · rintro ⟨hbracketed, hspell, hoccurs⟩
    exact ⟨⟨hbracketed, fun cs hcs => Token.isWord_of_mem_scan (hspell ▸ hcs), hoccurs⟩, hspell⟩
  · rintro ⟨⟨hbracketed, -, hoccurs⟩, hspell⟩
    exact ⟨hbracketed, hspell, hoccurs⟩

/-- A text that is not read is refused with a cause of its own. -/
theorem exists_unreadable_iff {text : String} :
    (∃ cause, read text = .error (.unreadable text cause)) ↔ ∀ t, read text ≠ .ok t := by
  rw [read]
  split
  next u hu => simp
  next cause hcause => simp

/-- **What the reader makes of every text.** A text is read as an expression exactly if the
expression is readable and the text and the printed form of the expression have the same tokens.
It is read as the wildcard exactly if its only token is the name of the wildcard. Every other
text is refused. So the printed form of a readable expression is read back, and whatever is read,
the wildcard apart, is an expression that normalisation does not change. -/
theorem read_iff_spelled (text : String) :
    (∀ e, read text = .ok e ∧ e ≠ .wildcard ↔
        e.isReadable ∧ Token.scan text.toList = Token.scan e.render.toList) ∧
      (read text = .ok .wildcard ↔ Token.scan text.toList = [.word ['?']]) ∧
      ((∃ cause, read text = .error (.unreadable text cause)) ↔
        Token.scan text.toList ≠ [.word ['?']] ∧
          ∀ e : Term, e.isReadable → Token.scan text.toList ≠ Token.scan e.render.toList) ∧
      (∀ e, e.isReadable → read e.render = .ok e) ∧
      ∀ e, read text = .ok e → e ≠ .wildcard → e.normalize = .ok e := by
  have hwild : ¬ wildcard.isReadable := by simp [isReadable]
  have hexpr : ∀ e, read text = .ok e ∧ e ≠ .wildcard ↔
      e.isReadable ∧ Token.scan text.toList = Token.scan e.render.toList := by
    intro e
    rw [read_eq_ok_iff]
    constructor
    · rintro ⟨⟨rfl, -⟩ | ⟨he, hspell⟩, hne⟩
      · exact absurd rfl hne
      · exact ⟨he, hspell.trans (cuts_render he).scan_eq.symm⟩
    · rintro ⟨he, hscan⟩
      refine ⟨.inr ⟨he, hscan.trans (cuts_render he).scan_eq⟩, ?_⟩
      rintro rfl
      exact hwild he
  have hwildcard : read text = .ok .wildcard ↔ Token.scan text.toList = [.word ['?']] := by
    simp [read_eq_ok_iff, hwild, wildcardName]
  refine ⟨hexpr, hwildcard, ?_, ?_, ?_⟩
  · rw [exists_unreadable_iff]
    constructor
    · intro h
      refine ⟨fun hscan => h .wildcard (hwildcard.mpr hscan), fun e he hscan => ?_⟩
      exact h e ((hexpr e).mpr ⟨he, hscan⟩).1
    · rintro ⟨hne, hnone⟩ e he
      by_cases hw : e = .wildcard
      · exact hne (hwildcard.mp (hw ▸ he))
      · obtain ⟨hreadable, hscan⟩ := (hexpr e).mp ⟨he, hw⟩
        exact hnone e hreadable hscan
  · exact fun e he => read_eq_ok_iff.mpr (.inr ⟨he, (cuts_render he).scan_eq⟩)
  · intro e he hne
    exact normalize_of_isExpr (isExpr_of_isReadable ((hexpr e).mp ⟨he, hne⟩).1)

/-- The text `( at[i  j ]A)` has the tokens of the printed form of an expression, and so it is
read as that expression. -/
theorem read_iff_spelled_spaced :
    let e := ofName "at" [.group [.atom "i", .atom "j"], .atom "A"]
    e.isReadable ∧ e.render = "(at [i j] A)" ∧
      Token.scan "( at[i  j ]A)".toList = Token.scan e.render.toList ∧
      read "( at[i  j ]A)" = .ok e ∧ read e.render = .ok e ∧ e.normalize = .ok e := by
  intro e
  have hreadable : e.isReadable := by decide +kernel
  have hscan : Token.scan "( at[i  j ]A)".toList = Token.scan e.render.toList := by
    decide +kernel
  obtain ⟨hexpr, -, -, hback, hnormal⟩ := read_iff_spelled "( at[i  j ]A)"
  obtain ⟨hread, hne⟩ := (hexpr e).mpr ⟨hreadable, hscan⟩
  exact ⟨hreadable, by decide +kernel, hscan, hread, hback e hreadable, hnormal e hread hne⟩

end Term

end Deduction
