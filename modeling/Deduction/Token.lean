import Deduction.Text.Blank

/-!
# Tokens

The text of an expression is cut into brackets and words. A word is a longest run of characters
that are neither blank nor brackets; blanks only separate.

## Main definitions

* `Token.scan` — the tokens of a text;
* `Token.text` — the text of a token.
-/

namespace Deduction

/-- Round brackets hold compounds, square brackets hold groups. -/
inductive Bracket where
  | round
  | square
deriving DecidableEq

/-- A bracket, or a word. -/
inductive Token where
  | opening (b : Bracket)
  | closing (b : Bracket)
  | word (cs : List Char)
deriving DecidableEq

namespace Token

/-- The bracket token of a character. -/
def ofBracket? : Char → Option Token
  | '(' => some (.opening .round)
  | ')' => some (.closing .round)
  | '[' => some (.opening .square)
  | ']' => some (.closing .square)
  | _ => none

/-- The characters of a token. -/
def chars : Token → List Char
  | .opening .round => ['(']
  | .closing .round => [')']
  | .opening .square => ['[']
  | .closing .square => [']']
  | .word cs => cs

/-- The text of a token. -/
def text (t : Token) : String := String.ofList t.chars

/-- A character that words are made of. -/
def isWordChar (c : Char) : Bool := !Text.isBlank c && (ofBracket? c).isNone

/-- The tokens of a text that starts with the word character `c`, given the rest of the text
and its tokens: `c` joins the word that the rest starts with, or is a word of its own. -/
def attach (c : Char) (rest : List Char) (tokens : List Token) : List Token :=
  match rest, tokens with
  | d :: _, .word cs :: more =>
    if isWordChar d then .word (c :: cs) :: more else .word [c] :: tokens
  | _, _ => .word [c] :: tokens

/-- The tokens of a text. -/
def scan : List Char → List Token
  | [] => []
  | c :: rest =>
    if Text.isBlank c then scan rest
    else match ofBracket? c with
      | some bracket => bracket :: scan rest
      | none => attach c rest (scan rest)

end Token

end Deduction
