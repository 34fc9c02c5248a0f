import Deduction.Term.Variables
import Deduction.Token

/-!
# Reading expressions

An expression is read from its tokens one by one, with a stack of the brackets that are open
and the expressions already read inside them. The first token that does not fit decides the
error. A lone `?` is the wildcard; inside an expression it is refused, except as the name of
an operator.

## Main definitions

* `Term.ofTokens` — the expression that a list of tokens spells;
* `Term.read` — the expression or wildcard that a text spells.
-/

namespace Deduction

/-- An open bracket with what has been read inside it, the latest first. -/
structure Frame where
  bracket : Bracket
  items : List Term

/-- The expression of a bracket that is closed. -/
def Frame.close (f : Frame) : Except ReadError Term :=
  match f.bracket, f.items.reverse with
  | .square, items => .ok (.group items)
  | .round, .atom op :: arg :: args => .ok (.app (.atom op) (arg :: args))
  | .round, _ => .error .operatorMissing

/-- Where the reader stands after a token. -/
inductive Progress where
  | inside (stack : List Frame)
  | done (t : Term)

namespace Term

/-- Put an expression into the innermost open bracket; without one it is the whole text. -/
def place (t : Term) : List Frame → Progress
  | [] => .done t
  | f :: stack => .inside (⟨f.bracket, t :: f.items⟩ :: stack)

/-- Read one token. -/
def readToken (stack : List Frame) : Token → Except ReadError Progress
  | .word cs => .ok (place (.atom (String.ofList cs)) stack)
  | .opening b => .ok (.inside (⟨b, []⟩ :: stack))
  | .closing b => match stack with
    | f :: outer =>
      if f.bracket = b then do return place (← f.close) outer
      else .error (.unexpected (Token.closing b).text)
    | [] => .error (.unexpected (Token.closing b).text)

/-- Read the remaining tokens. -/
def readFrom : List Frame → List Token → Except ReadError Term
  | _, [] => .error .unexpectedEnd
  | stack, token :: tokens => do
    match ← readToken stack token with
    | .inside stack => readFrom stack tokens
    | .done t => if tokens.isEmpty then .ok t else .error .extraTokens

/-- The expression that a list of tokens spells. -/
def ofTokens (tokens : List Token) : Except ReadError Term :=
  if tokens.isEmpty then .error .empty else readFrom [] tokens

/-- The name that marks an unknown. -/
def wildcardName : String := "?"

/-- The expression or wildcard that a list of tokens spells. -/
def ofTokensOrWildcard (tokens : List Token) : Except ReadError Term := do
  let t ← ofTokens tokens
  if t.isAtom wildcardName then .ok .wildcard
  else if occurs (.atom wildcardName) t then .error .wildcardInside
  else .ok t

/-- The expression or wildcard that a text spells. -/
def read (text : String) : Except Malformed Term :=
  match ofTokensOrWildcard (Token.scan text.toList) with
  | .ok t => .ok t
  | .error cause => .error (.unreadable text cause)

/-- The arguments that several texts spell; the first unreadable one counts. -/
def readAll : List String → Except Malformed (List Term)
  | [] => .ok []
  | text :: texts => do
    let t ← read text
    let ts ← readAll texts
    return t :: ts

end Term

end Deduction
