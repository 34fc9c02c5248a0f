import Deduction.Slot
import Deduction.Term.Printer
import Deduction.Text.Digit

/-!
# Errors

Everything that can go wrong, by cause. A malformed template or rule is refused before it
reaches a catalogue; the other causes arise when rules are looked up and applied, or when a
value of the wrong kind stands where the engine has to look inside it.

## Main definitions

* `ReadError` — why a text is no expression;
* `Malformed` — why a value is no template or no rule;
* `Error` — all causes, with `Error.message` for their wording;
* `Error.raised` — the error that a caller meets, which is another one if the cause cannot be
  put into words.
-/

namespace Deduction

/-- Why a text is no expression. -/
inductive ReadError where
  | empty
  | unexpectedEnd
  | unexpected (token : String)
  | operatorMissing
  | extraTokens
  | wildcardInside

/-- The wording of a reading error in a text. -/
def ReadError.message (text : String) : ReadError → String
  | .empty => "empty expression"
  | .unexpectedEnd => "unexpected end of input in " ++ Text.quoted text
  | .unexpected token => "unexpected " ++ Text.quoted token ++ " in " ++ Text.quoted text
  | .operatorMissing => "compound needs an operator and arguments in " ++ Text.quoted text
  | .extraTokens => "extra tokens after expression in " ++ Text.quoted text
  | .wildcardInside => "the wildcard must stand alone: " ++ Text.quoted text

/-- The fields of a rule that hold templates. -/
inductive Field where
  | given
  | extra
  | conclusion
  | prereq
deriving DecidableEq

/-- The name of a field. -/
def Field.name : Field → String
  | .given => "given"
  | .extra => "extra"
  | .conclusion => "conclusion"
  | .prereq => "prereq"

/-- Why a value is no template, or no rule. -/
inductive Malformed where
  /-- An atom without a character. -/
  | emptyAtom
  /-- A compound without an operator name or without arguments. -/
  | badCompound (value : Term)
  /-- A value of another kind. -/
  | notExpression (value : Term)
  /-- A single template where a list of templates belongs. -/
  | bareTemplate (rule : String) (field : Field) (value : Term)
  /-- A malformed template in a field of a rule. -/
  | inField (rule : String) (field : Field) (cause : Malformed)
  /-- A rule without a proper name. -/
  | badId (value : Term)
  /-- Variables that no given and no extra template mentions. -/
  | unreachable (rule : String) (names : List String)
  /-- An object that encodes no term. -/
  | unknownEncoding (value : Json)
  /-- A text that is no expression. -/
  | unreadable (text : String) (cause : ReadError)

/-- The wording of a malformed value. -/
def Malformed.message : Malformed → String
  | .emptyAtom => "empty atom"
  | .badCompound value => "compound needs an operator name and arguments: " ++ value.literal
  | .notExpression value => "not an atom, compound or group: " ++ value.literal
  | .bareTemplate rule field value =>
    rule ++ ": " ++ field.name ++ " must be a list of templates, got " ++ value.literal
  | .inField rule field cause => rule ++ ": " ++ field.name ++ ": " ++ cause.message
  | .badId value => "roth id must be a non-empty string, got " ++ value.literal
  | .unreachable rule names =>
    rule ++ ": variables " ++ Text.join ", " names ++ " are not reachable from given or extra"
  | .unknownEncoding value => "unknown term encoding: " ++ value.literal
  | .unreadable text cause => cause.message text

/-- Can the wording be written? -/
def Malformed.isWritable : Malformed → Bool
  | .badCompound value | .notExpression value | .bareTemplate _ _ value | .badId value =>
    value.isWritable
  | .inField _ _ cause => cause.isWritable
  | .unknownEncoding value => value.isWritable
  | _ => true

/-- What went wrong. -/
inductive Error where
  /-- A template, rule or text is malformed. -/
  | malformed (cause : Malformed)
  /-- No rule of that name is registered. -/
  | ruleNotFound (id : Term)
  /-- The rule has no call shape for that direction. -/
  | directionUnsupported (rule : String) (direction : Direction)
  /-- A call with the wrong number of arguments; `shape` is the call shape it was held against,
  if it named a direction. -/
  | wrongCount (rule : String) (expected got : Nat) (shape : Option (List Slot))
  /-- A relation run on the wrong number of arguments. -/
  | wrongArity (rule : String) (expected got : Nat)
  /-- A template mentions a pattern variable that has no value. -/
  | unboundVariable (name : String)
  /-- Two terms have no common instance. -/
  | conflict (left right : Term)
  /-- The arguments are no instance of the rule. -/
  | notApplicable (rule call : String)
  /-- A template of the rule could not be filled in during the call. -/
  | unfilled (call name : String)
  /-- The predicate of a prerequisite broke down. -/
  | prereqFailed (prereq : Term) (reason : String)
  /-- The search took more steps than allowed. -/
  | searchLimit (rule : String) (limit : Int)
  /-- There is no object logic of that name. -/
  | unknownLogic (name : Term) (known : List String)
  /-- A compound was asked for an operator or a first argument that it does not have. -/
  | noOperator
  /-- A value that cannot be looked up in a table. -/
  | notAKey (kind : Term.Unkeyed)
  /-- A value without members where a list belongs. -/
  | notAList
  /-- A value without fields where the rules of a file are looked for. -/
  | notIndexed
  /-- A value without fields where a rule is expected. -/
  | notAnObject
  /-- A field that must be there is missing. -/
  | missingField (name : String)
  /-- A template holds a value that has no JSON form. -/
  | notEncodable
  /-- A file does not hold JSON text. -/
  | notJson
  /-- A file holds a whole number with more digits than allowed. -/
  | longNumber (digits : Nat)
  /-- A text would hold a whole number with more digits than allowed. -/
  | unwritable
  /-- There is no such file. -/
  | noSuchFile (path : String)
  /-- The path goes through a file as if it were a folder. -/
  | notAFolder (path : String)
  /-- A folder stands where a file is wanted. -/
  | isAFolder (path : String)
  /-- The path, or a name in it, is longer than allowed. -/
  | pathTooLong (path : String)
  /-- The path holds the null character. -/
  | nullInPath (path : String)
  /-- A step was to be counted against a limit that was left empty. -/
  | emptyLimit

/-- The wording of an error that can be written. -/
def Error.wording : Error → String
  | .malformed cause => cause.message
  | .ruleNotFound id => id.plain ++ " not found in the roth registry"
  | .directionUnsupported rule direction => rule ++ " cannot be used " ++ direction.name
  | .wrongCount rule expected got shape =>
    rule ++ " expects " ++ toString expected ++ " arguments, got " ++ toString got
      ++ (match shape with
        | none => ""
        | some _ => " (structure " ++ Slot.shapeText shape ++ ")")
  | .wrongArity rule expected got =>
    rule ++ " takes " ++ toString expected ++ " arguments, got " ++ toString got
  | .unboundVariable name => "unbound variable " ++ name
  | .conflict left right => "cannot unify " ++ left.render ++ " with " ++ right.render
  | .notApplicable rule call =>
    rule ++ " is not applicable to these arguments: " ++ call
  | .unfilled call name => call ++ ": unbound variable " ++ name
  | .prereqFailed prereq reason =>
    "prerequisite " ++ prereq.render ++ " failed: " ++ reason
  | .searchLimit rule limit => rule ++ ": search exceeded " ++ toString limit ++ " steps"
  | .unknownLogic name known =>
    "Unknown logic: " ++ name.literal ++ ". Choose from: " ++ Text.quotedList known
  | .noOperator => "tuple index out of range"
  | .notAKey .list => "unhashable type: 'list'"
  | .notAKey .object => "unhashable type: 'dict'"
  | .notAList => "a list was expected"
  | .notIndexed => "a rule file is an object"
  | .notAnObject => "a rule is an object"
  | .missingField name => "missing field " ++ Text.quoted name
  | .notEncodable => "a template holds a value without a JSON form"
  | .notJson => "not a JSON text"
  | .longNumber digits =>
    "Exceeds the limit (" ++ toString Text.digitLimit
      ++ " digits) for integer string conversion: value has " ++ toString digits
      ++ " digits; use sys.set_int_max_str_digits() to increase the limit"
  | .unwritable =>
    "Exceeds the limit (" ++ toString Text.digitLimit
      ++ " digits) for integer string conversion; use sys.set_int_max_str_digits() to increase"
      ++ " the limit"
  | .noSuchFile path => "no such file: " ++ Text.quoted path
  | .notAFolder path => "not a folder: " ++ Text.quoted path
  | .isAFolder path => "a folder: " ++ Text.quoted path
  | .pathTooLong path => "path too long: " ++ Text.quoted path
  | .nullInPath path => "null character in path: " ++ Text.quoted path
  | .emptyLimit => "the step limit is empty"

/-- Can the wording be written? -/
def Error.isWritable : Error → Bool
  | .malformed cause => cause.isWritable
  | .ruleNotFound id => id.isWritable
  | .conflict left right => left.isWritable && right.isWritable
  | .prereqFailed prereq _ => prereq.isWritable
  | .searchLimit _ limit => Text.isWritable limit
  | .unknownLogic name _ => name.isWritable
  | _ => true

/-- The message of an error; the failure to write it has a wording of its own. -/
def Error.message (e : Error) : String :=
  if e.isWritable then e.wording else Error.unwritable.wording

/-- The error that a caller meets. It is put into words before it is passed on, and if that
cannot be done, then this is what has gone wrong. Only the complaint about an unknown rule is
worded as late as when it is shown. -/
def Error.raised : Error → Error
  | .ruleNotFound id => .ruleNotFound id
  | e => if e.isWritable then e else .unwritable

/-- The errors of the engine itself, as opposed to values of the wrong kind and files that
cannot be read. A session reports these and ends in good order. -/
def Error.isOwn : Error → Bool
  | .malformed _ | .ruleNotFound _ | .directionUnsupported _ _ | .wrongCount _ _ _ _
  | .wrongArity _ _ _ | .unboundVariable _ | .conflict _ _ | .notApplicable _ _
  | .unfilled _ _ | .prereqFailed _ _ | .searchLimit _ _ => true
  | _ => false

end Deduction
