import Deduction.Logic
import Deduction.Text.Digit

/-!
# Options of the command line

The words of a command line are options or step arguments. An option is written in full or by
any beginning that only one option has; one that takes a value has it after an equals sign or
as the next word. Words that do not start with a hyphen, negative numbers and words with a
blank in them are arguments, and so is everything after the mark `--`. The arguments must stand
together. The mark after an equals sign leaves the option empty, and that shows only where its
value is needed.

A command line is sorted into options and arguments before any option takes effect; then the
options take effect from left to right, up to the first one that cannot.

## Main definitions

* `Options` — what a command line asks for;
* `Options.ofWords` — the options of a command line, or the reason to stop.
-/

namespace Deduction

/-- How many steps a search may take. -/
inductive StepLimit where
  /-- As many as without a command line. -/
  | usual
  /-- So many. -/
  | atMost (steps : Int)
  /-- The option was left empty. -/
  | empty

/-- What a command line asks for. -/
structure Options where
  /-- The object logic, unless the option was left empty. -/
  logic : Option Logic
  load : Option String
  save : Option String
  list : Bool
  rule : Option String
  direction : Option Direction
  limit : StepLimit
  relation : Bool
  strict : Bool
  quiet : Bool
  debug : Bool
  args : List String

/-- Why a command line is not carried out. -/
inductive Stop where
  /-- It cannot be understood. -/
  | usage
  /-- It asks for help. -/
  | help

namespace CommandLine

/-- The options there are. -/
inductive Opt where
  | help
  | logic
  | load
  | save
  | list
  | rule
  | forward
  | backward
  | limit
  | relation
  | strict
  | quiet
  | debug
deriving DecidableEq

namespace Opt

/-- The spelling of an option. -/
def name : Opt → String
  | .help => "--help"
  | .logic => "--logic"
  | .load => "--load"
  | .save => "--save"
  | .list => "--list"
  | .rule => "--roth"
  | .forward => "--forward"
  | .backward => "--backward"
  | .limit => "--max-steps"
  | .relation => "--show-relation"
  | .strict => "--strict"
  | .quiet => "--quiet"
  | .debug => "--debug"

/-- All options. -/
def all : List Opt :=
  [.help, .logic, .load, .save, .list, .rule, .forward, .backward, .limit, .relation, .strict,
   .quiet, .debug]

/-- Does the option take a value? -/
def takesValue : Opt → Bool
  | .logic | .load | .save | .rule | .limit => true
  | _ => false

end Opt

/-! ### Sorting words -/

/-- A word of the command line. -/
inductive Word where
  /-- A step argument. -/
  | arg (text : String)
  /-- The mark after which every word is an argument. -/
  | mark
  /-- An option, with the value after its equals sign. -/
  | option (opt : Opt) (value : Option String)
  /-- The short form of help, with the letters that follow it. -/
  | shortHelp (tail : Option String)
  /-- An option that does not exist. -/
  | unknown

/-- A word cut at its first equals sign. -/
def cutAtEquals (cs : List Char) : List Char × Option (List Char) :=
  match cs.dropWhile (· ≠ '=') with
  | _ :: value => (cs.takeWhile (· ≠ '='), some value)
  | [] => (cs, none)

/-- A negative number: a hyphen and digits, with digits after a point perhaps. A line end
after it does not count. -/
def isNegativeNumber : List Char → Bool
  | '-' :: cs =>
    let cs := if cs.getLast? == some '\n' then cs.dropLast else cs
    match cs.dropWhile Text.isDigit with
    | [] => !cs.isEmpty
    | '.' :: fraction => !fraction.isEmpty && fraction.all Text.isDigit
    | _ => false
  | _ => false

/-- The options that start with the given characters. -/
def withStart (cs : List Char) : List Opt :=
  Opt.all.filter fun opt => cs.isPrefixOf opt.name.toList

/-- Sort a word that starts with a hyphen and is no option of its own. -/
def sortOther (text : String) : Word :=
  let cs := text.toList
  if isNegativeNumber cs || cs.contains ' ' then .arg text else .unknown

/-- Sort a word that stands before the mark. -/
def sortWord (text : String) : Except Stop Word :=
  let cs := text.toList
  match cs with
  | '-' :: '-' :: _ =>
    let (start, value) := cutAtEquals cs
    let value := value.map String.ofList
    match Opt.all.find? fun opt => opt.name.toList == cs with
    | some opt => .ok (.option opt none)
    | none => match Opt.all.find? fun opt => opt.name.toList == start with
      | some opt => .ok (.option opt value)
      | none => match withStart start with
        | [] => .ok (sortOther text)
        | [opt] => .ok (.option opt value)
        | _ => .error .usage
  | ['-', 'h'] => .ok (.shortHelp none)
  | '-' :: 'h' :: '=' :: tail => .ok (.shortHelp (some (String.ofList tail)))
  | '-' :: 'h' :: tail => .ok (.shortHelp (some (String.ofList tail)))
  | '-' :: _ :: _ => .ok (sortOther text)
  | _ => .ok (.arg text)

/-- Sort the words of a command line. -/
def sortWords : List String → Except Stop (List Word)
  | [] => .ok []
  | text :: texts =>
    if text == "--" then .ok (.mark :: texts.map .arg)
    else do
      let word ← sortWord text
      let words ← sortWords texts
      return word :: words

/-! ### Taking effect -/

/-- The state while options take effect. -/
structure Reading where
  options : Options
  /-- Were the step arguments seen? -/
  argsSeen : Bool
  /-- Is there a word that nothing asks for? -/
  surplus : Bool

/-- The options before any word has been read. -/
def defaults : Options :=
  { logic := some .propositional
    load := none
    save := none
    list := false
    rule := none
    direction := none
    limit := .usual
    relation := false
    strict := false
    quiet := false
    debug := false
    args := [] }

/-- A value that counts as given. -/
def given? (text : String) : Option String := if text.isEmpty then none else some text

/-- Let an option with a value take effect. -/
def setValue (opt : Opt) (text : String) (o : Options) : Except Stop Options :=
  match opt with
  | .logic => match Logic.find? text with
    | some logic => .ok { o with logic := some logic }
    | none => .error .usage
  | .load => .ok { o with load := given? text }
  | .save => .ok { o with save := given? text }
  | .rule => .ok { o with rule := given? text }
  | .limit => match Text.whole? text with
    | some steps => .ok { o with limit := .atMost steps }
    | none => .error .usage
  | _ => .error .usage

/-- Leave an option with a value empty. -/
def setEmpty (opt : Opt) (o : Options) : Options :=
  match opt with
  | .logic => { o with logic := none }
  | .load => { o with load := none }
  | .save => { o with save := none }
  | .rule => { o with rule := none }
  | .limit => { o with limit := .empty }
  | _ => o

/-- Let a direction take effect; the two directions exclude each other. -/
def setDirection (d : Direction) (o : Options) : Except Stop Options :=
  match o.direction with
  | none => .ok { o with direction := some d }
  | some e => if d = e then .ok o else .error .usage

/-- Let an option without a value take effect. -/
def setFlag (opt : Opt) (o : Options) : Except Stop Options :=
  match opt with
  | .help => .error .help
  | .list => .ok { o with list := true }
  | .forward => setDirection .forward o
  | .backward => setDirection .backward o
  | .relation => .ok { o with relation := true }
  | .strict => .ok { o with strict := true }
  | .quiet => .ok { o with quiet := true }
  | .debug => .ok { o with debug := true }
  | _ => .error .usage

/-- Let the words take effect. `value` is an option that waits for its value, and `inArgs` says
whether the word before was a step argument. -/
def takeEffect (value : Option Opt) (inArgs : Bool) :
    List Word → Reading → Except Stop Reading
  | [], st => if value.isSome then .error .usage else .ok st
  | word :: words, st => match value, word with
    | some opt, .arg text => do
      let options ← setValue opt text st.options
      takeEffect none false words { st with options }
    | some _, _ => .error .usage
    | none, .arg text =>
      if st.argsSeen && !inArgs then takeEffect none false words { st with surplus := true }
      else
        takeEffect none true words
          { st with options := { st.options with args := st.options.args ++ [text] }
                    argsSeen := true }
    | none, .mark =>
      if st.argsSeen && !inArgs then takeEffect none false words { st with surplus := true }
      else takeEffect none true words { st with argsSeen := true }
    | none, .option opt none =>
      if opt.takesValue then takeEffect (some opt) false words st
      else do
        let options ← setFlag opt st.options
        takeEffect none false words { st with options }
    | none, .option opt (some text) =>
      if opt.takesValue then
        if text == "--" then
          takeEffect none false words { st with options := setEmpty opt st.options }
        else do
          let options ← setValue opt text st.options
          takeEffect none false words { st with options }
      else .error .usage
    | none, .shortHelp none => .error .help
    | none, .shortHelp (some tail) =>
      if !tail.isEmpty && tail.toList.all (· == 'h') then .error .help else .error .usage
    | none, .unknown => takeEffect none false words { st with surplus := true }

end CommandLine

/-- The options of a command line, or the reason to stop. -/
def Options.ofWords (words : List String) : Except Stop Options := do
  let sorted ← CommandLine.sortWords words
  let st ← CommandLine.takeEffect none false sorted ⟨CommandLine.defaults, false, false⟩
  if st.surplus then throw .usage
  return st.options

end Deduction
