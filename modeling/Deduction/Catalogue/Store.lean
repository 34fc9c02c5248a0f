import Deduction.Catalogue.Basic
import Deduction.Json.Printer
import Deduction.Json.Reader
import Deduction.Rule.Encoding

/-!
# Files of rules

A catalogue is saved as the JSON text of its rules, in order. Loading a text registers the
rules in it one by one, once all of them have been read.

## Main definitions

* `Catalogue.saveText` — the text of a catalogue's rules;
* `Catalogue.rulesOfText` — the rules of a text;
* `Catalogue.load` — the catalogue with the rules of a text.
-/

namespace Deduction.Catalogue

/-- The text of a catalogue's rules. -/
def saveText (c : Catalogue) : Except Error String := do
  return (← Rule.fileJson c.rules).pretty

/-- The rules of a text. -/
def rulesOfText (text : String) : Except Error (List Rule) :=
  match Json.parse text with
  | .error .badText => .error .notJson
  | .error (.longNumber digits) => .error (.longNumber digits)
  | .ok value => Rule.ofFileJson value

/-- The catalogue with the rules of a text registered, and their names. If the text cannot be
read, nothing is registered; if a rule is refused, those before it are. -/
def load (c : Catalogue) (text : String) : Catalogue × Except Error (List String) :=
  match rulesOfText text with
  | .error e => (c, .error e)
  | .ok rules => match c.registerAll rules with
    | (c, .ok ()) => (c, .ok (rules.map Rule.id))
    | (c, .error e) => (c, .error e)

/-- What loading a text from `path` tells. -/
def loadLog (c : Catalogue) (path text : String) : List LogLine :=
  match rulesOfText text with
  | .error _ => []
  | .ok rules =>
    c.registerAllLog rules ++ match (c.registerAll rules).2 with
      | .ok () =>
        [⟨.info, .catalogue, "loaded " ++ toString rules.length ++ " roths from " ++ path⟩]
      | .error _ => []

end Deduction.Catalogue
