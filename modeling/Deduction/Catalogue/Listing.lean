import Deduction.Catalogue.Basic

/-!
# Listings

Rules and catalogues as text: a rule on one line, then its call shapes, then its relation where
that is asked for.

## Main definitions

* `Rule.summary` — a rule on one line;
* `Entry.report` — the lines about a registered rule;
* `Catalogue.report` — the lines about all of them.
-/

namespace Deduction

/-- A rule on one line. -/
def Rule.summary (r : Rule) : String :=
  r.id ++ ": [" ++ Term.renderWords r.given ++ "] => [" ++ Term.renderWords r.conclusion ++ "]"
    ++ (if r.extra.isEmpty then "" else "  extra [" ++ Term.renderWords r.extra ++ "]")
    ++ (if r.checks.isEmpty then "" else "  prereq [" ++ Term.renderWords r.checks ++ "]")

/-- The lines about a registered rule, with its relation where `relation` is set. -/
def Entry.report (e : Entry) (relation : Bool) : List String :=
  ["  " ++ e.rule.summary,
   "      forward  " ++ Slot.shapeText e.forward,
   "      backward " ++ Slot.shapeText e.backward]
    ++ if relation then
        (Text.splitLines e.relation.listing.toList).map fun line => "      " ++ String.ofList line
      else []

/-- A line across the page. -/
def ruler : String := String.ofList (List.replicate 60 '=')

/-- The lines about a catalogue. -/
def Catalogue.report (c : Catalogue) (relation : Bool) : List String :=
  ["", ruler, "Roths (" ++ toString c.size ++ "):", ruler]
    ++ c.entries.flatMap (·.report relation) ++ [ruler]

/-- Lines as printed, each with its end. -/
def printed (lines : List String) : String :=
  String.join (lines.map (· ++ "\n"))

end Deduction
