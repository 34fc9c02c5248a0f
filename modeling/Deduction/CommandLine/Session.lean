import Deduction.Application
import Deduction.Catalogue.Listing
import Deduction.Catalogue.Store
import Deduction.CommandLine.Folder
import Deduction.CommandLine.Options
import Deduction.Term.Reader

/-!
# Sessions

What a command line does, as a function of its options and of the files it may read: the text it
prints, the text it reports, the files it writes and how it ends. An error of the engine is
reported and ends the session with code 1; any other one breaks it off.

## Main definitions

* `Transcript` — what a session has done;
* `Session.run` — a whole session.
-/

namespace Deduction

/-- What a session has done. -/
structure Transcript where
  stdout : String
  stderr : String
  /-- The files written and kept, with their text. -/
  written : List (String × String)

/-- How a session ends. -/
inductive Ending where
  | exit (code : Nat)
  | broken (cause : Error)

/-- An activity that adds to the transcript and may fail. -/
abbrev Session := ExceptT Error (StateM Transcript)

namespace Session

/-- Print lines. -/
def print (lines : List String) : Session Unit :=
  modify fun t => { t with stdout := t.stdout ++ printed lines }

/-- Print lines unless the session is quiet. -/
def printUnlessQuiet (o : Options) (lines : List String) : Session Unit :=
  if o.quiet then pure () else print lines

/-- Write log lines if the session shows them. -/
def note (o : Options) (lines : List LogLine) : Session Unit :=
  if o.debug then
    modify fun t => { t with stderr := t.stderr ++ printed (lines.map LogLine.text) }
  else pure ()

/-- The chosen logic. An option that was left empty names no logic. -/
def chosenLogic (o : Options) : Session Logic :=
  match o.logic with
  | some logic => pure logic
  | none => throw (.notAKey .list)

/-- The catalogue of a logic. -/
def openCatalogue (o : Options) (logic : Logic) : Session Catalogue := do
  note o ((Catalogue.empty logic.predicates o.strict).registerAllLog logic.rules)
  liftM (logic.catalogue o.strict)

/-- The catalogue with the rules of the file to load. -/
def loadFile (o : Options) (files : Files) (c : Catalogue) : Session Catalogue :=
  match o.load with
  | none => pure c
  | some path => do
    let text ← liftM (files.read path)
    note o (c.loadLog path text)
    let (c, result) := c.load text
    let ids ← liftM result
    printUnlessQuiet o ["Loaded " ++ toString ids.length ++ " roths from " ++ path]
    return c

/-- List the catalogue. -/
def listCatalogue (o : Options) (logic : Logic) (c : Catalogue) : Session Unit :=
  if o.list then
    print (("Logic: " ++ logic.name ++ " -- " ++ logic.description) :: c.report o.relation)
  else pure ()

/-- The values of an answer as printed lines. -/
def answerLines : Answer → List String
  | .passed => ["True"]
  | answer => answer.toList.map Term.render

/-- The most steps of a call. No step can be counted against an empty limit. -/
def callLimit : StepLimit → Option Int
  | .usual => none
  | .atMost steps => some steps
  | .empty => some 0

/-- What has gone wrong in a call under a limit: with an empty one it is the limit itself that
breaks down at the first step. -/
def causeUnder : StepLimit → Error → Error
  | .empty, .searchLimit _ _ => .emptyLimit
  | _, e => e

/-- Apply the chosen rule to the step arguments. -/
def applyRule (o : Options) (c : Catalogue) : Session Unit :=
  match o.rule with
  | none => pure ()
  | some id => do
    let entry ← liftM (c.lookup (.atom id))
    printUnlessQuiet o (entry.report o.relation)
    match Term.readAll o.args with
    | .error cause => throw (.malformed cause)
    | .ok args =>
      let call : Call := ⟨.atom id, args, o.direction, callLimit o.limit⟩
      let engine := Engine.start c
      note o (engine.log call)
      let answer ← liftM ((engine.apply call).2.mapError (causeUnder o.limit))
      printUnlessQuiet o [Catalogue.stepLine call answer]
      print (answerLines answer)

/-- Save the catalogue. -/
def saveFile (o : Options) (files : Files) (c : Catalogue) : Session Unit :=
  match o.save with
  | none => pure ()
  | some path => do
    let target ← liftM (files.target path)
    let text ← liftM c.saveText
    modify fun t => { t with written := t.written ++ target.toList.map (·, text) }
    printUnlessQuiet o ["Roths saved to " ++ path]

/-- The activities of a session, in order. -/
def activities (o : Options) (files : Files) : Session Unit := do
  let logic ← chosenLogic o
  let c ← openCatalogue o logic
  let c ← loadFile o files c
  listCatalogue o logic c
  applyRule o c
  saveFile o files c

/-- A whole session. -/
def run (o : Options) (files : Files) : Transcript × Ending :=
  match StateT.run (ExceptT.run (activities o files)) ⟨"", "", []⟩ with
  | (.ok (), t) => (t, .exit 0)
  | (.error e, t) =>
    if e.isOwn then
      ({ t with stderr := t.stderr ++ printed ["error: " ++ e.message] }, .exit 1)
    else (t, .broken e)

end Session

end Deduction
