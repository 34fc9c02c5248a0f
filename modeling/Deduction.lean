import Deduction.Application
import Deduction.Bindings
import Deduction.CallShape
import Deduction.Catalogue.Basic
import Deduction.Catalogue.Listing
import Deduction.Catalogue.Store
import Deduction.CommandLine.Folder
import Deduction.CommandLine.Options
import Deduction.CommandLine.Session
import Deduction.Decimal.Basic
import Deduction.Decimal.Double
import Deduction.Error
import Deduction.Json.Basic
import Deduction.Json.Printer
import Deduction.Json.Reader
import Deduction.Log
import Deduction.Logic
import Deduction.Logic.FirstOrder
import Deduction.Logic.Propositional
import Deduction.Logic.Substitution
import Deduction.Logic.Temporal
import Deduction.Main
import Deduction.Prerequisite
import Deduction.Relation.Basic
import Deduction.Relation.Search
import Deduction.Rule.Basic
import Deduction.Rule.Encoding
import Deduction.Slot
import Deduction.Term.Basic
import Deduction.Term.Normal
import Deduction.Term.Placeholder
import Deduction.Term.Printer
import Deduction.Term.Reader
import Deduction.Term.Variables
import Deduction.Text.Blank
import Deduction.Text.Digit
import Deduction.Text.Printable
import Deduction.Text.Quoted
import Deduction.Token
import Deduction.Unification
import Deduction.Proofs.Acyclic
import Deduction.Proofs.Meeting
import Deduction.Proofs.Unification
import Deduction.Proofs.Solver
import Deduction.Proofs.Runs
import Deduction.Proofs.Compile
import Deduction.Proofs.Instances
import Deduction.Proofs.SlotNames
import Deduction.Proofs.Recheck
import Deduction.Proofs.Deferral
import Deduction.Proofs.Arity
import Deduction.Proofs.Answers
import Deduction.Proofs.Placeholders
import Deduction.Proofs.Soundness
import Deduction.Proofs.Capture
import Deduction.Proofs.History
import Deduction.Proofs.Tokens
import Deduction.Proofs.Reading
import Deduction.Proofs.Renaming
import Deduction.Proofs.Backward
import Deduction.Proofs.JsonText
import Deduction.Proofs.Encoding
import Deduction.Proofs.Loading
import Deduction.Proofs.Serials
import Deduction.Proofs.Failures
import Deduction.Proofs.TemporalSoundness
import Deduction.Proofs.Schemes
import Deduction.Proofs.Determined
import Deduction.Proofs.VariableNames
import Deduction.Proofs.Triangular
import Deduction.Proofs.Recursion
import Deduction.Proofs.Termination
import Deduction.Proofs.OccursCheck
import Deduction.Proofs.StepLimit
import Deduction.Proofs.Substitution
import Deduction.Proofs.CallShapes
import Deduction.Proofs.Fields
import Deduction.Proofs.Numbering
import Deduction.Proofs.Instantiation
import Deduction.Proofs.Lexing
import Deduction.Proofs.Writing
