/-!
# Log lines

What a session tells about its work when it is asked to. A line names its level, the part of
the engine it comes from, and what happened.

## Main definitions

* `LogLine` with `LogLine.text`.
-/

namespace Deduction

/-- The weight of a log line. -/
inductive LogLevel where
  | debug
  | info
deriving DecidableEq

/-- The part of the engine a log line comes from. -/
inductive LogSource where
  | rules
  | relations
  | catalogue
  | application
deriving DecidableEq

/-- The spelling of a level. -/
def LogLevel.name : LogLevel → String
  | .debug => "DEBUG"
  | .info => "INFO"

/-- The spelling of a source. -/
def LogSource.name : LogSource → String
  | .rules => "natded.core.spec"
  | .relations => "natded.core.relation"
  | .catalogue => "natded.core.registry"
  | .application => "natded.core.engine"

/-- A line of the log. -/
structure LogLine where
  level : LogLevel
  source : LogSource
  message : String

/-- The text of a log line. -/
def LogLine.text (line : LogLine) : String :=
  line.level.name ++ " " ++ line.source.name ++ ": " ++ line.message

end Deduction
