/-!
# Log lines
-/

namespace ParseForest

/-- How much a log line matters. -/
inductive Level where
  | warn
  | debug
  | trace
deriving DecidableEq, Repr

/-- One message of a log. -/
structure LogLine where
  level : Level
  message : String
deriving DecidableEq, Repr

namespace LogLine

def text (l : LogLine) : String :=
  (match l.level with
    | .warn => "WARN "
    | .debug => "DEBUG "
    | .trace => "TRACE ") ++ l.message

end LogLine

end ParseForest
