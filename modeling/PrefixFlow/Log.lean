/-!
# Log lines

What the library would tell an observer while it works. Operations that speak return their lines
beside their result, so that a line is a value like any other.
-/

namespace PrefixFlow

/-- How urgent a log line is; larger is more urgent. -/
abbrev Severity := Int

namespace Severity

def debug : Severity := 10
def info : Severity := 20
def warning : Severity := 30
def error : Severity := 40
def critical : Severity := 50

/-- The printed name of a severity; one without a name shows its number. -/
def name (s : Severity) : String :=
  if s = debug then "DEBUG"
  else if s = info then "INFO"
  else if s = warning then "WARNING"
  else if s = error then "ERROR"
  else if s = critical then "CRITICAL"
  else "Level " ++ toString s

/-- Whether lines of this severity are kept: from `debug` on. -/
def isKept (s : Severity) : Bool := decide (debug ≤ s)

end Severity

/-- A log line. -/
structure LogLine where
  severity : Severity
  text : String
  deriving Repr, DecidableEq

/-- Lines in the order in which they were written. -/
abbrev Log := List LogLine

/-- The line of a severity, or no line where its severity is not kept. -/
def Log.line (severity : Severity) (text : String) : Log :=
  if severity.isKept then [⟨severity, text⟩] else []

end PrefixFlow
