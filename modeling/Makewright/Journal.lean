import Makewright.Settings

/-!
# The journal

What a pass reports about itself while it runs. Every entry has a level and names the part of the
program that made it; entries are kept in order.
-/

set_option autoImplicit false

namespace Makewright

/-- The parts of the program that report. -/
inductive Reporter where
  | graph
  | generator
  | fetcher
  deriving DecidableEq, Repr

/-- The name of a reporter in a log line. -/
def Reporter.name : Reporter → String
  | .graph => "buildgen.graph"
  | .generator => "buildgen.generator"
  | .fetcher => "buildgen.dist_source"

/-- One entry of the journal. -/
structure LogEntry where
  level : LogLevel
  reporter : Reporter
  text : String
  deriving DecidableEq, Repr

/-- Entries in the order in which they were made. -/
abbrev Journal := List LogEntry

namespace LogEntry

/-- The log line of an entry. -/
def line (e : LogEntry) : String :=
  e.level.label ++ " " ++ e.reporter.name ++ ": " ++ e.text ++ "\n"

/-- An entry is shown by a log that starts at a level. -/
def isShown (threshold : LogLevel) (e : LogEntry) : Bool :=
  threshold.severity ≤ e.level.severity

end LogEntry

/-- The log lines of the entries from a level on. -/
def Journal.log (journal : Journal) (threshold : LogLevel) : String :=
  "".intercalate ((journal.filter (·.isShown threshold)).map LogEntry.line)

end Makewright
