import BundleHook.Report.Run
import BundleHook.Settings.Config

/-!
# Log

Events are logged with a severity and with fields of their own. Those below the configured level are
left out. The others are written as records, or for people when a terminal reads them and no
records are asked for.
-/

namespace BundleHook

/-- An event with its fields, in order. -/
structure LogEvent where
  severity : Severity
  event : String
  fields : List (String × Datum)

/-- The event with its fields as one line for people. -/
def LogEvent.line (e : LogEvent) : String :=
  " ".intercalate (("[" ++ e.severity.label ++ "] " ++ e.event) ::
    e.fields.map fun (name, value) => name ++ "=" ++ value.inline)

/-- A line of the log. -/
inductive LogLine where
  | record (event : LogEvent)
  | console (event : LogEvent)

def LogLevel.rank : LogLevel → Nat
  | debug => 0
  | info => 1
  | warning => 2
  | error => 3

def Severity.level : Severity → LogLevel
  | info => .info
  | warning => .warning

/-- How a log is written. -/
structure Logging where
  level : LogLevel
  asRecords : Bool

/-- The logging of a configuration, or of none; only a terminal is written to for people. -/
def Logging.of (config : Option Config) (isTerminal : Bool) : Logging :=
  ⟨(config.map (·.logLevel)).getD .info, config.any (·.jsonLogs) || !isTerminal⟩

def Logging.lines (logging : Logging) (events : List LogEvent) : List LogLine :=
  (events.filter fun e => logging.level.rank ≤ e.severity.level.rank).map fun e =>
    if logging.asRecords then .record e else .console e

def Diagnostic.event (d : Diagnostic) : LogEvent :=
  ⟨d.severity, d.message, [("file", .text d.fileName)]⟩

end BundleHook
