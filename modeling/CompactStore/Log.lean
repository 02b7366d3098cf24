import CompactStore.Decimal.Float
import CompactStore.Decimal.Integer

/-!
# The log

A record has a severity and a message.  A log level names how much is written:
the severities up to a threshold, or none at all.  A written line starts with the
mark of the severity; a line break inside a message is written as it is and
starts another line.

A store reports events while it works: that a value is being made or was made, and
that a cuckoo filter is full.  An event is a log record only once it is put into
words.
-/

namespace CompactStore

/-- How serious a record is, the most serious first. -/
inductive Severity where
  | error
  | warn
  | info
  | debug
  | trace
deriving DecidableEq, Repr

namespace Severity

/-- All severities, the most serious first. -/
def all : List Severity := [error, warn, info, debug, trace]

/-- The place among the severities; less serious ones have larger ranks. -/
def rank : Severity → Nat
  | error => 1
  | warn => 2
  | info => 3
  | debug => 4
  | trace => 5

/-- The name of a severity. -/
def label : Severity → String
  | error => "ERROR"
  | warn => "WARN"
  | info => "INFO"
  | debug => "DEBUG"
  | trace => "TRACE"

/-- The mark at the start of a written line. -/
def mark : Severity → String
  | error => "!"
  | warn => "#"
  | info => "*"
  | debug => "-"
  | trace => "."

end Severity

/-- The text with its ASCII letters in lower case.  Of all other letters only the sign of the
kelvin has a lower case in ASCII, and no level has a `k` in its name. -/
def lowerCase (text : String) : String :=
  String.ofList (text.toList.map Char.toLower)

/-- How much is written. -/
inductive LogLevel where
  | debug
  | verbose
  | notice
  | warning
  | nothing
deriving DecidableEq, Repr

namespace LogLevel

/-- All levels, the one that writes most first. -/
def all : List LogLevel := [debug, verbose, notice, warning, nothing]

/-- The name of a level, as a configuration spells it. -/
def name : LogLevel → String
  | debug => "debug"
  | verbose => "verbose"
  | notice => "notice"
  | warning => "warning"
  | nothing => "nothing"

/-- The level with this name in any case, and `notice` for any other text. -/
def ofText (text : String) : LogLevel :=
  match lowerCase text with
  | "debug" => debug
  | "verbose" => verbose
  | "notice" => notice
  | "warning" => warning
  | "nothing" => nothing
  | _ => notice

/-- The least serious severity that is written. -/
def threshold? : LogLevel → Option Severity
  | debug => some .trace
  | verbose => some .debug
  | notice => some .info
  | warning => some .warn
  | nothing => none

/-- Whether a severity is written. -/
def allows (level : LogLevel) (severity : Severity) : Bool :=
  match level.threshold? with
  | none => false
  | some least => severity.rank ≤ least.rank

end LogLevel

/-- A message with its severity. -/
structure LogRecord where
  severity : Severity
  message : String
deriving DecidableEq, Repr

namespace LogRecord

/-- The written line. -/
def line (r : LogRecord) : String :=
  r.severity.mark ++ " " ++ r.message ++ "\n"

end LogRecord

/-- What is written of these records, in order. -/
def LogLevel.written (level : LogLevel) (records : List LogRecord) : String :=
  String.join ((records.filter fun r => level.allows r.severity).map LogRecord.line)

/-! ### Events -/

/-- Something that a store reports. -/
inductive Event where
  | creatingList
  | creatingBloom
  | creatingCuckoo
  | bloomReserved (capacity : Nat) (errorRate : Float)
  | cuckooReserved (capacity : Nat) (errorRate : Float)
  | sketchCreated (rows columns : Nat)
  | cuckooFull
deriving Repr

namespace Event

/-- How serious an event is. -/
def severity : Event → Severity
  | creatingList | creatingBloom | creatingCuckoo => .debug
  | bloomReserved .. | cuckooReserved .. | sketchCreated .. => .info
  | cuckooFull => .warn

/-- A capacity and a rate in parentheses. -/
def shapeText (capacity : Nat) (errorRate : Float) : String :=
  "(capacity=" ++ String.ofList (Decimal.render capacity)
    ++ ", error_rate=" ++ String.ofList (Decimal.floatText errorRate) ++ ")"

/-- The event in words. -/
def message : Event → String
  | creatingList => "creating list"
  | creatingBloom => "creating bloom filter with default parameters"
  | creatingCuckoo => "creating cuckoo filter with default parameters"
  | bloomReserved capacity errorRate => "bloom filter reserved " ++ shapeText capacity errorRate
  | cuckooReserved capacity errorRate => "cuckoo filter reserved " ++ shapeText capacity errorRate
  | sketchCreated rows columns =>
    "count-min sketch created (" ++ String.ofList (Decimal.render rows) ++ " rows x "
      ++ String.ofList (Decimal.render columns) ++ " columns)"
  | cuckooFull => "cuckoo filter is full, reserve a larger one"

/-- The event as a record of the log. -/
def logRecord (e : Event) : LogRecord where
  severity := e.severity
  message := e.message

end Event

end CompactStore
