import MetricCatalog.Inspection.Payload
import MetricCatalog.Text.Plain

/-!
# Logs — what a run records, and what is shown of it

The parts of the program record what they do. A log decides which of the records are shown, and each of
these stands in plain text behind a heading: the time, if the log gives one, how much the record matters, and
the part that made it.
-/

namespace MetricCatalog

/-! ## 1. Records -/

/-- How much a record matters. -/
inductive Severity where
  | error
  | info
  | debug
deriving DecidableEq

/-- The name of a severity, in five columns. -/
def Severity.label : Severity → String
  | error => "ERROR"
  | info => "INFO "
  | debug => "DEBUG"

/-- The parts of the program that make records. -/
inductive Part where
  | command
  | settings
  | payload
  | codec
deriving DecidableEq

/-- The name of a part. -/
def Part.name : Part → String
  | command => "inspect"
  | settings => "datajunction_models::config"
  | payload => "datajunction_models::payload"
  | codec => "datajunction_models::codec"

/-- What a part of the program says of what it does. -/
structure LogRecord where
  severity : Severity
  part : Part
  text : String

/-! ## 2. Logs -/

/-- A time, written without control characters. -/
structure Stamp where
  text : String
  printed : text.toList.all (!Text.isControl ·) = true

/-- How records are shown. -/
structure Log where
  /-- Whether a record is shown. -/
  shows : LogRecord → Bool
  /-- The time at which a run makes its n-th record, if the log gives times. -/
  stamp? : Nat → Option Stamp
  /-- What the codec calls the type of the answers of a kind. No rule says how a type is called. -/
  typeName : PayloadKind → String

/-- A text whose further lines are indented. -/
def hanging (text : String) : String := "\n    ".intercalate (text.splitOn "\n")

namespace Log

/-- A log that shows the errors of all parts, as it does unless it is told otherwise. It gives no times. -/
def errors : Log where
  shows r := r.severity = .error
  stamp? _ := none
  typeName := Vocabulary.title

/-- A log that shows what the command itself says. It gives no times. -/
def command : Log where
  shows r := r.part = .command && r.severity ≠ .debug
  stamp? _ := none
  typeName := Vocabulary.title

variable (log : Log)

/-- The time of a record as it stands in its heading. -/
def time (n : Nat) : String :=
  match log.stamp? n with
  | some stamp => stamp.text ++ " "
  | none => ""

/-- What stands in front of a record. -/
def heading (n : Nat) (r : LogRecord) : String :=
  "[" ++ log.time n ++ r.severity.label ++ " " ++ r.part.name ++ "] "

/-- What is shown of the n-th record. -/
def line (n : Nat) (r : LogRecord) : String :=
  if log.shows r then Text.plain (log.heading n r ++ hanging r.text ++ "\n") else ""

/-- What is shown of the records of a run from the n-th on. -/
def reportFrom (n : Nat) : List LogRecord → String
  | [] => ""
  | r :: rest => log.line n r ++ reportFrom (n + 1) rest

/-- What is shown of the records of a run. -/
def report (records : List LogRecord) : String := log.reportFrom 0 records

end Log

end MetricCatalog
