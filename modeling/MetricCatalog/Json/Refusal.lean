import MetricCatalog.Json.Scan

/-!
# Refusals — a fault and its place

A refused text is reported with the line and column of the fault. A refused document, which has no
text, is reported without.
-/

namespace MetricCatalog.Json

/-- A line, counted from one, and a column in bytes. -/
structure Place where
  line : Nat
  column : Nat
deriving DecidableEq

/-- The place right behind the front of a text. -/
def Place.behind (front : Bytes) : Place where
  line := front.count 0x0A + 1
  column := (front.reverse.takeWhile (· != 0x0A)).length

/-- Why a document is refused, and where. -/
structure Refusal where
  fault : Fault
  place : Option Place

def Refusal.message (r : Refusal) : String :=
  match r.place with
  | some p => r.fault.message ++ " at line " ++ toString p.line ++ " column " ++ toString p.column
  | none => r.fault.message

/-- A failure, placed in the text in which it arose. -/
def Failure.refusal (f : Failure) (text : Bytes) : Refusal :=
  ⟨f.fault, some (Place.behind (text.take (text.length - f.left)))⟩

/-- Reads a whole text. -/
def Scan.run {α : Type} (scan : Scan α) (text : Bytes) : Except Refusal α :=
  match scan.whole text with
  | .ok (a, _) => .ok a
  | .error f => .error (f.refusal text)

end MetricCatalog.Json
