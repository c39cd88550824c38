import MetricCatalog.Json.Literal
import MetricCatalog.Json.Numeral
import MetricCatalog.Json.Canonical

/-!
# Reading documents

`Scan.head` reads a scalar whole, or sees the bracket that opens an array or object. On it rests the
reader for arbitrary documents, `Json.read`, which never has more than a given number of arrays and
objects open.
-/

namespace MetricCatalog.Json

namespace Scan

/-- What stands in front: a scalar, which is read, or an opening bracket, which is not. -/
def head : Scan Head := do
  match ← next? with
  | none => failAtNext (.unfinished .value)
  | some 'n' => do
    advance
    identifier ['u', 'l', 'l']
    return .null
  | some 't' => do
    advance
    identifier ['r', 'u', 'e']
    return .boolean true
  | some 'f' => do
    advance
    identifier ['a', 'l', 's', 'e']
    return .boolean false
  | some '"' => do
    advance
    return .string (← Literal.read)
  | some '[' => return .array
  | some '{' => return .object
  | some c =>
    if c = '-' ∨ (Numeral.digit? c).isSome then return .number (← Number.read)
    else failAtNext (.malformed .valueWanted)

/-- Null, or what `scan` reads. -/
def orNull {α : Type} (scan : Scan α) : Scan (Option α) := do
  if (← next?) = some 'n' then do
    advance
    identifier ['u', 'l', 'l']
    return none
  else return some (← scan)

end Scan

open Scan

/-- One level of a document: the scan of what a bracket encloses is given, or there is no room for it. -/
def readLevel (inner : Option (Scan Json)) : Scan Json := do
  match ← head with
  | .null => return .null
  | .boolean b => return .boolean b
  | .number n => return .number n
  | .string s => return .string s
  | .array =>
    match inner with
    | none => failAtNext (.malformed .tooDeep)
    | some item => do
      advance
      return .array (← items item)
  | .object =>
    match inner with
    | none => failAtNext (.malformed .tooDeep)
    | some value => do
      advance
      let found ← members (fun found => do
        let key ← Literal.read
        colon
        return (key, ← value) :: found) []
      return .object found.reverse

/-- Reads a document with room for so many levels. -/
def read : Nat → Scan Json
  | 0 => readLevel none
  | room + 1 => readLevel (some (read room))

end MetricCatalog.Json
