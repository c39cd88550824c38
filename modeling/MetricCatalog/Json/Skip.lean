import MetricCatalog.Json.Read

/-!
# Skipping values

A value nobody asks for is only checked for its grammar. Its brackets may nest to any depth, so they are
kept on a stack of their own.
-/

namespace MetricCatalog.Json

open Scan

/-- A bracket that is still open. -/
inductive Bracket where
  | array
  | object
deriving DecidableEq

namespace Bracket

/-- The character that closes a bracket. -/
def closing : Bracket → Char
  | .array => ']'
  | .object => '}'

/-- The fault where the text ends inside a bracket. -/
def unfinished : Bracket → Fault
  | .array => .unfinished .array
  | .object => .unfinished .object

/-- The fault where neither a comma nor the closing character follows. -/
def separatorWanted : Bracket → Fault
  | .array => .malformed .commaOrBracketWanted
  | .object => .malformed .commaOrBraceWanted

end Bracket

/-- Passes over a key and its colon. -/
def skipKey : Scan Unit := do
  match ← next? with
  | none => failAtNext (.unfinished .object)
  | some '"' => do
    advance
    Literal.skip
    colon
  | some _ => failAtNext (.malformed .keyNotString)

/-- Passes over a scalar whose first character is `c`, not yet read. -/
def skipScalar (c : Char) : Scan Unit := do
  match c with
  | 'n' => do
    advance
    identifier ['u', 'l', 'l']
  | 't' => do
    advance
    identifier ['r', 'u', 'e']
  | 'f' => do
    advance
    identifier ['a', 'l', 's', 'e']
  | '"' => do
    advance
    Literal.skip
  | c =>
    if c = '-' ∨ (Numeral.digit? c).isSome then Number.skip
    else failAtNext (.malformed .valueWanted)

/-- Whether the bracket just opened is closed again at once. If not, the first key of an object is passed
over. -/
def closedAtOnce (bracket : Bracket) : Scan Bool := do
  match ← next? with
  | none => failAtNext bracket.unfinished
  | some c =>
    if c = bracket.closing then do
      advance
      return true
    else do
      if bracket = .object then skipKey
      return false

/-- Whether a bracket is closed behind a value. If not, the comma is passed over and the key behind it. -/
def closedNext (bracket : Bracket) : Scan Bool := do
  match ← next? with
  | none => failAtNext bracket.unfinished
  | some c =>
    if c = bracket.closing then do
      advance
      return true
    else if c = ',' then do
      advance
      if bracket = .object then skipKey
      return false
    else failAtNext bracket.separatorWanted

mutual

/-- Passes over a value and over everything up to the end of the brackets `stack`, innermost first. -/
def skipValue : Bytes → List Bracket → Scan Unit
  | [], _ => fail (.unfinished .value)
  | _ :: fuel, stack => do
    match ← next? with
    | none => failAtNext (.unfinished .value)
    | some '[' => do
      advance
      if ← closedAtOnce .array then skipRest fuel stack else skipValue fuel (.array :: stack)
    | some '{' => do
      advance
      if ← closedAtOnce .object then skipRest fuel stack else skipValue fuel (.object :: stack)
    | some c => do
      skipScalar c
      skipRest fuel stack

/-- Goes on behind a value. -/
def skipRest : Bytes → List Bracket → Scan Unit
  | _, [] => return ()
  | [], _ :: _ => fail (.unfinished .value)
  | _ :: fuel, bracket :: stack => do
    if ← closedNext bracket then skipRest fuel stack else skipValue fuel (bracket :: stack)

end

/-- Passes over one value. Every round reads at least one byte. -/
def skip : Scan Unit := withFuel fun fuel => skipValue fuel []

end MetricCatalog.Json
