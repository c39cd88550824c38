import MetricCatalog.Json.Scan
import MetricCatalog.Decimal.Approximate

/-!
# Numerals — the spelling of a number and its value

`Numeral.read` reads the digits of a number without giving them a value, `Numeral.value?` gives it. An
integer that fits is kept exactly. Any other numeral is a double: the digits that fit into 64 bits form
its significand, and the digits left out and the written exponent its power of ten.
-/

namespace MetricCatalog.Json

/-- The power of ten written behind a numeral. -/
structure Exponent where
  negative : Bool
  digits : List Nat
deriving DecidableEq

/-- A number as it is spelled. -/
structure Numeral where
  negative : Bool
  /-- The digits in front of the point; there is at least one, and a leading zero stands alone. -/
  whole : List Nat
  /-- The digits behind the point; none if there is no point. -/
  fraction : List Nat
  exponent : Option Exponent
deriving DecidableEq

namespace Numeral

open Scan

/-! ## 1. Spelling

A digit may be missing because something else comes next, or because the text ends. The fault for an
ended text is a parameter: where a number is only skipped it is the same as any other missing digit.
-/

/-- The value of a decimal digit. -/
def digit? (c : Char) : Option Nat :=
  if '0' ≤ c ∧ c ≤ '9' then some (c.toNat - '0'.toNat) else none

/-- The digits in front, perhaps none. -/
def digits : Scan (List Nat) := fun rest =>
  let isDigit (b : UInt8) := (digit? (ascii b)).isSome
  .ok ((rest.takeWhile isDigit).filterMap (digit? ∘ ascii), rest.dropWhile isDigit)

/-- The digits in front, the first of which must be there. -/
def someDigits (atEnd : Fault) : Scan (List Nat) := do
  match ← take? with
  | none => fail atEnd
  | some c =>
    match digit? c with
    | some d => return d :: (← digits)
    | none => fail (.malformed .number)

/-- The digits in front of the point: a zero alone, or a row that starts with another digit. -/
def wholePart (atEnd : Fault) : Scan (List Nat) := do
  if (← peek?) = some '0' then do
    advance
    match ← peek? with
    | some c => if (digit? c).isSome then failAtNext (.malformed .number) else return [0]
    | none => return [0]
  else someDigits atEnd

/-- The point and the digits behind it, if there is a point. -/
def fractionPart (atEnd : Fault) : Scan (List Nat) := do
  if (← peek?) = some '.' then do
    advance
    match ← digits with
    | [] => failAtNext (if (← peek?).isSome then .malformed .number else atEnd)
    | ds => return ds
  else return []

/-- A sign, if there is one: whether it is a minus sign. -/
def sign : Scan Bool := do
  match ← peek? with
  | some '-' => do
    advance
    return true
  | some '+' => do
    advance
    return false
  | _ => return false

/-- The written exponent, if there is one. -/
def exponentPart (atEnd : Fault) : Scan (Option Exponent) := do
  match ← peek? with
  | some 'e' | some 'E' => do
    advance
    let negative ← sign
    return some ⟨negative, ← someDigits atEnd⟩
  | _ => return none

/-- A minus sign, if there is one. -/
def minus : Scan Bool := do
  if (← peek?) = some '-' then do
    advance
    return true
  else return false

/-- Reads a numeral. -/
def read (atEnd : Fault) : Scan Numeral := do
  let negative ← minus
  let whole ← wholePart atEnd
  let fraction ← fractionPart atEnd
  let exponent ← exponentPart atEnd
  return { negative, whole, fraction, exponent }

/-! ## 2. Value -/

/-- The number that a row of digits writes. -/
def ofDigits (ds : List Nat) : Nat := ds.foldl (fun n d => n * 10 + d) 0

/-- The least number that a significand cannot hold. -/
def significandBound : Nat := 0x10000000000000000

/-- Appends digits to a significand up to the first one for which there is no room, and the digits
from there on. -/
def gather (s : Nat) : List Nat → Nat × List Nat
  | [] => (s, [])
  | d :: ds => if s * 10 + d < significandBound then gather (s * 10 + d) ds else (s, d :: ds)

/-- The written exponent as a number. -/
def Exponent.value (e : Exponent) : Int :=
  if e.negative then -(ofDigits e.digits : Int) else ofDigits e.digits

/-- A double with a sign of its own. -/
def signed (negative : Bool) (x : Float) : Float := if negative then -x else x

/-- The integer that a numeral without point and exponent writes, unless it is out of bounds or a
negative zero. -/
def integer? (n : Numeral) : Option Integer :=
  if n.fraction = [] ∧ n.exponent = none then
    let m := ofDigits n.whole
    if n.negative then if m = 0 then none else IntBetween.ofInt? _ _ (-m)
    else IntBetween.ofInt? _ _ m
  else none

/-- The double that a numeral writes, unless it is beyond every finite double. -/
def double? (n : Numeral) : Option Float :=
  let (s, dropped) := gather 0 n.whole
  let (s', unused) := gather s n.fraction
  let written := (n.exponent.map Exponent.value).getD 0
  let power := (dropped.length : Int) - (n.fraction.length - unused.length : Int) + written
  (Decimal.approximate s' power).map (signed n.negative)

/-- The value of a numeral, unless it is beyond every finite double. -/
def value? (n : Numeral) : Option Number :=
  match n.integer? with
  | some i => some (.int i)
  | none => n.double?.map .float

/-- How many digits of an exponent lie behind the one with which it leaves 32 bits. -/
def digitsBeyond (e : Nat) : List Nat → Nat
  | [] => 0
  | d :: ds => if e * 10 + d < 0x80000000 then digitsBeyond (e * 10 + d) ds else ds.length

/-- Where a numeral is known to be out of range: how many of its bytes lie behind that place. -/
def beyondRange (n : Numeral) : Nat :=
  match n.exponent with
  | some e => digitsBeyond 0 e.digits
  | none => 0

end Numeral

/-- Reads a number. -/
def Number.read : Scan Number := do
  let n ← Numeral.read (.unfinished .value)
  match n.value? with
  | some x => return x
  | none => fun rest => .error ⟨.malformed .numberRange, rest.length + n.beyondRange⟩

/-- Passes over a number. -/
def Number.skip : Scan Unit := do
  let _ ← Numeral.read (.malformed .number)

end MetricCatalog.Json
