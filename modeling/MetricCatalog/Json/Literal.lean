import MetricCatalog.Json.Scan

/-!
# String literals — read or skipped

A literal is read behind its opening quote, piece by piece: a byte that stands for itself or an escape.
A literal that is kept is checked in full: its escapes must denote characters and its bytes must be
UTF-8. A literal that is skipped is checked for its grammar only.
-/

namespace MetricCatalog.Json.Literal

open Scan

/-! ## 1. Escapes -/

/-- The value of a hexadecimal digit. -/
def hexValue? (c : Char) : Option Nat :=
  if '0' ≤ c ∧ c ≤ '9' then some (c.toNat - '0'.toNat)
  else if 'a' ≤ c ∧ c ≤ 'f' then some (c.toNat - 'a'.toNat + 10)
  else if 'A' ≤ c ∧ c ≤ 'F' then some (c.toNat - 'A'.toNat + 10)
  else none

/-- The number that four hexadecimal digits write. -/
def hex? (a b c d : UInt8) : Option Nat := do
  let a ← hexValue? (ascii a)
  let b ← hexValue? (ascii b)
  let c ← hexValue? (ascii c)
  let d ← hexValue? (ascii d)
  return ((a * 16 + b) * 16 + c) * 16 + d

/-- Reads four hexadecimal digits, or all that is left if there are not four bytes. -/
def hex : Scan Nat
  | a :: b :: c :: d :: rest =>
    match hex? a b c d with
    | some n => .ok (n, rest)
    | none => .error ⟨.malformed .escape, rest.length⟩
  | _ => .error ⟨.unfinished .string, 0⟩

/-- The byte that a one-letter escape denotes. -/
def letter? (c : Char) : Option UInt8 :=
  match c with
  | '"' => some 0x22
  | '\\' => some 0x5C
  | '/' => some 0x2F
  | 'b' => some 0x08
  | 'f' => some 0x0C
  | 'n' => some 0x0A
  | 'r' => some 0x0D
  | 't' => some 0x09
  | _ => none

/-- Whether a number is the first half of a surrogate pair. -/
def isLeading (n : Nat) : Bool := 0xD800 ≤ n && n < 0xDC00

/-- Whether a number is the second half of a surrogate pair. -/
def isTrailing (n : Nat) : Bool := 0xDC00 ≤ n && n < 0xE000

/-- Reads one byte that must be `c`. -/
def pairGoesOn (c : Char) : Scan Unit := do
  match ← take? with
  | none => fail (.unfinished .string)
  | some d => if d = c then return () else fail (.malformed .unfinishedSurrogatePair)

/-- The code point of a numeric escape, behind its `\u`. Surrogates must come in pairs. -/
def codePoint : Scan Nat := do
  let n ← hex
  if isTrailing n then fail (.malformed .loneSurrogate)
  else if isLeading n then do
    pairGoesOn '\\'
    pairGoesOn 'u'
    let m ← hex
    if isTrailing m then return (n - 0xD800) * 0x400 + (m - 0xDC00) + 0x10000
    else fail (.malformed .loneSurrogate)
  else return n

/-! ## 2. Pieces -/

/-- Control characters may not stand for themselves. -/
def isControl (b : UInt8) : Bool := b.toNat < 0x20

/-- The bytes of the next piece of a literal that is kept; none at its closing quote. -/
def keptPiece : Scan (Option Bytes)
  | [] => .error ⟨.unfinished .string, 0⟩
  | b :: rest =>
    if ascii b = '"' then .ok (none, rest)
    else if ascii b = '\\' then
      (do
        match ← take? with
        | none => fail (.unfinished .string)
        | some 'u' => return some (String.utf8EncodeChar (Char.ofNat (← codePoint)))
        | some c =>
          match letter? c with
          | some b => return some [b]
          | none => fail (.malformed .escape) : Scan (Option Bytes)) rest
    else if isControl b then .error ⟨.malformed .controlCharacter, rest.length⟩
    else .ok (some [b], rest)

/-- The next piece of a literal that is skipped; none at its closing quote. -/
def skippedPiece : Scan (Option Bytes)
  | [] => .error ⟨.unfinished .string, 0⟩
  | b :: rest =>
    if ascii b = '"' then .ok (none, rest)
    else if ascii b = '\\' then
      (do
        match ← take? with
        | none => fail (.unfinished .string)
        | some 'u' => do
          let _ ← hex
          return some []
        | some c => if (letter? c).isSome then return some [] else fail (.malformed .escape)
        : Scan (Option Bytes)) rest
    else if isControl b then .error ⟨.malformed .controlCharacter, rest.length + 1⟩
    else .ok (some [], rest)

/-! ## 3. Literals -/

/-- Reads pieces up to the closing quote, behind those of `done` (kept in reverse). -/
def pieces (piece : Scan (Option Bytes)) (done : Bytes) : Bytes → Scan Bytes
  | [], _ => .error ⟨.unfinished .string, 0⟩
  | _ :: fuel, bytes =>
    match piece bytes with
    | .error failure => .error failure
    | .ok (none, rest) => .ok (done.reverse, rest)
    | .ok (some more, rest) => pieces piece (more.reverse ++ done) fuel rest

/-- The text that a literal denotes. -/
def read : Scan String := do
  let bytes ← withFuel (pieces keptPiece [])
  match Utf8.decode bytes with
  | (s, []) => return String.ofList s
  | (_, bad) => fun rest => .error ⟨.malformed .codePoint, rest.length + bad.length⟩

/-- Passes over a literal. -/
def skip : Scan Unit := do
  let _ ← withFuel (pieces skippedPiece [])

end MetricCatalog.Json.Literal
