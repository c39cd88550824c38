/-!
# UTF-8 — texts as bytes

`Utf8.encode` writes characters as bytes. `Utf8.decode` goes the other way for any bytes at all: it
splits them into the characters of the longest well-formed front and the bytes behind that front, so
bytes are well-formed exactly when nothing is left behind.
-/

namespace MetricCatalog

/-- A byte string, front first. -/
abbrev Bytes := List UInt8

namespace Utf8

/-- The bytes of a text. -/
def encode (s : List Char) : Bytes := s.flatMap String.utf8EncodeChar

/-! ## One character

A first byte announces how many continuation bytes `10xxxxxx` follow. Each carries six bits of the
code point. A code point that a shorter form could carry is refused, and so is a surrogate.
-/

/-- The six bits that a continuation byte carries. -/
def continuation? (b : UInt8) : Option Nat :=
  if 0x80 ≤ b.toNat ∧ b.toNat < 0xC0 then some (b.toNat - 0x80) else none

/-- The character with code point `n`, refused below `least` and where no character has that code point. -/
def character? (least n : Nat) : Option Char :=
  if least ≤ n ∧ n.isValidChar then some (Char.ofNat n) else none

/-- The character written by two bytes. -/
def two? (a b : UInt8) : Option Char :=
  if 0xC0 ≤ a.toNat ∧ a.toNat < 0xE0 then do
    character? 0x80 ((a.toNat - 0xC0) * 64 + (← continuation? b))
  else none

/-- The character written by three bytes. -/
def three? (a b c : UInt8) : Option Char :=
  if 0xE0 ≤ a.toNat ∧ a.toNat < 0xF0 then do
    character? 0x800 (((a.toNat - 0xE0) * 64 + (← continuation? b)) * 64 + (← continuation? c))
  else none

/-- The character written by four bytes. -/
def four? (a b c d : UInt8) : Option Char :=
  if 0xF0 ≤ a.toNat ∧ a.toNat < 0xF8 then do
    character? 0x10000 ((((a.toNat - 0xF0) * 64 + (← continuation? b)) * 64
      + (← continuation? c)) * 64 + (← continuation? d))
  else none

/-! ## Texts -/

/-- The characters found after those of `done` (kept in reverse), and the bytes where no character starts. -/
def decodeFrom (done : List Char) : Bytes → List Char × Bytes
  | [] => (done.reverse, [])
  | a :: r₁ =>
    if a.toNat < 0x80 then decodeFrom (Char.ofNat a.toNat :: done) r₁
    else match r₁ with
      | [] => (done.reverse, [a])
      | b :: r₂ =>
        match two? a b with
        | some x => decodeFrom (x :: done) r₂
        | none => match r₂ with
          | [] => (done.reverse, [a, b])
          | c :: r₃ =>
            match three? a b c with
            | some x => decodeFrom (x :: done) r₃
            | none => match r₃ with
              | [] => (done.reverse, [a, b, c])
              | d :: r₄ =>
                match four? a b c d with
                | some x => decodeFrom (x :: done) r₄
                | none => (done.reverse, a :: b :: c :: d :: r₄)

/-- The characters of the longest well-formed front, and the bytes behind it. -/
def decode (bytes : Bytes) : List Char × Bytes := decodeFrom [] bytes

/-- The text that the bytes write, if they are well-formed. -/
def decode? (bytes : Bytes) : Option String :=
  match decode bytes with
  | (s, []) => some (String.ofList s)
  | _ => none

end Utf8

end MetricCatalog
