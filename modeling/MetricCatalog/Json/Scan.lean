import MetricCatalog.Json.Fault
import MetricCatalog.Text.Utf8

/-!
# Scanning — reading bytes from the front

A `Scan` reads some bytes from the front and hands on the rest, or fails. A failure says how many bytes
were left, which fixes its place in the whole text. A fault about the bytes read so far leaves the rest
as it is (`Scan.fail`), a fault about the byte that comes next counts that byte as read
(`Scan.failAtNext`).
-/

namespace MetricCatalog.Json

/-- A fault, and how many bytes of the text lay behind its place. -/
structure Failure where
  fault : Fault
  left : Nat

/-- Reads from the front of the bytes and hands on the rest, or fails. -/
abbrev Scan (α : Type) := StateT Bytes (Except Failure) α

/-- Blanks between tokens. -/
def isBlank (b : UInt8) : Bool := b = 0x20 || b = 0x09 || b = 0x0A || b = 0x0D

/-- The character of a single byte. -/
def ascii (b : UInt8) : Char := Char.ofNat b.toNat

namespace Scan

variable {α σ : Type}

/-! ## 1. Steps -/

/-- Fails behind what has been read. -/
def fail (fault : Fault) : Scan α := fun rest => .error ⟨fault, rest.length⟩

/-- Fails on the next byte, or at the end of the text. -/
def failAtNext (fault : Fault) : Scan α := fun rest => .error ⟨fault, rest.length - 1⟩

/-- The next byte as a character, still to be read. -/
def peek? : Scan (Option Char) := fun rest => .ok (rest.head?.map ascii, rest)

/-- Reads the next byte. -/
def advance : Scan Unit := fun rest => .ok ((), rest.tail)

/-- Reads the next byte as a character. -/
def take? : Scan (Option Char) := fun rest => .ok (rest.head?.map ascii, rest.tail)

/-- Reads the blanks in front. -/
def blanks : Scan Unit := fun rest => .ok ((), rest.dropWhile isBlank)

/-- Reads the blanks in front; the byte behind them as a character, still to be read. -/
def next? : Scan (Option Char) := do
  blanks
  peek?

/-- Runs a loop that has fuel for a round on each byte and one at the end of the text. The bytes
themselves are the fuel. -/
def withFuel (loop : Bytes → Scan α) : Scan α := fun rest => loop (0 :: rest) rest

/-- Reads the characters of a name, the first of which has been seen already. -/
def identifier : List Char → Scan Unit
  | [] => pure ()
  | c :: cs => do
    match ← take? with
    | none => fail (.unfinished .value)
    | some d => if d = c then identifier cs else fail (.malformed .identifierWanted)

/-! ## 2. Items of an array

An array is read behind its opening bracket. The closing bracket is read as soon as it is seen.
-/

/-- Whether there is a first item. -/
def firstItem : Scan Bool := do
  match ← next? with
  | none => failAtNext (.unfinished .array)
  | some ']' => do
    advance
    return false
  | some _ => return true

/-- Whether there is another item. -/
def nextItem : Scan Bool := do
  match ← next? with
  | none => failAtNext (.unfinished .array)
  | some ']' => do
    advance
    return false
  | some ',' => do
    advance
    match ← next? with
    | none => failAtNext (.unfinished .value)
    | some ']' => failAtNext (.malformed .trailingComma)
    | some _ => return true
  | some _ => failAtNext (.malformed .commaOrBracketWanted)

/-- Reads the items from here on, each by a step on the state. -/
def foldItems (step : σ → Scan σ) : Bytes → σ → Scan σ
  | [], _ => fail (.unfinished .array)
  | _ :: fuel, s => do
    let s ← step s
    if ← nextItem then foldItems step fuel s else return s

/-- All items of an array. -/
def items (item : Scan α) : Scan (List α) := do
  if ← firstItem then
    let found ← withFuel fun fuel => foldItems (fun found => return (← item) :: found) fuel []
    return found.reverse
  else return []

/-- The end of an array that may hold no more items. -/
def noMoreItems : Scan Unit := do
  match ← next? with
  | none => failAtNext (.unfinished .array)
  | some ']' => advance
  | some ',' => do
    advance
    match ← next? with
    | some ']' => failAtNext (.malformed .trailingComma)
    | _ => failAtNext (.malformed .trailingCharacters)
  | some _ => failAtNext (.malformed .trailingCharacters)

/-! ## 3. Members of an object

An object is read behind its opening brace. The closing brace and the quote that opens a key are read
as soon as they are seen.
-/

/-- Whether there is a first member. -/
def firstMember : Scan Bool := do
  match ← next? with
  | none => failAtNext (.unfinished .object)
  | some '}' => do
    advance
    return false
  | some '"' => do
    advance
    return true
  | some _ => failAtNext (.malformed .keyNotString)

/-- Whether there is another member. -/
def nextMember : Scan Bool := do
  match ← next? with
  | none => failAtNext (.unfinished .object)
  | some '}' => do
    advance
    return false
  | some ',' => do
    advance
    match ← next? with
    | none => failAtNext (.unfinished .value)
    | some '"' => do
      advance
      return true
    | some '}' => failAtNext (.malformed .trailingComma)
    | some _ => failAtNext (.malformed .keyNotString)
  | some _ => failAtNext (.malformed .commaOrBraceWanted)

/-- The colon behind a key. -/
def colon : Scan Unit := do
  match ← next? with
  | none => failAtNext (.unfinished .object)
  | some ':' => advance
  | some _ => failAtNext (.malformed .colonWanted)

/-- Reads the members from here on, each by a step on the state that starts inside its key. -/
def foldMembers (step : σ → Scan σ) : Bytes → σ → Scan σ
  | [], _ => fail (.unfinished .object)
  | _ :: fuel, s => do
    let s ← step s
    if ← nextMember then foldMembers step fuel s else return s

/-- All members of an object, folded into a state. -/
def members (step : σ → Scan σ) (start : σ) : Scan σ := do
  if ← firstMember then withFuel fun fuel => foldMembers step fuel start else return start

/-- Fails behind the blanks in front, and behind the closing brace if that comes next. -/
def failClosing (fault : Fault) : Scan α := do
  if (← next?) = some '}' then advance
  fail fault

/-! ## 4. Nesting -/

/-- How many arrays and objects may be open at once. -/
def depthLimit : Nat := 127

/-- Reads the bracket in front and then what it encloses, with one level less of room. -/
def enclosed (room : Nat) (body : Nat → Scan α) : Scan α :=
  match room with
  | 0 => failAtNext (.malformed .tooDeep)
  | room + 1 => do
    advance
    body room

/-- Runs a scan on a whole text, behind which only blanks may follow. -/
def whole (scan : Scan α) : Scan α := do
  let a ← scan
  match ← next? with
  | none => return a
  | some _ => failAtNext (.malformed .trailingCharacters)

end Scan

end MetricCatalog.Json
