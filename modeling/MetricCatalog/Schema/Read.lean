import MetricCatalog.Schema.Shape
import MetricCatalog.Json.Skip

/-!
# Reading values of a shape from text

`Shape.read` fills a value while the text is being read, so of several faults the first in the order of
the text is reported. Members of a record are placed by their keys. A member under any other key is
skipped.
-/

namespace MetricCatalog

open Json Json.Scan

namespace Shape

variable {α : Type}

/-! ## 1. Scalars and lists -/

/-- Reads a text. -/
def readText : Scan String := do
  match ← head with
  | .string s => return s
  | found => fail (.mismatch (.wrongType found .string))

/-- Reads a truth value. -/
def readTruth : Scan Bool := do
  match ← head with
  | .boolean b => return b
  | found => fail (.mismatch (.wrongType found .boolean))

/-- Reads an integer that must lie within a width. -/
def readInteger (width : Width) : Scan width.Integer := do
  match ← head with
  | .number (.int i) =>
    match IntBetween.ofInt? width.lo width.hi i.val with
    | some n => return n
    | none => fail (.mismatch (.integerRange i.val width))
  | found => fail (.mismatch (.wrongType found (.integer width)))

/-- Reads null. -/
def readNull : Scan Unit := do
  match ← head with
  | .null => return ()
  | found => fail (.mismatch (.wrongType found .null))

/-- Reads a string literal that must spell a word of a vocabulary. -/
def readSpelling (α : Type) [Vocabulary α] : Scan α := do
  let word ← Literal.read
  match Vocabulary.ofWord? word with
  | some a => return a
  | none => fail (.mismatch (.unknownWord word (Vocabulary.words α)))

/-- Reads a word of a vocabulary: a string, or an object with the word as its only key and null under it. -/
def readWord (α : Type) [Vocabulary α] (room : Nat) : Scan α := do
  match ← next? with
  | none => failAtNext (.unfinished .value)
  | some '"' => do
    advance
    readSpelling α
  | some '{' => enclosed room fun _ => do
    match ← next? with
    | none => failAtNext (.unfinished .object)
    | some '"' => do
      advance
      let a ← readSpelling α
      colon
      readNull
      match ← next? with
      | none => fail (.unfinished .object)
      | some '}' => do
        advance
        return a
      | some _ => fail (.malformed .valueWanted)
    | some '}' => failAtNext (.malformed .valueWanted)
    | some _ => failAtNext (.malformed .keyNotString)
  | some _ => failAtNext (.malformed .valueWanted)

/-- Reads a list. -/
def readList (room : Nat) (item : Nat → Scan α) : Scan (List α) := do
  match ← head with
  | .array => enclosed room fun room => items (item room)
  | found => fail (.mismatch (.wrongType found .array))

/-- Reads the value behind a key for which nothing may have been found yet. -/
def readUnder (key : String) (found : Option α) (value : Scan α) : Scan (Option α) := do
  match found with
  | some _ => failClosing (.mismatch (.repeatedKey key))
  | none => do
    colon
    return some (← value)

/-- Passes over the value behind an unknown key. -/
def passOver : Scan Unit := do
  colon
  skip

end Shape

/-! ## 2. Records -/

open Shape

mutual

/-- Reads a value of a shape, with room for so many arrays and objects. -/
def Shape.read (room : Nat) : (s : Shape) → Scan s.Value
  | .text => readText
  | .truth => readTruth
  | .integer width => readInteger width
  | @Shape.word α _ => readWord α room
  | .json => do return (← Json.read room).canonicalize
  | .list item => readList room fun room => item.read room
  | .record name fields => do
    match ← head with
    | .object => enclosed room fun room => do
      let found ← members (fun found => do fields.place room (← Literal.read) found) fields.unfilled
      match fields.finish found with
      | .ok values => return values
      | .error key => fail (.mismatch (.missingKey key))
    | .array => enclosed room fun room => fields.readItems name fields.size room 0
    | found => fail (.mismatch (.wrongType found (.record name)))
  | .wrapped key item => do
    match ← head with
    | .object => enclosed room fun room => do
      let found ← members (fun found => do
        if (← Literal.read) = key then
          readUnder key found (orNull (readList room fun room => item.read room))
        else do
          passOver
          return found) none
      return found.getD none
    | .array => enclosed room fun room => do return some (← items (item.read room))
    | found => fail (.mismatch (.wrongType found (.listOrObject key)))

/-- Reads a value of a field. -/
def Field.read (room : Nat) : (f : Field) → Scan f.Value
  | .required shape => shape.read room
  | .nullable shape => orNull (shape.read room)
  | .optional shape => orNull (shape.read room)
  | .sparse shape => orNull (shape.read room)
  | .flag => do return (← orNull readTruth).getD false
  | .listing item => readList room fun room => item.read room

/-- Reads the value of a member into its place, behind its key. -/
def Fields.place (room : Nat) : (fs : Fields) → String → fs.Filling → Scan fs.Filling
  | .nil, _, _ => passOver
  | .cons key field rest, k, (found, more) =>
    if k = key then do return (← readUnder key found (field.read room), more)
    else do return (found, ← rest.place room k more)

/-- Reads the values of a record of that name and size from an array, from the field at `index` on. -/
def Fields.readItems (name : String) (size room : Nat) : (fs : Fields) → (index : Nat) → Scan fs.Values
  | .nil, _ => noMoreItems
  | .cons key field rest, index => do
    if ← if index = 0 then firstItem else nextItem then do
      let v ← field.read room
      return (v, ← rest.readItems name size room (index + 1))
    else
      match Fields.cutOff (.cons key field rest) index with
      | .ok values => return values
      | .error missing => fail (.mismatch (.tooFewItems missing name size))

end

end MetricCatalog
