import MetricCatalog.Schema.Shape
import MetricCatalog.Json.Fault

/-!
# Values of a shape from documents

`Shape.ofJson` takes a value of a shape out of a document that has been read before. It follows the same
rules as the reader of text, except that a document has no places, that an array must not be longer than
its record, and that a word is asked for as a string or an object.
-/

namespace MetricCatalog

open Json (Fault Mismatch Head Wanted)

/-- What stands at the front of a document. -/
def Json.head : Json → Head
  | .null => .null
  | .boolean b => .boolean b
  | .number n => .number n
  | .string s => .string s
  | .array _ => .array
  | .object _ => .object

namespace Shape

variable {α : Type}

/-- Refuses a document for its type. -/
def wrongType (j : Json) (wanted : Wanted) : Except Fault α :=
  .error (.mismatch (.wrongType j.head wanted))

/-- Takes a text. -/
def textOf : Json → Except Fault String
  | .string s => .ok s
  | j => wrongType j .string

/-- Takes a truth value. -/
def truthOf : Json → Except Fault Bool
  | .boolean b => .ok b
  | j => wrongType j .boolean

/-- Takes an integer that must lie within a width. -/
def integerOf (width : Json.Width) : Json → Except Fault width.Integer
  | .number (.int i) =>
    match IntBetween.ofInt? width.lo width.hi i.val with
    | some n => .ok n
    | none => .error (.mismatch (.integerRange i.val width))
  | j => wrongType j (.integer width)

/-- Takes null. -/
def nullOf : Json → Except Fault Unit
  | .null => .ok ()
  | j => wrongType j .null

/-- Takes a word of a vocabulary. -/
def spellingOf (α : Type) [Vocabulary α] (word : String) : Except Fault α :=
  match Vocabulary.ofWord? word with
  | some a => .ok a
  | none => .error (.mismatch (.unknownWord word (Vocabulary.words α)))

/-- Takes a word of a vocabulary from a string, or from an object with the word as its only key and null
under it. -/
def wordOf (α : Type) [Vocabulary α] : Json → Except Fault α
  | .string s => spellingOf α s
  | .object [(key, j)] => do
    let a ← spellingOf α key
    nullOf j
    return a
  | .object _ => .error (.mismatch .notSingleMember)
  | j => wrongType j .wordOrObject

/-- Takes a list. -/
def listOf (item : Json → Except Fault α) : Json → Except Fault (List α)
  | .array xs => xs.mapM item
  | j => wrongType j .array

/-- Takes null, or what `value` takes. -/
def orNullOf (value : Json → Except Fault α) : Json → Except Fault (Option α)
  | .null => .ok none
  | j => do return some (← value j)

/-- Takes the value under a key for which nothing may have been found yet. -/
def takeUnder (key : String) (found : Option α) (value : Except Fault α) : Except Fault (Option α) :=
  match found with
  | some _ => .error (.mismatch (.repeatedKey key))
  | none => do return some (← value)

end Shape

open Shape

mutual

/-- Takes a value of a shape from a document. -/
def Shape.ofJson : (s : Shape) → Json → Except Fault s.Value
  | .text, j => textOf j
  | .truth, j => truthOf j
  | .integer width, j => integerOf width j
  | @Shape.word α _, j => wordOf α j
  | .json, j => .ok j.canonicalize
  | .list item, j => listOf item.ofJson j
  | .record name fields, j =>
    match j with
    | .object members => do
      let found ← members.foldlM (fun found member => fields.put member.1 member.2 found) fields.unfilled
      match fields.finish found with
      | .ok values => return values
      | .error key => .error (.mismatch (.missingKey key))
    | .array items => fields.ofItems name fields.size items.length items 0
    | j => wrongType j (.record name)
  | .wrapped key item, j =>
    match j with
    | .object members => do
      let found ← members.foldlM (fun found member =>
        if member.1 = key then takeUnder key found (orNullOf (listOf item.ofJson) member.2)
        else return found) none
      return found.getD none
    | .array items => do return some (← items.mapM item.ofJson)
    | j => wrongType j (.listOrObject key)

/-- Takes a value of a field from a document. -/
def Field.ofJson : (f : Field) → Json → Except Fault f.Value
  | .required shape, j => shape.ofJson j
  | .nullable shape, j => orNullOf shape.ofJson j
  | .optional shape, j => orNullOf shape.ofJson j
  | .sparse shape, j => orNullOf shape.ofJson j
  | .flag, j => do return (← orNullOf truthOf j).getD false
  | .listing item, j => listOf item.ofJson j

/-- Puts the value of a member into its place. -/
def Fields.put : (fs : Fields) → String → Json → fs.Filling → Except Fault fs.Filling
  | .nil, _, _, _ => .ok ()
  | .cons key field rest, k, j, (found, more) =>
    if k = key then do return (← takeUnder key found (field.ofJson j), more)
    else do return (found, ← rest.put k j more)

/-- Takes the values of a record of that name and size from the items of an array of length `count`, from
the field at `index` on. -/
def Fields.ofItems (name : String) (size count : Nat) :
    (fs : Fields) → List Json → (index : Nat) → Except Fault fs.Values
  | .nil, [], _ => .ok ()
  | .nil, _ :: _, _ => .error (.mismatch (.tooManyItems count))
  | .cons _ field rest, j :: items, index => do
    let v ← field.ofJson j
    return (v, ← rest.ofItems name size count items (index + 1))
  | .cons key field rest, [], index =>
    match Fields.cutOff (.cons key field rest) index with
    | .ok values => .ok values
    | .error missing => .error (.mismatch (.tooFewItems missing name size))

end

end MetricCatalog
