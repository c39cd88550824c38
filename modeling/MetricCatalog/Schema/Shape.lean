import MetricCatalog.Vocabulary.Basic
import MetricCatalog.Json.Canonical

/-!
# Shapes — how values are laid out on the wire

A `Shape` describes the JSON form of a value, a `Field` what may stand under a key of a record, and
`Fields` the keys of a record in their order. `Shape.Value` is the type of the values of a shape, so a
value cannot have a form that its shape does not allow.
-/

namespace MetricCatalog

mutual

/-- The JSON form of a value. -/
inductive Shape : Type 1 where
  | text
  | truth
  | integer (width : Json.Width)
  | word (α : Type) [vocabulary : Vocabulary α]
  /-- Any document, kept in canonical form. -/
  | json
  | list (item : Shape)
  /-- An object with these fields, or an array of their values in order. -/
  | record (name : String) (fields : Fields)
  /-- An object with a list, perhaps unset, under one key. The bare list may stand for the object. -/
  | wrapped (key : String) (item : Shape)

/-- What may stand under a key of a record. -/
inductive Field : Type 1 where
  /-- A value. -/
  | required (shape : Shape)
  /-- A value, or null. The key may be missing, but an array must reach it. -/
  | nullable (shape : Shape)
  /-- A value, or null. The key may be missing, and an array may end before it. -/
  | optional (shape : Shape)
  /-- An optional value that is not written while it is unset. -/
  | sparse (shape : Shape)
  /-- A truth value that is false if it is null or missing. -/
  | flag
  /-- A list, never null, that is empty if it is missing and not written while it is empty. -/
  | listing (item : Shape)

/-- The keys of a record in their order. -/
inductive Fields : Type 1 where
  | nil
  | cons (key : String) (field : Field) (rest : Fields)

end

/-- The integers of a width. -/
abbrev Json.Width.Integer (w : Json.Width) : Type := IntBetween w.lo w.hi

mutual

/-- The values of a shape. -/
def Shape.Value : Shape → Type
  | .text => String
  | .truth => Bool
  | .integer width => width.Integer
  | @Shape.word α _ => α
  | .json => CanonicalJson
  | .list item => List item.Value
  | .record _ fields => fields.Values
  | .wrapped _ item => Option (List item.Value)

/-- The values of a field. -/
def Field.Value : Field → Type
  | .required shape => shape.Value
  | .nullable shape => Option shape.Value
  | .optional shape => Option shape.Value
  | .sparse shape => Option shape.Value
  | .flag => Bool
  | .listing item => List item.Value

/-- The values of all fields of a record. -/
def Fields.Values : Fields → Type
  | .nil => Unit
  | .cons _ field rest => field.Value × rest.Values

end

namespace Field

/-- The value of a field whose key is missing from an object, if it may be. -/
def ifMissing? : (f : Field) → Option f.Value
  | .required _ => none
  | .nullable _ => some none
  | .optional _ => some none
  | .sparse _ => some none
  | .flag => some false
  | .listing _ => some []

/-- The value of a field that an array does not reach, if it may end before it. -/
def ifCutOff? : (f : Field) → Option f.Value
  | .required _ => none
  | .nullable _ => none
  | .optional _ => some none
  | .sparse _ => some none
  | .flag => some false
  | .listing _ => some []

end Field

namespace Fields

/-- The number of keys. -/
def size : Fields → Nat
  | .nil => 0
  | .cons _ _ rest => rest.size + 1

/-- The values found so far while an object is read. -/
def Filling : Fields → Type
  | .nil => Unit
  | .cons _ field rest => Option field.Value × rest.Filling

/-- Nothing found yet. -/
def unfilled : (fs : Fields) → fs.Filling
  | .nil => ()
  | .cons _ _ rest => (none, rest.unfilled)

/-- The values of a record whose object has ended, or the first key that had to be there. -/
def finish : (fs : Fields) → fs.Filling → Except String fs.Values
  | .nil, _ => .ok ()
  | .cons key field rest, (found, more) =>
    match found.or field.ifMissing? with
    | none => .error key
    | some v => (rest.finish more).map (v, ·)

/-- The values of the fields from the one at `index` on, before which an array has ended, or the index of
the first one that had to be there. -/
def cutOff : (fs : Fields) → (index : Nat) → Except Nat fs.Values
  | .nil, _ => .ok ()
  | .cons _ field rest, index =>
    match field.ifCutOff? with
    | none => .error index
    | some v => (rest.cutOff (index + 1)).map (v, ·)

end Fields

end MetricCatalog
