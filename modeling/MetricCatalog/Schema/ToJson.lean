import MetricCatalog.Schema.Shape

/-!
# Documents for values of a shape

A record is written as an object with its keys in order, a word as its spelling, and a list without its
value object only inside the object that wraps it.
-/

namespace MetricCatalog

open Json (Width)

/-- A bounded integer as one that any document can hold. -/
def Json.Width.toInteger : (w : Width) → w.Integer → Json.Integer
  | .bits32, i => i.widen _ _ (by decide) (by decide)
  | .bits64, i => i.widen _ _ (by decide) (by decide)

mutual

/-- The document of a value. -/
def Shape.toJson : (s : Shape) → s.Value → Json
  | .text, t => .string t
  | .truth, b => .boolean b
  | .integer width, i => .number (.int (width.toInteger i))
  | @Shape.word α _, a => .string (Vocabulary.spell (show α from a))
  | .json, j => j.toJson
  | .list item, xs => .array (xs.map item.toJson)
  | .record _ fields, values => .object (fields.toMembers values)
  | .wrapped key item, xs =>
    .object [(key, match xs with | some xs => .array (xs.map item.toJson) | none => .null)]

/-- The document under a key, unless the member is left out. -/
def Field.toJson? : (f : Field) → f.Value → Option Json
  | .required shape, v => some (shape.toJson v)
  | .nullable shape, v => some (match v with | some v => shape.toJson v | none => .null)
  | .optional shape, v => some (match v with | some v => shape.toJson v | none => .null)
  | .sparse shape, v => v.map shape.toJson
  | .flag, b => some (.boolean b)
  | .listing item, xs => if xs.isEmpty then none else some (.array (xs.map item.toJson))

/-- The members of a record. -/
def Fields.toMembers : (fs : Fields) → fs.Values → List (String × Json)
  | .nil, _ => []
  | .cons key field rest, (v, more) =>
    match field.toJson? v with
    | some j => (key, j) :: rest.toMembers more
    | none => rest.toMembers more

end

end MetricCatalog
