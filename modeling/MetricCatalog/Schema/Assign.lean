import MetricCatalog.Schema.Wire

/-!
# Assigning fields — one field of a record at a time

A field is named by its key. What is assigned to it is a document. Where any document may stand, null is
one like any other, so assigning it is not the same as unsetting the field.
-/

namespace MetricCatalog

open Json (Fault)

variable {m : Type → Type} [Monad m]

/-- Changes the value of the field under a key. -/
def Fields.modify (key : String) (change : (f : Field) → f.Value → m f.Value) :
    (fs : Fields) → fs.Values → m fs.Values
  | .nil, _ => pure ()
  | .cons k field rest, (v, more) =>
    if k = key then do return (← change field v, more)
    else do return (v, ← rest.modify key change more)

/-- Changes the value of the field under a key, if the values of the shape have one. -/
def Shape.modify (key : String) (change : (f : Field) → f.Value → m f.Value) :
    (s : Shape) → s.Value → m s.Value
  | .record _ fields, values => fields.modify key change values
  | .wrapped k item, xs => if k = key then change (.optional (.list item)) xs else pure xs
  | _, v => pure v

namespace Field

/-- What a document puts into a field. -/
def assigned : (f : Field) → Json → Except Fault f.Value
  | .nullable .json, j => .ok (some j.canonicalize)
  | .optional .json, j => .ok (some j.canonicalize)
  | .sparse .json, j => .ok (some j.canonicalize)
  | f, j => f.ofJson j

/-- The field unset, or as it was if it always has a value. -/
def unset (f : Field) (v : f.Value) : f.Value := f.ifMissing?.getD v

end Field

namespace Wire

variable {α : Type} [Wire α]

/-- Assigns a document to a field. -/
def assign (key : String) (j : Json) (a : α) : Except Error α :=
  match ((shape α).modify key (fun f _ => f.assigned j) (pack a) : Except Fault _) with
  | .ok v => .ok (unpack v)
  | .error fault => .error (.json ⟨fault, none⟩)

/-- Unsets a field. -/
def unset (key : String) (a : α) : α :=
  unpack (Id.run ((shape α).modify key (fun f v => pure (f.unset v)) (pack a)))

end Wire

end MetricCatalog
