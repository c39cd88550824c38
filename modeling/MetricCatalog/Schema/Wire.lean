import MetricCatalog.Schema.Read
import MetricCatalog.Schema.OfJson
import MetricCatalog.Schema.ToJson
import MetricCatalog.Json.Render
import MetricCatalog.Json.Refusal

/-!
# Wire types — what can be sent and received

A type is a `Wire` type if its values are packed into the values of a shape and unpacked again without
loss either way. For every such type there are the readers `decode` (of a text), `decodeBytes` and
`Wire.ofJson` (of a document), and the writers `encode` (compact) and `encodePretty`.
-/

namespace MetricCatalog

open Json (Fault Refusal)

/-- Types with a form on the wire. -/
class Wire (α : Type) where
  shape : Shape
  pack : α → shape.Value
  unpack : shape.Value → α
  unpack_pack (a : α) : unpack (pack a) = a
  pack_unpack (v : shape.Value) : pack (unpack v) = v

attribute [simp] Wire.unpack_pack Wire.pack_unpack

namespace Wire

variable {α : Type} [Wire α]

/-! ## 1. Wire types that others are made of -/

instance : Wire String where
  shape := .text
  pack s := s
  unpack s := s
  unpack_pack _ := rfl
  pack_unpack _ := rfl

instance : Wire CanonicalJson where
  shape := .json
  pack j := j
  unpack j := j
  unpack_pack _ := rfl
  pack_unpack _ := rfl

instance {α : Type} [Vocabulary α] : Wire α where
  shape := .word α
  pack a := a
  unpack a := a
  unpack_pack _ := rfl
  pack_unpack _ := rfl

@[simp] theorem unpack_comp_pack : (unpack ∘ pack : α → α) = id := funext unpack_pack

@[simp] theorem pack_comp_unpack : (pack ∘ unpack : (shape α).Value → _) = id := funext pack_unpack

theorem map_pack_map_unpack (vs : List (shape α).Value) : (vs.map unpack : List α).map pack = vs := by simp

theorem optionMap_pack_optionMap_unpack (v : Option (shape α).Value) :
    (v.map unpack : Option α).map pack = v := by simp

instance {α : Type} [Wire α] : Wire (List α) where
  shape := .list (shape α)
  pack xs := List.map pack xs
  unpack vs := List.map unpack vs
  unpack_pack _ := by simp
  pack_unpack := map_pack_map_unpack

/-! ## 2. Reading and writing -/

/-- Takes a value from a document. -/
def ofJson (j : Json) : Except Fault α := ((shape α).ofJson j).map unpack

/-- The document of a value. -/
def toJson (a : α) : Json := (shape α).toJson (pack a)

end Wire

variable {α : Type} [Wire α]

/-- Reads a value from bytes. -/
def decodeBytes (α : Type) [Wire α] (bytes : Bytes) : Except Error α :=
  match (Json.Scan.run ((Wire.shape α).read Json.Scan.depthLimit) bytes) with
  | .ok v => .ok (Wire.unpack v)
  | .error r => .error (.json r)

/-- Reads a value from a text. -/
def decode (α : Type) [Wire α] (text : String) : Except Error α :=
  decodeBytes α (Utf8.encode text.toList)

/-- Takes a value from a document. -/
def decodeJson (α : Type) [Wire α] (j : Json) : Except Error α :=
  match (Wire.ofJson j : Except Fault α) with
  | .ok a => .ok a
  | .error fault => .error (.json ⟨fault, none⟩)

/-- Writes a value without blanks. -/
def encode (a : α) : String := (Wire.toJson a).compact

/-- Writes a value laid out over lines. -/
def encodePretty (a : α) : String := (Wire.toJson a).pretty

end MetricCatalog
