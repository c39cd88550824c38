import Mathlib.Data.List.Forall2
import MetricCatalog.Proofs.Schema.Records

/-!
# Slots — what a document has to say for a request

`RecordType.slots` lists the keys of each request with what may stand under them and the part of the request
that it becomes. Nothing here says how documents are read.
-/

namespace MetricCatalog

namespace Request

/-! ## 1. Values -/

/-- Which values a document gives. -/
abbrev Giving (β : Type) := Json → β → Prop

namespace Giving

variable {β : Type}

def text : Giving String := fun j s => j = .string s

def truth : Giving Bool := fun j b => j = .boolean b

def integer (width : Json.Width) : Giving width.Integer :=
  fun j n => ∃ i : Json.Integer, j = .number (.int i) ∧ i.val = n.val

/-- A word, alone or as the only key of an object with null under it. -/
def word (α : Type) [Vocabulary α] : Giving α :=
  fun j a => j = .string (Vocabulary.spell a) ∨ j = .object [(Vocabulary.spell a, .null)]

/-- Any document, with its keys sorted and the last of equal keys kept. -/
def document : Giving CanonicalJson := fun j c => j.canonicalize = c

def list (item : Giving β) : Giving (List β) := fun j bs => ∃ js, j = .array js ∧ List.Forall₂ item js bs

/-- Null for an unset value. -/
def orNull (value : Giving β) : Giving (Option β)
  | .null, b => b = none
  | j, b => ∃ a, value j a ∧ b = some a

end Giving

/-! ## 2. Keys -/

/-- A key of a record of type `α`: the part of the record that it holds, what has to stand under it, and the
part that the record has where the key is missing or an array ends before it, if it may. -/
structure Slot (α : Type) where
  key : String
  {β : Type}
  part : α → β
  gives : Giving β
  missing? : Option β := none
  cutOff? : Option β := none

namespace Slot

variable {α β : Type}

def required (key : String) (part : α → β) (gives : Giving β) : Slot α := { key, part, gives }

/-- A key that may be missing, but not from an array. -/
def nullable (key : String) (part : α → Option β) (gives : Giving β) : Slot α :=
  { key, part, gives := .orNull gives, missing? := some none }

def optional (key : String) (part : α → Option β) (gives : Giving β) : Slot α :=
  { key, part, gives := .orNull gives, missing? := some none, cutOff? := some none }

/-- A list, never null, that is empty where the key is missing. -/
def listing (key : String) (part : α → List β) (gives : Giving β) : Slot α :=
  { key, part, gives := .list gives, missing? := some [], cutOff? := some [] }

variable (slot : Slot α) (ms : List (String × Json))

/-- The members of an object give this part: there is one under the key, or none and none is needed. -/
def Found (b : slot.β) : Prop :=
  ms.filter (·.1 = slot.key) = [] ∧ slot.missing? = some b ∨
    ∃ j, ms.filter (·.1 = slot.key) = [(slot.key, j)] ∧ slot.gives j b

/-- The key is missing and has to be there. -/
def Lacking : Prop := ms.filter (·.1 = slot.key) = [] ∧ slot.missing? = none

/-- What stands at the place of the key in an array gives this part, be it nothing. -/
def FoundAt (found : Option Json) (b : slot.β) : Prop :=
  match found with
  | none => slot.cutOff? = some b
  | some j => slot.gives j b

end Slot

/-- The items of an array give the parts of a record in their order. -/
def Placed {α : Type} : List (Slot α) → List Json → α → Prop
  | [], js, _ => js = []
  | slot :: slots, js, a => slot.FoundAt js.head? (slot.part a) ∧ Placed slots js.tail a

/-- A record, from an object or from an array in its place. -/
def Giving.record {α : Type} (slots : List (Slot α)) : Giving α
  | .object ms, a => ∀ slot ∈ slots, slot.Found ms (slot.part a)
  | .array js, a => Placed slots js a
  | _, _ => False

/-! ## 3. Requests -/

open Giving Slot

def catalogSlots : List (Slot Catalog) := [required "name" (·.name) text]

def engineSlots : List (Slot Engine) := [required "name" (·.name) text, required "version" (·.version) text]

def columnSlots : List (Slot Column) := [required "name" (·.name) text, required "type" (·.type) text]

def metadataSlots : List (Slot MetricMetadata) :=
  [optional "direction" (·.direction) (word MetricDirection),
    optional "unit" (·.unit) text,
    optional "significant_digits" (·.significantDigits) (integer .bits32),
    optional "min_decimal_exponent" (·.minDecimalExponent) (integer .bits32),
    optional "max_decimal_exponent" (·.maxDecimalExponent) (integer .bits32)]

def sourceSlots : List (Slot Source) :=
  [required "name" (·.name) text,
    required "catalog" (·.catalog) text,
    required "schema_" (·.schema) text,
    required "table" (·.table) text,
    nullable "display_name" (·.displayName) text,
    nullable "description" (·.description) text,
    required "columns" (·.columns) (list (record columnSlots)),
    required "primary_key" (·.primaryKey) (list text),
    required "mode" (·.mode) (word NodeMode),
    required "update_if_exists" (·.updateIfExists) truth]

def dimensionSlots : List (Slot Dimension) :=
  [required "name" (·.name) text,
    nullable "display_name" (·.displayName) text,
    nullable "description" (·.description) text,
    required "mode" (·.mode) (word NodeMode),
    required "primary_key" (·.primaryKey) (list text),
    required "tags" (·.tags) (list text),
    required "query" (·.query) text,
    required "update_if_exists" (·.updateIfExists) truth]

def transformSlots : List (Slot Transform) :=
  [required "name" (·.name) text,
    nullable "display_name" (·.displayName) text,
    nullable "description" (·.description) text,
    required "mode" (·.mode) (word NodeMode),
    required "primary_key" (·.primaryKey) (list text),
    required "tags" (·.tags) (list text),
    required "query" (·.query) text,
    optional "custom_metadata" (·.customMetadata) document,
    required "update_if_exists" (·.updateIfExists) truth]

def metricSlots : List (Slot Metric) :=
  [required "name" (·.name) text,
    nullable "display_name" (·.displayName) text,
    nullable "description" (·.description) text,
    required "mode" (·.mode) (word NodeMode),
    required "query" (·.query) text,
    required "update_if_exists" (·.updateIfExists) truth,
    listing "required_dimensions" (·.requiredDimensions) text,
    optional "metric_metadata" (·.metadata) (record metadataSlots),
    listing "tags" (·.tags) text]

def cubeSlots : List (Slot Cube) :=
  [required "name" (·.name) text,
    nullable "display_name" (·.displayName) text,
    nullable "description" (·.description) text,
    required "mode" (·.mode) (word NodeMode),
    required "metrics" (·.metrics) (list text),
    required "dimensions" (·.dimensions) (list text),
    required "filters" (·.filters) (list text),
    required "tags" (·.tags) (list text),
    required "update_if_exists" (·.updateIfExists) truth]

end Request

open Request in
/-- The keys of a request; none are listed for a response. -/
def RecordType.slots : (T : RecordType) → List (Slot T.Value)
  | requestCatalog => catalogSlots
  | requestEngine => engineSlots
  | requestColumn => columnSlots
  | requestSource => sourceSlots
  | requestDimension => dimensionSlots
  | requestTransform => transformSlots
  | requestMetric => metricSlots
  | requestMetricMetadata => metadataSlots
  | requestCube => cubeSlots
  | _ => []

end MetricCatalog
