import MetricCatalog.Schema.Wire
import MetricCatalog.Vocabulary.Words

/-!
# Creating metrics — a query and, on top of it, extras

A metric is made with none of its extras. Each `with…` function then gives it one of them, in place of
one that it had before.
-/

namespace MetricCatalog.Request

/-- How a metric is to be shown. -/
structure MetricMetadata where
  direction : Option MetricDirection := none
  unit : Option String := none
  significantDigits : Option Json.Width.bits32.Integer := none
  minDecimalExponent : Option Json.Width.bits32.Integer := none
  maxDecimalExponent : Option Json.Width.bits32.Integer := none
deriving DecidableEq

instance : Wire MetricMetadata where
  shape := .record "MetricMetadata"
    (.cons "direction" (.optional (.word MetricDirection))
    (.cons "unit" (.optional .text)
    (.cons "significant_digits" (.optional (.integer .bits32))
    (.cons "min_decimal_exponent" (.optional (.integer .bits32))
    (.cons "max_decimal_exponent" (.optional (.integer .bits32)) .nil)))))
  pack m := (m.direction, m.unit, m.significantDigits, m.minDecimalExponent, m.maxDecimalExponent, ())
  unpack := fun (direction, unit, significantDigits, minDecimalExponent, maxDecimalExponent, ()) =>
    { direction, unit, significantDigits, minDecimalExponent, maxDecimalExponent }
  unpack_pack _ := rfl
  pack_unpack _ := rfl

/-- A metric to be created. -/
structure Metric where
  name : String
  displayName : Option String := none
  description : Option String := none
  mode : NodeMode := default
  query : String
  updateIfExists : Bool := false
  requiredDimensions : List String := []
  metadata : Option MetricMetadata := none
  tags : List String := []
deriving DecidableEq

instance : Wire Metric where
  shape := .record "Metric"
    (.cons "name" (.required .text)
    (.cons "display_name" (.nullable .text)
    (.cons "description" (.nullable .text)
    (.cons "mode" (.required (.word NodeMode))
    (.cons "query" (.required .text)
    (.cons "update_if_exists" (.required .truth)
    (.cons "required_dimensions" (.listing .text)
    (.cons "metric_metadata" (.sparse (Wire.shape MetricMetadata))
    (.cons "tags" (.listing .text) .nil)))))))))
  pack m := (m.name, m.displayName, m.description, m.mode, m.query, m.updateIfExists,
    m.requiredDimensions, m.metadata.map Wire.pack, m.tags, ())
  unpack := fun (name, displayName, description, mode, query, updateIfExists, requiredDimensions,
      metadata, tags, ()) =>
    { name, displayName, description, mode, query, updateIfExists, requiredDimensions,
      metadata := metadata.map Wire.unpack, tags }
  unpack_pack _ := by simp
  pack_unpack := fun (_, _, _, _, _, _, _, metadata, _, ()) => by
    congr
    exact Wire.optionMap_pack_optionMap_unpack metadata

namespace Metric

/-- The metric with these required dimensions. -/
def withRequiredDimensions (dimensions : List String) (m : Metric) : Metric :=
  { m with requiredDimensions := dimensions }

/-- The metric with this metadata. -/
def withMetadata (metadata : MetricMetadata) (m : Metric) : Metric := { m with metadata := some metadata }

/-- The metric with these tags. -/
def withTags (tags : List String) (m : Metric) : Metric := { m with tags }

/-- One extra of a metric. -/
inductive Extra where
  | requiredDimensions (dimensions : List String)
  | metadata (metadata : MetricMetadata)
  | tags (tags : List String)

/-- The metric with an extra. -/
def withExtra (m : Metric) : Extra → Metric
  | .requiredDimensions dimensions => m.withRequiredDimensions dimensions
  | .metadata metadata => m.withMetadata metadata
  | .tags tags => m.withTags tags

end Metric

end MetricCatalog.Request
