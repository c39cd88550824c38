import MetricCatalog.Schema.Wire
import MetricCatalog.Vocabulary.Words

/-!
# Creating cubes — metrics along the dimensions they share
-/

namespace MetricCatalog.Request

/-- A cube to be created. -/
structure Cube where
  name : String
  displayName : Option String := none
  description : Option String := none
  mode : NodeMode := default
  metrics : List String := []
  dimensions : List String := []
  filters : List String := []
  tags : List String := []
  updateIfExists : Bool := false
deriving DecidableEq

instance : Wire Cube where
  shape := .record "Cube"
    (.cons "name" (.required .text)
    (.cons "display_name" (.nullable .text)
    (.cons "description" (.nullable .text)
    (.cons "mode" (.required (.word NodeMode))
    (.cons "metrics" (.required (.list .text))
    (.cons "dimensions" (.required (.list .text))
    (.cons "filters" (.required (.list .text))
    (.cons "tags" (.required (.list .text))
    (.cons "update_if_exists" (.required .truth) .nil)))))))))
  pack c := (c.name, c.displayName, c.description, c.mode, c.metrics, c.dimensions, c.filters, c.tags,
    c.updateIfExists, ())
  unpack := fun (name, displayName, description, mode, metrics, dimensions, filters, tags,
      updateIfExists, ()) =>
    { name, displayName, description, mode, metrics, dimensions, filters, tags, updateIfExists }
  unpack_pack _ := rfl
  pack_unpack _ := rfl

end MetricCatalog.Request
