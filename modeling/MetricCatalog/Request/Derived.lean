import MetricCatalog.Schema.Wire
import MetricCatalog.Vocabulary.Words

/-!
# Creating derived nodes — dimensions and transforms, each defined by a query
-/

namespace MetricCatalog.Request

/-- A dimension to be created. -/
structure Dimension where
  name : String
  displayName : Option String := none
  description : Option String := none
  mode : NodeMode := default
  primaryKey : List String := []
  tags : List String := []
  query : String
  updateIfExists : Bool := false
deriving DecidableEq

instance : Wire Dimension where
  shape := .record "Dimension"
    (.cons "name" (.required .text)
    (.cons "display_name" (.nullable .text)
    (.cons "description" (.nullable .text)
    (.cons "mode" (.required (.word NodeMode))
    (.cons "primary_key" (.required (.list .text))
    (.cons "tags" (.required (.list .text))
    (.cons "query" (.required .text)
    (.cons "update_if_exists" (.required .truth) .nil))))))))
  pack d := (d.name, d.displayName, d.description, d.mode, d.primaryKey, d.tags, d.query,
    d.updateIfExists, ())
  unpack := fun (name, displayName, description, mode, primaryKey, tags, query, updateIfExists, ()) =>
    { name, displayName, description, mode, primaryKey, tags, query, updateIfExists }
  unpack_pack _ := rfl
  pack_unpack _ := rfl

/-- A transform to be created. Its own metadata may be any document, null included. -/
structure Transform where
  name : String
  displayName : Option String := none
  description : Option String := none
  mode : NodeMode := default
  primaryKey : List String := []
  tags : List String := []
  query : String
  customMetadata : Option CanonicalJson := none
  updateIfExists : Bool := false
deriving BEq

instance : Wire Transform where
  shape := .record "Transform"
    (.cons "name" (.required .text)
    (.cons "display_name" (.nullable .text)
    (.cons "description" (.nullable .text)
    (.cons "mode" (.required (.word NodeMode))
    (.cons "primary_key" (.required (.list .text))
    (.cons "tags" (.required (.list .text))
    (.cons "query" (.required .text)
    (.cons "custom_metadata" (.sparse .json)
    (.cons "update_if_exists" (.required .truth) .nil)))))))))
  pack t := (t.name, t.displayName, t.description, t.mode, t.primaryKey, t.tags, t.query,
    t.customMetadata, t.updateIfExists, ())
  unpack := fun (name, displayName, description, mode, primaryKey, tags, query, customMetadata,
      updateIfExists, ()) =>
    { name, displayName, description, mode, primaryKey, tags, query, customMetadata, updateIfExists }
  unpack_pack _ := rfl
  pack_unpack _ := rfl

end MetricCatalog.Request
