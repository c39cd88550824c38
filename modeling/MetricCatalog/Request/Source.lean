import MetricCatalog.Schema.Wire
import MetricCatalog.Vocabulary.Words

/-!
# Registering sources — physical tables as nodes of the catalog
-/

namespace MetricCatalog.Request

/-- A column declared on a source. -/
structure Column where
  name : String
  type : String
deriving DecidableEq

instance : Wire Column where
  shape := .record "Column" (.cons "name" (.required .text) (.cons "type" (.required .text) .nil))
  pack c := (c.name, c.type, ())
  unpack := fun (name, type, ()) => { name, type }
  unpack_pack _ := rfl
  pack_unpack _ := rfl

/-- A physical table to be registered as a source node. -/
structure Source where
  name : String
  catalog : String
  schema : String
  table : String
  displayName : Option String := none
  description : Option String := none
  columns : List Column := []
  primaryKey : List String := []
  mode : NodeMode := default
  updateIfExists : Bool := false
deriving DecidableEq

instance : Wire Source where
  shape := .record "Source"
    (.cons "name" (.required .text)
    (.cons "catalog" (.required .text)
    (.cons "schema_" (.required .text)
    (.cons "table" (.required .text)
    (.cons "display_name" (.nullable .text)
    (.cons "description" (.nullable .text)
    (.cons "columns" (.required (.list (Wire.shape Column)))
    (.cons "primary_key" (.required (.list .text))
    (.cons "mode" (.required (.word NodeMode))
    (.cons "update_if_exists" (.required .truth) .nil))))))))))
  pack s := (s.name, s.catalog, s.schema, s.table, s.displayName, s.description, s.columns.map Wire.pack,
    s.primaryKey, s.mode, s.updateIfExists, ())
  unpack := fun (name, catalog, schema, table, displayName, description, columns, primaryKey, mode,
      updateIfExists, ()) =>
    { name, catalog, schema, table, displayName, description, columns := columns.map Wire.unpack,
      primaryKey, mode, updateIfExists }
  unpack_pack _ := by simp
  pack_unpack := fun (_, _, _, _, _, _, columns, _, _, _, ()) => by
    congr
    exact Wire.map_pack_map_unpack columns

end MetricCatalog.Request
