import MetricCatalog.Schema.Wire

/-!
# Registering catalogs — catalogs and the engines that query them
-/

namespace MetricCatalog.Request

/-- A catalog to be registered. -/
structure Catalog where
  name : String
deriving DecidableEq

instance : Wire Catalog where
  shape := .record "Catalog" (.cons "name" (.required .text) .nil)
  pack c := (c.name, ())
  unpack := fun (name, ()) => { name }
  unpack_pack _ := rfl
  pack_unpack _ := rfl

/-- A query engine to be registered. -/
structure Engine where
  name : String
  version : String
deriving DecidableEq

instance : Wire Engine where
  shape := .record "Engine" (.cons "name" (.required .text) (.cons "version" (.required .text) .nil))
  pack e := (e.name, e.version, ())
  unpack := fun (name, version, ()) => { name, version }
  unpack_pack _ := rfl
  pack_unpack _ := rfl

end MetricCatalog.Request
