import MetricCatalog.Schema.Wire

/-!
# Catalogs as the service shows them — with the engines that can query them
-/

namespace MetricCatalog.Response

/-- A query engine. -/
structure Engine where
  name : Option String := none
  version : Option String := none
  uri : Option String := none
  dialect : Option String := none
deriving DecidableEq, Inhabited

instance : Wire Engine where
  shape := .record "EngineResponse"
    (.cons "name" (.optional .text)
    (.cons "version" (.optional .text)
    (.cons "uri" (.optional .text)
    (.cons "dialect" (.optional .text) .nil))))
  pack e := (e.name, e.version, e.uri, e.dialect, ())
  unpack := fun (name, version, uri, dialect, ()) => { name, version, uri, dialect }
  unpack_pack _ := rfl
  pack_unpack _ := rfl

/-- A catalog. -/
structure Catalog where
  name : Option String := none
  engines : Option (List Engine) := none
deriving DecidableEq, Inhabited

instance : Wire Catalog where
  shape := .record "CatalogResponse"
    (.cons "name" (.optional .text)
    (.cons "engines" (.optional (Wire.shape (List Engine))) .nil))
  pack c := (c.name, c.engines.map Wire.pack, ())
  unpack := fun (name, engines, ()) => { name, engines := engines.map Wire.unpack }
  unpack_pack _ := by simp
  pack_unpack := fun (_, engines, ()) => by
    congr
    exact Wire.optionMap_pack_optionMap_unpack engines

end MetricCatalog.Response
