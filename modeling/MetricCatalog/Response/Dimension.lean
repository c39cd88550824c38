import MetricCatalog.Schema.Wire

/-!
# Common dimensions — what metrics that are asked for together can be split by

The service sends either an object with the list under the key `dimensions`, or the bare list. The
object is what is written.
-/

namespace MetricCatalog.Response

/-- A dimension that can be reached from a node. -/
structure Dimension where
  name : Option String := none
  nodeName : Option String := none
  nodeDisplayName : Option String := none
  properties : Option (List String) := none
  type : Option String := none
  path : Option (List String) := none
  filterOnly : Bool := false
deriving DecidableEq, Inhabited

instance : Wire Dimension where
  shape := .record "Dimension"
    (.cons "name" (.optional .text)
    (.cons "node_name" (.optional .text)
    (.cons "node_display_name" (.optional .text)
    (.cons "properties" (.optional (.list .text))
    (.cons "type" (.optional .text)
    (.cons "path" (.optional (.list .text))
    (.cons "filter_only" .flag .nil)))))))
  pack d := (d.name, d.nodeName, d.nodeDisplayName, d.properties, d.type, d.path, d.filterOnly, ())
  unpack := fun (name, nodeName, nodeDisplayName, properties, type, path, filterOnly, ()) =>
    { name, nodeName, nodeDisplayName, properties, type, path, filterOnly }
  unpack_pack _ := rfl
  pack_unpack _ := rfl

/-- The dimensions that metrics have in common. -/
structure CommonDimensions where
  dimensions : Option (List Dimension) := none
deriving DecidableEq, Inhabited

instance : Wire CommonDimensions where
  shape := .wrapped "dimensions" (Wire.shape Dimension)
  pack c := c.dimensions.map (List.map Wire.pack)
  unpack v := { dimensions := Option.map (List.map Wire.unpack) v }
  unpack_pack
    | ⟨none⟩ => rfl
    | ⟨some ds⟩ => by simp
  pack_unpack
    | none => rfl
    | some ds => congrArg some (Wire.map_pack_map_unpack ds)

end MetricCatalog.Response
