import MetricCatalog.Schema.Wire

/-!
# Namespace answers — what the service says about a change to a namespace
-/

namespace MetricCatalog.Response

/-- The acknowledgement of a change to a namespace. -/
structure Namespace where
  message : Option String := none
deriving DecidableEq, Inhabited

instance : Wire Namespace where
  shape := .record "NamespaceResponse" (.cons "message" (.optional .text) .nil)
  pack n := (n.message, ())
  unpack := fun (message, ()) => { message }
  unpack_pack _ := rfl
  pack_unpack _ := rfl

end MetricCatalog.Response
