import MetricCatalog.Response.Catalog
import MetricCatalog.Vocabulary.Words

/-!
# Nodes as the service shows them — a revision of a node with all that hangs on it

The words for a node's type, mode and status are kept as they came, so that a word that is not known
yet does not stand in the way of the rest. `Node.type?`, `Node.mode?` and `Node.status?` give them
their meaning.
-/

namespace MetricCatalog.Response

namespace Node

/-- The catalog that a node's table lies in. -/
structure Catalog where
  name : Option String := none
  engines : Option (List Engine) := none
deriving DecidableEq, Inhabited

instance : Wire Catalog where
  shape := .record "Catalog"
    (.cons "name" (.optional .text)
    (.cons "engines" (.optional (Wire.shape (List Engine))) .nil))
  pack c := (c.name, c.engines.map Wire.pack, ())
  unpack := fun (name, engines, ()) => { name, engines := engines.map Wire.unpack }
  unpack_pack _ := by simp
  pack_unpack := fun (_, engines, ()) => by
    congr
    exact Wire.optionMap_pack_optionMap_unpack engines

/-- A column of a node. -/
structure Column where
  name : Option String := none
  displayName : Option String := none
  type : Option String := none
  attributes : Option (List CanonicalJson) := none
  dimension : Option CanonicalJson := none
  partition : Option CanonicalJson := none
deriving BEq, Inhabited

instance : Wire Column where
  shape := .record "Column"
    (.cons "name" (.optional .text)
    (.cons "display_name" (.optional .text)
    (.cons "type" (.optional .text)
    (.cons "attributes" (.optional (.list .json))
    (.cons "dimension" (.optional .json)
    (.cons "partition" (.optional .json) .nil))))))
  pack c := (c.name, c.displayName, c.type, c.attributes, c.dimension, c.partition, ())
  unpack := fun (name, displayName, type, attributes, dimension, partition, ()) =>
    { name, displayName, type, attributes, dimension, partition }
  unpack_pack _ := rfl
  pack_unpack _ := rfl

/-- A node that another one is built on. -/
structure Parent where
  name : Option String := none
deriving DecidableEq, Inhabited

instance : Wire Parent where
  shape := .record "Parent" (.cons "name" (.optional .text) .nil)
  pack p := (p.name, ())
  unpack := fun (name, ()) => { name }
  unpack_pack _ := rfl
  pack_unpack _ := rfl

/-- The user who created a node. -/
structure CreatedBy where
  username : Option String := none
deriving DecidableEq, Inhabited

instance : Wire CreatedBy where
  shape := .record "CreatedBy" (.cons "username" (.optional .text) .nil)
  pack c := (c.username, ())
  unpack := fun (username, ()) => { username }
  unpack_pack _ := rfl
  pack_unpack _ := rfl

end Node

/-- A revision of a node. -/
structure Node where
  space : Option String := none
  revisionId : Option Json.Width.bits64.Integer := none
  id : Option Json.Width.bits64.Integer := none
  type : Option String := none
  name : Option String := none
  displayName : Option String := none
  version : Option String := none
  status : Option String := none
  mode : Option String := none
  catalog : Option Node.Catalog := none
  schema : Option String := none
  table : Option String := none
  description : Option String := none
  query : Option String := none
  columns : Option (List Node.Column) := none
  updatedAt : Option String := none
  parents : Option (List Node.Parent) := none
  createdAt : Option String := none
  createdBy : Option Node.CreatedBy := none
  tags : Option (List String) := none
  currentVersion : Option String := none
  missingTable : Bool := false
  customMetadata : Option CanonicalJson := none
deriving BEq, Inhabited

namespace Node

instance : Wire Node where
  shape := .record "NodeResponse"
    (.cons "namespace" (.optional .text)
    (.cons "node_revision_id" (.optional (.integer .bits64))
    (.cons "node_id" (.optional (.integer .bits64))
    (.cons "type" (.optional .text)
    (.cons "name" (.optional .text)
    (.cons "display_name" (.optional .text)
    (.cons "version" (.optional .text)
    (.cons "status" (.optional .text)
    (.cons "mode" (.optional .text)
    (.cons "catalog" (.optional (Wire.shape Catalog))
    (.cons "schema_" (.optional .text)
    (.cons "table" (.optional .text)
    (.cons "description" (.optional .text)
    (.cons "query" (.optional .text)
    (.cons "columns" (.optional (Wire.shape (List Column)))
    (.cons "updated_at" (.optional .text)
    (.cons "parents" (.optional (Wire.shape (List Parent)))
    (.cons "created_at" (.optional .text)
    (.cons "created_by" (.optional (Wire.shape CreatedBy))
    (.cons "tags" (.optional (.list .text))
    (.cons "current_version" (.optional .text)
    (.cons "missing_table" .flag
    (.cons "custom_metadata" (.optional .json) .nil)))))))))))))))))))))))
  pack n := (n.space, n.revisionId, n.id, n.type, n.name, n.displayName, n.version, n.status, n.mode,
    n.catalog.map Wire.pack, n.schema, n.table, n.description, n.query, n.columns.map Wire.pack,
    n.updatedAt, n.parents.map Wire.pack, n.createdAt, n.createdBy.map Wire.pack, n.tags,
    n.currentVersion, n.missingTable, n.customMetadata, ())
  unpack := fun (space, revisionId, id, type, name, displayName, version, status, mode, catalog, schema,
      table, description, query, columns, updatedAt, parents, createdAt, createdBy, tags,
      currentVersion, missingTable, customMetadata, ()) =>
    { space, revisionId, id, type, name, displayName, version, status, mode,
      catalog := catalog.map Wire.unpack, schema, table, description, query,
      columns := columns.map Wire.unpack, updatedAt, parents := parents.map Wire.unpack, createdAt,
      createdBy := createdBy.map Wire.unpack, tags, currentVersion, missingTable, customMetadata }
  unpack_pack _ := by simp
  pack_unpack := fun (_, _, _, _, _, _, _, _, _, catalog, _, _, _, _, columns, _, parents, _, createdBy,
      _, _, _, _, ()) => by
    congr
    · exact Wire.optionMap_pack_optionMap_unpack catalog
    · exact Wire.optionMap_pack_optionMap_unpack columns
    · exact Wire.optionMap_pack_optionMap_unpack parents
    · exact Wire.optionMap_pack_optionMap_unpack createdBy

/-- The node's type, if it is given and known. -/
def type? (n : Node) : Option NodeType := Vocabulary.named? n.type

/-- The node's mode, if it is given and known. -/
def mode? (n : Node) : Option NodeMode := Vocabulary.named? n.mode

/-- The node's status, if it is given and known. -/
def status? (n : Node) : Option NodeStatus := Vocabulary.named? n.status

end Node

end MetricCatalog.Response
