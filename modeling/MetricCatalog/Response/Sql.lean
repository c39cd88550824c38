import MetricCatalog.Schema.Wire

/-!
# Generated queries — SQL and where its columns come from
-/

namespace MetricCatalog.Response

/-- An output column of a generated query. -/
structure Sql.Column where
  name : Option String := none
  type : Option String := none
  column : Option String := none
  node : Option String := none
  semanticEntity : Option String := none
  semanticType : Option String := none
deriving DecidableEq, Inhabited

instance : Wire Sql.Column where
  shape := .record "Column"
    (.cons "name" (.optional .text)
    (.cons "type" (.optional .text)
    (.cons "column" (.optional .text)
    (.cons "node" (.optional .text)
    (.cons "semantic_entity" (.optional .text)
    (.cons "semantic_type" (.optional .text) .nil))))))
  pack c := (c.name, c.type, c.column, c.node, c.semanticEntity, c.semanticType, ())
  unpack := fun (name, type, column, node, semanticEntity, semanticType, ()) =>
    { name, type, column, node, semanticEntity, semanticType }
  unpack_pack _ := rfl
  pack_unpack _ := rfl

/-- A query generated for metrics and dimensions, or for a node. -/
structure Sql where
  sql : Option String := none
  columns : Option (List Sql.Column) := none
  dialect : Option String := none
  upstreamTables : Option (List String) := none
deriving DecidableEq, Inhabited

instance : Wire Sql where
  shape := .record "SqlResponse"
    (.cons "sql" (.optional .text)
    (.cons "columns" (.optional (Wire.shape (List Sql.Column)))
    (.cons "dialect" (.optional .text)
    (.cons "upstream_tables" (.optional (.list .text)) .nil))))
  pack s := (s.sql, s.columns.map Wire.pack, s.dialect, s.upstreamTables, ())
  unpack := fun (sql, columns, dialect, upstreamTables, ()) =>
    { sql, columns := columns.map Wire.unpack, dialect, upstreamTables }
  unpack_pack _ := by simp
  pack_unpack := fun (_, columns, _, _, ()) => by
    congr
    exact Wire.optionMap_pack_optionMap_unpack columns

end MetricCatalog.Response
