import MetricCatalog.Request.Catalog
import MetricCatalog.Request.Cube
import MetricCatalog.Request.Derived
import MetricCatalog.Request.Metric
import MetricCatalog.Request.Source
import MetricCatalog.Response.Catalog
import MetricCatalog.Response.Dimension
import MetricCatalog.Response.Namespace
import MetricCatalog.Response.Node
import MetricCatalog.Response.Sql

/-!
# Records — all types that are sent and received

What is proved of every record type is proved of every `RecordType`, and of every `PayloadType` if it is
also to hold of lists of records. Most of it is proved of shapes, and only needs to know of these types
what `RecordType.distinct` says: no record has two fields under one key.
-/

namespace MetricCatalog

inductive RecordType where
  | requestCatalog
  | requestEngine
  | requestColumn
  | requestSource
  | requestDimension
  | requestTransform
  | requestMetric
  | requestMetricMetadata
  | requestCube
  | catalog
  | engine
  | commonDimensions
  | dimension
  | namespace
  | node
  | nodeCatalog
  | nodeColumn
  | nodeParent
  | nodeCreatedBy
  | sql
  | sqlColumn
deriving DecidableEq

namespace RecordType

/-- The values of a record type. -/
def Value : RecordType → Type
  | requestCatalog => Request.Catalog
  | requestEngine => Request.Engine
  | requestColumn => Request.Column
  | requestSource => Request.Source
  | requestDimension => Request.Dimension
  | requestTransform => Request.Transform
  | requestMetric => Request.Metric
  | requestMetricMetadata => Request.MetricMetadata
  | requestCube => Request.Cube
  | catalog => Response.Catalog
  | engine => Response.Engine
  | commonDimensions => Response.CommonDimensions
  | dimension => Response.Dimension
  | .namespace => Response.Namespace
  | node => Response.Node
  | nodeCatalog => Response.Node.Catalog
  | nodeColumn => Response.Node.Column
  | nodeParent => Response.Node.Parent
  | nodeCreatedBy => Response.Node.CreatedBy
  | sql => Response.Sql
  | sqlColumn => Response.Sql.Column

instance : (T : RecordType) → Wire T.Value
  | requestCatalog => inferInstanceAs (Wire Request.Catalog)
  | requestEngine => inferInstanceAs (Wire Request.Engine)
  | requestColumn => inferInstanceAs (Wire Request.Column)
  | requestSource => inferInstanceAs (Wire Request.Source)
  | requestDimension => inferInstanceAs (Wire Request.Dimension)
  | requestTransform => inferInstanceAs (Wire Request.Transform)
  | requestMetric => inferInstanceAs (Wire Request.Metric)
  | requestMetricMetadata => inferInstanceAs (Wire Request.MetricMetadata)
  | requestCube => inferInstanceAs (Wire Request.Cube)
  | catalog => inferInstanceAs (Wire Response.Catalog)
  | engine => inferInstanceAs (Wire Response.Engine)
  | commonDimensions => inferInstanceAs (Wire Response.CommonDimensions)
  | dimension => inferInstanceAs (Wire Response.Dimension)
  | .namespace => inferInstanceAs (Wire Response.Namespace)
  | node => inferInstanceAs (Wire Response.Node)
  | nodeCatalog => inferInstanceAs (Wire Response.Node.Catalog)
  | nodeColumn => inferInstanceAs (Wire Response.Node.Column)
  | nodeParent => inferInstanceAs (Wire Response.Node.Parent)
  | nodeCreatedBy => inferInstanceAs (Wire Response.Node.CreatedBy)
  | sql => inferInstanceAs (Wire Response.Sql)
  | sqlColumn => inferInstanceAs (Wire Response.Sql.Column)

end RecordType

/-- A record type, or the lists of its values. -/
inductive PayloadType where
  | one (T : RecordType)
  | many (T : RecordType)
deriving DecidableEq

namespace PayloadType

/-- The values of a payload type. -/
def Value : PayloadType → Type
  | one T => T.Value
  | many T => List T.Value

instance : (T : PayloadType) → Wire T.Value
  | one T => inferInstanceAs (Wire T.Value)
  | many T => inferInstanceAs (Wire (List T.Value))

/-- The shape of a payload type. -/
def shape (T : PayloadType) : Shape := Wire.shape T.Value

end PayloadType

/-! ## Keys -/

/-- The keys of a record. -/
def Fields.keys : Fields → List String
  | .nil => []
  | .cons key _ rest => key :: rest.keys

mutual

/-- The keys of each record that is part of a shape. -/
def Shape.recordKeys : Shape → List (List String)
  | .list item => item.recordKeys
  | .record _ fields => fields.keys :: fields.recordKeys
  | .wrapped key item => [key] :: item.recordKeys
  | _ => []

def Field.recordKeys : Field → List (List String)
  | .required shape => shape.recordKeys
  | .nullable shape => shape.recordKeys
  | .optional shape => shape.recordKeys
  | .sparse shape => shape.recordKeys
  | .flag => []
  | .listing item => item.recordKeys

def Fields.recordKeys : Fields → List (List String)
  | .nil => []
  | .cons _ field rest => field.recordKeys ++ rest.recordKeys

end

/-- No record of a shape has two fields under one key. -/
def Shape.Distinct (s : Shape) : Prop := ∀ keys ∈ s.recordKeys, keys.Nodup

instance : DecidablePred Shape.Distinct :=
  fun s => inferInstanceAs (Decidable (∀ keys ∈ s.recordKeys, keys.Nodup))

section

variable {name key : String} {s : Shape} {field : Field} {fs rest : Fields}

theorem Shape.Distinct.keys_nodup (h : (Shape.record name fs).Distinct) : fs.keys.Nodup :=
  h _ List.mem_cons_self

theorem Shape.Distinct.fields (h : (Shape.record name fs).Distinct) :
    ∀ keys ∈ fs.recordKeys, keys.Nodup :=
  fun keys hmem => h keys (List.mem_cons_of_mem _ hmem)

theorem Shape.Distinct.item (h : (Shape.wrapped key s).Distinct) : s.Distinct :=
  fun keys hmem => h keys (List.mem_cons_of_mem _ hmem)

theorem Fields.nodup_first (h : ∀ keys ∈ (Fields.cons key field rest).recordKeys, keys.Nodup) :
    ∀ keys ∈ field.recordKeys, keys.Nodup :=
  fun keys hmem => h keys (List.mem_append_left _ hmem)

theorem Fields.nodup_rest (h : ∀ keys ∈ (Fields.cons key field rest).recordKeys, keys.Nodup) :
    ∀ keys ∈ rest.recordKeys, keys.Nodup :=
  fun keys hmem => h keys (List.mem_append_right _ hmem)

end

theorem RecordType.distinct (T : RecordType) : (Wire.shape T.Value).Distinct := by
  cases T <;> decide

theorem PayloadType.recordKeys_shape (T : PayloadType) :
    ∃ R : RecordType, T.shape.recordKeys = (Wire.shape R.Value).recordKeys := by
  cases T with
  | one R => exact ⟨R, rfl⟩
  | many R => exact ⟨R, rfl⟩

theorem PayloadType.distinct (T : PayloadType) : T.shape.Distinct := by
  rcases T.recordKeys_shape with ⟨R, hR⟩
  rw [Shape.Distinct, hR]
  exact R.distinct

end MetricCatalog
