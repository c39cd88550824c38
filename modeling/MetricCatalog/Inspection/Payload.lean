import MetricCatalog.Response.Dimension
import MetricCatalog.Response.Namespace
import MetricCatalog.Response.Node
import MetricCatalog.Response.Sql

/-!
# Inspecting a payload — what a client sees of an answer of the service

A payload is read as the type of answers that its kind stands for and written again. What the type does
not know is gone then, and what it knows is laid out in one way.
-/

namespace MetricCatalog

/-- The kinds of payloads. -/
inductive PayloadKind where
  | catalog
  | catalogs
  | engine
  | engines
  | commonDimensions
  | namespace
  | node
  | nodes
  | sql
deriving DecidableEq

namespace PayloadKind

instance : Vocabulary PayloadKind where
  lexicon := .payloadKind
  all := [catalog, catalogs, engine, engines, commonDimensions, .namespace, node, nodes, sql]
  title
    | catalog => "Catalog"
    | catalogs => "Catalogs"
    | engine => "Engine"
    | engines => "Engines"
    | commonDimensions => "CommonDimensions"
    | .namespace => "Namespace"
    | node => "Node"
    | nodes => "Nodes"
    | sql => "Sql"
  name
    | catalog => "catalog"
    | catalogs => "catalogs"
    | engine => "engine"
    | engines => "engines"
    | commonDimensions => "common_dimensions"
    | .namespace => "namespace"
    | node => "node"
    | nodes => "nodes"
    | sql => "sql"
  known :=
    [("catalog", catalog), ("catalogs", catalogs), ("engine", engine), ("engines", engines),
      ("common_dimensions", commonDimensions), ("namespace", .namespace), ("node", node),
      ("nodes", nodes), ("sql", sql)]
  mem_all a := by cases a <;> decide
  spell_injective {a b} := by cases a <;> cases b <;> decide +kernel

/-- The answers of a kind. -/
def Answer : PayloadKind → Type
  | catalog => Response.Catalog
  | catalogs => List Response.Catalog
  | engine => Response.Engine
  | engines => List Response.Engine
  | commonDimensions => Response.CommonDimensions
  | .namespace => Response.Namespace
  | node => Response.Node
  | nodes => List Response.Node
  | sql => Response.Sql

instance : (kind : PayloadKind) → Wire kind.Answer
  | catalog => inferInstanceAs (Wire Response.Catalog)
  | catalogs => inferInstanceAs (Wire (List Response.Catalog))
  | engine => inferInstanceAs (Wire Response.Engine)
  | engines => inferInstanceAs (Wire (List Response.Engine))
  | commonDimensions => inferInstanceAs (Wire Response.CommonDimensions)
  | .namespace => inferInstanceAs (Wire Response.Namespace)
  | node => inferInstanceAs (Wire Response.Node)
  | nodes => inferInstanceAs (Wire (List Response.Node))
  | sql => inferInstanceAs (Wire Response.Sql)

end PayloadKind

/-- Reads a payload as an answer of a kind and lays it out over lines. -/
def inspect (kind : PayloadKind) (payload : String) : Except Error String := do
  return encodePretty (← decode kind.Answer payload)

end MetricCatalog
