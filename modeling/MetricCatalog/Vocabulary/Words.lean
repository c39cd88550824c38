import MetricCatalog.Vocabulary.Basic

/-!
# The words of the catalog

How far a node has come, what it is, whether it works, and which way a metric is good.
-/

namespace MetricCatalog

/-- Whether a node is still being worked on. -/
inductive NodeMode where
  | draft
  | published
deriving DecidableEq

namespace NodeMode

/-- A node is published unless it is said to be a draft. -/
instance : Inhabited NodeMode := ⟨published⟩

instance : Vocabulary NodeMode where
  lexicon := .nodeMode
  all := [draft, published]
  title
    | draft => "Draft"
    | published => "Published"
  name
    | draft => "draft"
    | published => "published"
  known := [("draft", draft), ("published", published)]
  mem_all a := by cases a <;> decide
  spell_injective {a b} := by cases a <;> cases b <;> decide +kernel

end NodeMode

/-- The kinds of nodes in the catalog's graph. -/
inductive NodeType where
  | source
  | transform
  | metric
  | dimension
  | cube
deriving DecidableEq

namespace NodeType

instance : Vocabulary NodeType where
  lexicon := .nodeType
  all := [source, transform, metric, dimension, cube]
  title
    | source => "Source"
    | transform => "Transform"
    | metric => "Metric"
    | dimension => "Dimension"
    | cube => "Cube"
  name
    | source => "source"
    | transform => "transform"
    | metric => "metric"
    | dimension => "dimension"
    | cube => "cube"
  known :=
    [("source", source), ("transform", transform), ("metric", metric), ("dimension", dimension),
      ("cube", cube)]
  mem_all a := by cases a <;> decide
  spell_injective {a b} := by cases a <;> cases b <;> decide +kernel

end NodeType

/-- Whether a node can be used. -/
inductive NodeStatus where
  | valid
  | invalid
deriving DecidableEq

namespace NodeStatus

instance : Vocabulary NodeStatus where
  lexicon := .nodeStatus
  all := [valid, invalid]
  title
    | valid => "Valid"
    | invalid => "Invalid"
  name
    | valid => "valid"
    | invalid => "invalid"
  known := [("valid", valid), ("invalid", invalid)]
  mem_all a := by cases a <;> decide
  spell_injective {a b} := by cases a <;> cases b <;> decide +kernel

end NodeStatus

/-- Which values of a metric are good ones. -/
inductive MetricDirection where
  | higherIsBetter
  | lowerIsBetter
  | neutral
deriving DecidableEq

namespace MetricDirection

instance : Vocabulary MetricDirection where
  lexicon := .metricDirection
  all := [higherIsBetter, lowerIsBetter, neutral]
  title
    | higherIsBetter => "HigherIsBetter"
    | lowerIsBetter => "LowerIsBetter"
    | neutral => "Neutral"
  name
    | higherIsBetter => "higher_is_better"
    | lowerIsBetter => "lower_is_better"
    | neutral => "neutral"
  known :=
    [("higher_is_better", higherIsBetter), ("lower_is_better", lowerIsBetter), ("neutral", neutral)]
  mem_all a := by cases a <;> decide
  spell_injective {a b} := by cases a <;> cases b <;> decide +kernel

end MetricDirection

end MetricCatalog
