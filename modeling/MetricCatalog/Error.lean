import MetricCatalog.Json.Refusal

/-!
# Errors — what can go wrong with a payload
-/

namespace MetricCatalog

/-- The closed sets of words that the catalog uses. -/
inductive Lexicon where
  | nodeMode
  | nodeType
  | nodeStatus
  | metricDirection
  | payloadKind
deriving DecidableEq

/-- What a word of the set names. -/
def Lexicon.noun : Lexicon → String
  | .nodeMode => "node mode"
  | .nodeType => "node type"
  | .nodeStatus => "node status"
  | .metricDirection => "metric direction"
  | .payloadKind => "payload kind"

/-- An error of this library. -/
inductive Error where
  | json (refusal : Json.Refusal)
  | unknownWord (lexicon : Lexicon) (word : String)
  | unreadable (path cause : String)

def Error.message : Error → String
  | .json refusal => "JSON error: " ++ refusal.message
  | .unknownWord lexicon word => "Unknown " ++ lexicon.noun ++ ": " ++ word
  | .unreadable path cause => "Failed to read " ++ path ++ ": " ++ cause

/-- What a message says at its end: what was found. -/
def Error.cause : Error → String
  | .json refusal => refusal.message
  | .unknownWord _ word => word
  | .unreadable _ cause => cause

end MetricCatalog
