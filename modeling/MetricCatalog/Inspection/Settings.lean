/-!
# Settings — what is inspected, and as what
-/

namespace MetricCatalog

/-- The settings of an inspection. -/
structure Settings where
  path : String := "payload.json"
  kind : String := "node"
deriving DecidableEq

namespace Settings

/-- The variable that holds the path. -/
def pathVariable : String := "DJ_PAYLOAD_PATH"

/-- The variable that holds the kind. -/
def kindVariable : String := "DJ_PAYLOAD_KIND"

/-- The settings given by the variables that hold a text. A variable that is not among them leaves its setting
as it is by default, an empty one does not. Any text is a setting, so none is refused. -/
def ofVariables (given : List (String × String)) : Settings where
  path := (given.lookup pathVariable).getD ({} : Settings).path
  kind := (given.lookup kindVariable).getD ({} : Settings).kind

end Settings

end MetricCatalog
