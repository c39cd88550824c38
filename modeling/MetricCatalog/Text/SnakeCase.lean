/-!
# Snake case — a title as one word

`Text.snakeCase` makes one word of a title whose words are told by their capital letters: it puts an
underscore before each of them but the first, and writes them all small. Titles are in ASCII.
-/

namespace MetricCatalog.Text

/-- A title behind its first letter, as part of a word. -/
def snakeCaseTail (cs : List Char) : List Char :=
  cs.flatMap fun c => if c.isUpper then ['_', c.toLower] else [c.toLower]

/-- A title as one word. -/
def snakeCase (title : String) : String :=
  match title.toList with
  | [] => ""
  | c :: cs => String.ofList (c.toLower :: snakeCaseTail cs)

example : snakeCase "HigherIsBetter" = "higher_is_better" := by decide +kernel

end MetricCatalog.Text
