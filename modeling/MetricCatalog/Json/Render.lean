import MetricCatalog.Json.Basic

/-!
# Writing documents — one printer, two layouts

A layout says what stands before an item or a closing bracket at a given depth, and between a key and
its value. `Layout.compact` puts nothing there, `Layout.pretty` a line break with two blanks for each
level and a blank behind the colon. Empty arrays and objects stay closed in both.
-/

namespace MetricCatalog

namespace Json

/-! ## 1. String literals -/

/-- A hexadecimal digit in lower case. -/
def hexDigit (n : Nat) : Char := Nat.digitChar n

/-- How a character stands inside a string literal. -/
def escape (c : Char) : List Char :=
  match c with
  | '"' => ['\\', '"']
  | '\\' => ['\\', '\\']
  | '\x08' => ['\\', 'b']
  | '\x0c' => ['\\', 'f']
  | '\n' => ['\\', 'n']
  | '\r' => ['\\', 'r']
  | '\t' => ['\\', 't']
  | c =>
    if c.toNat < 0x20 then ['\\', 'u', '0', '0', hexDigit (c.toNat / 16), hexDigit (c.toNat % 16)]
    else [c]

/-- A text as a string literal. -/
def literal (s : String) : List Char := '"' :: (s.toList.flatMap escape ++ ['"'])

/-! ## 2. Layouts -/

/-- The blanks between the tokens of a document. -/
structure Layout where
  /-- What stands before an item, a member or a closing bracket at a depth. -/
  lineBreak : Nat → List Char
  /-- What stands between a key and its value. -/
  colon : List Char

/-- No blanks at all. -/
def Layout.compact : Layout where
  lineBreak _ := []
  colon := [':']

/-- A line for each item, member and closing bracket, indented by two blanks a level. -/
def Layout.pretty : Layout where
  lineBreak depth := '\n' :: List.replicate (2 * depth) ' '
  colon := [':', ' ']

namespace Layout

variable (l : Layout)

/-- Pieces between brackets: each on a line one level deeper, commas between them. -/
def enclose (depth : Nat) (opening closing : Char) : List (List Char) → List Char
  | [] => [opening, closing]
  | p :: ps =>
    opening :: (l.lineBreak (depth + 1) ++ p
      ++ ps.flatMap (fun q => ',' :: (l.lineBreak (depth + 1) ++ q))
      ++ l.lineBreak depth ++ [closing])

/-! ## 3. Documents -/

mutual

/-- A document at a depth. -/
def render (depth : Nat) : Json → List Char
  | .null => ['n', 'u', 'l', 'l']
  | .boolean true => ['t', 'r', 'u', 'e']
  | .boolean false => ['f', 'a', 'l', 's', 'e']
  | .number n => n.render
  | .string s => literal s
  | .array items => l.enclose depth '[' ']' (renderItems (depth + 1) items)
  | .object members => l.enclose depth '{' '}' (renderMembers (depth + 1) members)

/-- Each item at a depth. -/
def renderItems (depth : Nat) : List Json → List (List Char)
  | [] => []
  | x :: xs => render depth x :: renderItems depth xs

/-- Each member at a depth. -/
def renderMembers (depth : Nat) : List (String × Json) → List (List Char)
  | [] => []
  | (k, v) :: rest => (literal k ++ l.colon ++ render depth v) :: renderMembers depth rest

end

theorem renderItems_eq_map (depth : Nat) (js : List Json) : l.renderItems depth js = js.map (l.render depth) := by
  induction js with
  | nil => rfl
  | cons j js ih => rw [renderItems, ih, List.map_cons]

theorem renderMembers_eq_map (depth : Nat) (ms : List (String × Json)) :
    l.renderMembers depth ms = ms.map fun m => literal m.1 ++ l.colon ++ l.render depth m.2 := by
  induction ms with
  | nil => rfl
  | cons m ms ih => rw [renderMembers, ih, List.map_cons]

end Layout

/-- The document without blanks. -/
def compact (j : Json) : String := String.ofList (Layout.compact.render 0 j)

/-- The document laid out over lines. -/
def pretty (j : Json) : String := String.ofList (Layout.pretty.render 0 j)

example : compact (.object [("a", .array [.null, .boolean true]), ("b", .object [])]) =
    "\x7b\"a\":[null,true],\"b\":\x7b\x7d\x7d" := by decide +kernel

end Json

end MetricCatalog
