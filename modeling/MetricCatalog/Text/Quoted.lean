import MetricCatalog.Text.Concealed

/-!
# Quoted text — a text made visible in a message

`Text.quoted` puts a text between double quotes and spells out what a reader could not see or would
misread: quotes, backslashes and every concealed character.
-/

namespace MetricCatalog.Text

/-- How one character stands inside quotes. -/
def spelledOut (c : Char) : List Char :=
  match c with
  | '"' => ['\\', '"']
  | '\\' => ['\\', '\\']
  | '\n' => ['\\', 'n']
  | '\r' => ['\\', 'r']
  | '\t' => ['\\', 't']
  | '\x00' => ['\\', '0']
  | c =>
    if isConcealed c then ['\\', 'u', '\x7b'] ++ Nat.toDigits 16 c.toNat ++ ['\x7d'] else [c]

/-- The text between quotes, each character spelled out where it has to be. -/
def quoted (s : String) : String :=
  String.ofList ('"' :: s.toList.flatMap spelledOut ++ ['"'])

example : quoted "a\u0301 \"b\"\t\u200b" = "\"a\\u\x7b301\x7d \\\"b\\\"\\t\\u\x7b200b\x7d\"" := by
  decide +kernel

end MetricCatalog.Text
