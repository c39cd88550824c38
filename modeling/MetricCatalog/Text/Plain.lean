/-!
# Plain text — text without terminal controls

`Text.plain` drops what a terminal would act upon instead of showing it: control characters, and the
sequences that an escape character opens. White control characters stay, for they lay out the text.

A white control character inside a sequence is shown, too, and so is what follows it up to the next
control character; the sequence then goes on where it was. A line break therefore does not hide the
rest of the text, unless it stands in a string addressed to the terminal, where nothing is shown.
-/

namespace MetricCatalog.Text

/-- Where in a control sequence the text is. -/
inductive Sequence where
  | outside
  /-- Behind the escape character. -/
  | escape
  /-- In an escape sequence that one more character ends. -/
  | escapeTail
  /-- In a sequence with parameters, which a letter ends. -/
  | parameters
  /-- Before the parameters of a string for the terminal's device. -/
  | deviceEntry
  /-- In those parameters, which a letter ends. -/
  | deviceParameters
  /-- Behind those parameters. -/
  | deviceTail
  /-- In a string that a terminator ends. -/
  | string
  /-- In a command for the terminal, which a bell ends. -/
  | command
deriving DecidableEq

/-- Control characters that lay out text. -/
def isWhiteControl (c : Char) : Bool := c = '\t' || c = '\n' || c = '\x0c' || c = '\r'

/-- Control characters, all of them. -/
def isControl (c : Char) : Bool := c < ' ' || c = '\x7f'

/-- Whether a character ends a string for the terminal: one whose UTF-8 has the byte of the terminator. -/
def isTerminator (c : Char) : Bool := (String.utf8EncodeChar c).contains 0x9C

namespace Sequence

/-- Whether a character is shown. -/
def shows : Sequence → Char → Bool
  | outside, c => !isControl c || isWhiteControl c
  | escape, c => isWhiteControl c
  | escapeTail, c => isWhiteControl c
  | parameters, c => isWhiteControl c
  | deviceEntry, _ => false
  | deviceParameters, _ => false
  | deviceTail, _ => false
  | string, _ => false
  | command, _ => false

/-- Where a character leads. Escape opens a sequence anywhere, and two control characters end any. -/
def next (s : Sequence) (c : Char) : Sequence :=
  if c = '\x1b' then escape
  else if c = '\x18' ∨ c = '\x1a' then outside
  else match s with
    | outside => outside
    | escape =>
      if ' ' ≤ c ∧ c < '0' then escapeTail
      else if c = '[' then parameters
      else if c = ']' then command
      else if c = 'P' then deviceEntry
      else if c = 'X' ∨ c = '^' ∨ c = '_' then string
      else if '0' ≤ c ∧ c ≤ '~' then outside
      else escape
    | escapeTail => if '0' ≤ c ∧ c ≤ '~' then outside else escapeTail
    | parameters => if '@' ≤ c ∧ c ≤ '~' then outside else parameters
    | deviceEntry =>
      if ' ' ≤ c ∧ c < '0' then deviceTail
      else if '0' ≤ c ∧ c ≤ '?' then deviceParameters
      else if '@' ≤ c ∧ c ≤ '~' then string
      else deviceEntry
    | deviceParameters =>
      if ' ' ≤ c ∧ c < '0' then deviceTail
      else if '<' ≤ c ∧ c ≤ '~' then string
      else deviceParameters
    | deviceTail => if '0' ≤ c ∧ c ≤ '~' then string else deviceTail
    | string => if isTerminator c then outside else string
    | command => if c = '\x07' then outside else command

end Sequence

/-- What is shown of a text that starts in a sequence, either suspended or not. A character beyond ASCII
ends a suspended sequence. -/
def plainFrom (s : Sequence) (suspended : Bool) : List Char → List Char
  | [] => []
  | c :: rest =>
    if suspended ∧ Sequence.outside.shows c then
      c :: plainFrom (if c ≤ '~' then s else .outside) true rest
    else if s.shows c then c :: plainFrom (s.next c) true rest
    else plainFrom (s.next c) false rest

/-- The text as it is shown where no terminal acts upon it. -/
def plain (s : String) : String := String.ofList (plainFrom .outside false s.toList)

example : plain "a\x1b[1;31mb\x1b[0m\x07c\n" = "abc\n" := by decide +kernel

example : plain "a\x1b[31\nmb\x01mc" = "a\nmbc" := by decide +kernel

example : plain "a\x1b]0;title\n" = "a" := by decide +kernel

end MetricCatalog.Text
