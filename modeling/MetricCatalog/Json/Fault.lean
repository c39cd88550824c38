import MetricCatalog.Json.Number
import MetricCatalog.Text.Quoted

/-!
# Faults — why a document is refused

A fault belongs to one of three categories: the text ends too early, it is not JSON, or it is JSON
that does not fit the record asked for. `Fault.message` words each of them.
-/

namespace MetricCatalog.Json

/-- What stands at the front of a value: a scalar, or the bracket that opens an array or object. -/
inductive Head where
  | null
  | boolean (b : Bool)
  | number (n : Number)
  | string (s : String)
  | array
  | object

/-- The width of a bounded integer. -/
inductive Width where
  | bits32
  | bits64
deriving DecidableEq

/-- The least integer of a width. -/
def Width.lo : Width → Int
  | .bits32 => -0x80000000
  | .bits64 => -0x8000000000000000

/-- The bound above all integers of a width. -/
def Width.hi : Width → Int
  | .bits32 => 0x80000000
  | .bits64 => 0x8000000000000000

/-- What a place in a document asks for. -/
inductive Wanted where
  | string
  | boolean
  | integer (width : Width)
  | array
  | null
  | record (name : String)
  /-- A list of things, or an object that holds it under the key that names them. -/
  | listOrObject (key : String)
  | wordOrObject
deriving DecidableEq

/-- Where the text ended. -/
inductive Unfinished where
  | value
  | array
  | object
  | string
deriving DecidableEq

/-- How a text fails to be JSON, or goes beyond what is read of it. -/
inductive Malformed where
  | valueWanted
  | identifierWanted
  | colonWanted
  | commaOrBracketWanted
  | commaOrBraceWanted
  | trailingComma
  | trailingCharacters
  | keyNotString
  | escape
  | controlCharacter
  | loneSurrogate
  | unfinishedSurrogatePair
  | codePoint
  | number
  | numberRange
  | tooDeep
deriving DecidableEq

/-- How a well-formed value fails to be the one asked for. -/
inductive Mismatch where
  | wrongType (found : Head) (wanted : Wanted)
  | integerRange (value : Int) (width : Width)
  | missingKey (key : String)
  | repeatedKey (key : String)
  | tooFewItems (count : Nat) (record : String) (size : Nat)
  | tooManyItems (count : Nat)
  | unknownWord (word : String) (known : List String)
  | notSingleMember

/-- Why a document is refused. -/
inductive Fault where
  | unfinished (what : Unfinished)
  | malformed (how : Malformed)
  | mismatch (how : Mismatch)

/-- The three kinds of faults. -/
inductive Category where
  | unfinished
  | malformed
  | mismatch
deriving DecidableEq

def Fault.category : Fault → Category
  | .unfinished _ => .unfinished
  | .malformed _ => .malformed
  | .mismatch _ => .mismatch

/-! ## Wording -/

/-- A word between backticks. -/
def ticked (s : String) : String := "`" ++ s ++ "`"

def Head.describe : Head → String
  | .null => "null"
  | .boolean b => "boolean " ++ ticked (if b then "true" else "false")
  | .number (.int i) => "integer " ++ ticked (String.ofList (renderInt i.val))
  | .number (.float x) => "floating point " ++ ticked (String.ofList (Decimal.renderFloat x))
  | .string s => "string " ++ Text.quoted s
  | .array => "sequence"
  | .object => "map"

def Width.describe : Width → String
  | .bits32 => "i32"
  | .bits64 => "i64"

def Wanted.describe : Wanted → String
  | .string => "a string"
  | .boolean => "a boolean"
  | .integer width => width.describe
  | .array => "a sequence"
  | .null => "unit"
  | .record name => "struct " ++ name
  | .listOrObject key => "a list of " ++ key ++ " or an object with a " ++ ticked key ++ " key"
  | .wordOrObject => "string or map"

def Unfinished.message : Unfinished → String
  | .value => "EOF while parsing a value"
  | .array => "EOF while parsing a list"
  | .object => "EOF while parsing an object"
  | .string => "EOF while parsing a string"

def Malformed.message : Malformed → String
  | .valueWanted => "expected value"
  | .identifierWanted => "expected ident"
  | .colonWanted => "expected `:`"
  | .commaOrBracketWanted => "expected `,` or `]`"
  | .commaOrBraceWanted => "expected `,` or `\x7d`"
  | .trailingComma => "trailing comma"
  | .trailingCharacters => "trailing characters"
  | .keyNotString => "key must be a string"
  | .escape => "invalid escape"
  | .controlCharacter => "control character (\\u0000-\\u001F) found while parsing a string"
  | .loneSurrogate => "lone leading surrogate in hex escape"
  | .unfinishedSurrogatePair => "unexpected end of hex escape"
  | .codePoint => "invalid unicode code point"
  | .number => "invalid number"
  | .numberRange => "number out of range"
  | .tooDeep => "recursion limit exceeded"

/-- The known words as alternatives. -/
def alternatives : List String → String
  | [] => "there are no variants"
  | [a] => "expected " ++ ticked a
  | [a, b] => "expected " ++ ticked a ++ " or " ++ ticked b
  | words => "expected one of " ++ ", ".intercalate (words.map ticked)

def Mismatch.message : Mismatch → String
  | .wrongType found wanted => "invalid type: " ++ found.describe ++ ", expected " ++ wanted.describe
  | .integerRange value width =>
    "invalid value: integer " ++ ticked (String.ofList (renderInt value)) ++ ", expected " ++ width.describe
  | .missingKey key => "missing field " ++ ticked key
  | .repeatedKey key => "duplicate field " ++ ticked key
  | .tooFewItems count record size =>
    "invalid length " ++ toString count ++ ", expected struct " ++ record ++ " with " ++ toString size
      ++ (if size = 1 then " element" else " elements")
  | .tooManyItems count => "invalid length " ++ toString count ++ ", expected fewer elements in array"
  | .unknownWord word known => "unknown variant " ++ ticked word ++ ", " ++ alternatives known
  | .notSingleMember => "invalid value: map, expected map with a single key"

def Fault.message : Fault → String
  | .unfinished what => what.message
  | .malformed how => how.message
  | .mismatch how => how.message

end MetricCatalog.Json
