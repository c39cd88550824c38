import MetricCatalog.Json.Skip

/-!
# Trees — the grammar of JSON texts

A `Tree` is a well-formed JSON document as it is spelled: the pieces of its string literals, the digits
of its numbers, and the members of its objects in the order of the text. All that it leaves open are the
blanks between its tokens, so `Tree.Spells` relates a tree to every text that lays these tokens out.

A tree need not denote a document. Its literals may hold halves of surrogate pairs or bytes that are not
UTF-8, its numbers may be beyond every double, and its brackets may nest to any depth.
-/

namespace MetricCatalog.Json

/-! ## 1. String literals -/

namespace Literal

/-- A piece of a string literal. -/
inductive Piece where
  /-- A byte that stands for itself. -/
  | plain (b : UInt8) (isPlain : isControl b = false ∧ ascii b ≠ '"' ∧ ascii b ≠ '\\')
  /-- An escape of one letter. -/
  | letter (b : UInt8) (isKnown : (letter? (ascii b)).isSome)
  /-- A numeric escape, by its four hexadecimal digits. -/
  | code (a b c d : UInt8) (isHex : (hex? a b c d).isSome)

def Piece.bytes : Piece → Bytes
  | .plain b _ => [b]
  | .letter b _ => [0x5C, b]
  | .code a b c d _ => [0x5C, 0x75, a, b, c, d]

/-- A literal behind its opening quote. -/
def inside (ps : List Piece) : Bytes := ps.flatMap Piece.bytes ++ [0x22]

/-- A whole literal, from quote to quote. -/
def bytes (ps : List Piece) : Bytes := 0x22 :: inside ps

/-- The code point that a surrogate pair denotes. -/
def pairValue (n m : Nat) : Nat := (n - 0xD800) * 0x400 + (m - 0xDC00) + 0x10000

/-- The bytes that pieces denote. -/
def denoted : List Piece → Except Fault Bytes
  | [] => .ok []
  | .plain b _ :: ps => (denoted ps).map (b :: ·)
  | .letter b h :: ps => (denoted ps).map ((letter? (ascii b)).get h :: ·)
  | .code a b c d h :: ps =>
    let n := (hex? a b c d).get h
    if isTrailing n then .error (.malformed .loneSurrogate)
    else if isLeading n then
      match ps with
      | .code a' b' c' d' h' :: ps =>
        let m := (hex? a' b' c' d').get h'
        if isTrailing m then
          (denoted ps).map (String.utf8EncodeChar (Char.ofNat (pairValue n m)) ++ ·)
        else .error (.malformed .loneSurrogate)
      | _ => .error (.malformed .unfinishedSurrogatePair)
    else (denoted ps).map (String.utf8EncodeChar (Char.ofNat n) ++ ·)

/-- The text that a literal denotes, unless it denotes none. -/
def text (ps : List Piece) : Except Fault String := do
  match Utf8.decode (← denoted ps) with
  | (s, []) => .ok (String.ofList s)
  | _ => .error (.malformed .codePoint)

end Literal

/-! ## 2. Numerals -/

/-- The byte of a decimal digit. -/
def digitByte (d : Nat) : UInt8 := UInt8.ofNat (0x30 + d)

namespace Numeral

/-- The digits behind an exponent mark; none if there is no exponent. -/
def exponentDigits (n : Numeral) : List Nat := (n.exponent.map (·.digits)).getD []

/-- The numerals of the grammar. -/
structure WellFormed (n : Numeral) : Prop where
  digits_lt : ∀ d ∈ n.whole ++ n.fraction ++ n.exponentDigits, d < 10
  whole : n.whole = [0] ∨ ∃ d ds, n.whole = d :: ds ∧ d ≠ 0
  exponent : ∀ e ∈ n.exponent, e.digits ≠ []

/-- What may stand before the digits of an exponent. -/
def marks : Option Exponent → List Bytes
  | none => [[]]
  | some ⟨true, _⟩ => [[0x65, 0x2D], [0x45, 0x2D]]
  | some ⟨false, _⟩ => [[0x65], [0x45], [0x65, 0x2B], [0x45, 0x2B]]

/-- A numeral with the mark of its exponent, which its value does not tell. -/
structure Token where
  numeral : Numeral
  wellFormed : numeral.WellFormed
  mark : Bytes
  isMark : mark ∈ marks numeral.exponent

def signBytes (n : Numeral) : Bytes := if n.negative then [0x2D] else []

def pointBytes (n : Numeral) : Bytes := if n.fraction = [] then [] else 0x2E :: n.fraction.map digitByte

def Token.bytes (t : Token) : Bytes :=
  t.numeral.signBytes ++ t.numeral.whole.map digitByte ++ t.numeral.pointBytes ++ t.mark ++
    t.numeral.exponentDigits.map digitByte

/-- The number that a numeral writes, unless it is beyond every finite double. -/
def number (n : Numeral) : Except Fault Number :=
  match n.value? with
  | some x => .ok x
  | none => .error (.malformed .numberRange)

end Numeral

/-! ## 3. Trees -/

/-- A JSON document as it is spelled, but for the blanks. -/
inductive Tree where
  | null
  | boolean (b : Bool)
  | number (n : Numeral.Token)
  | string (l : List Literal.Piece)
  | array (items : List Tree)
  | object (members : List (List Literal.Piece × Tree))

namespace Tree

/-- The tokens behind the first of some pieces: a comma before each further one, and the closing bracket. -/
def continued (closing : UInt8) (ps : List (List Bytes)) : List Bytes :=
  ps.flatMap ([0x2C] :: ·) ++ [[closing]]

/-- The tokens behind an opening bracket. -/
def listed (closing : UInt8) : List (List Bytes) → List Bytes
  | [] => [[closing]]
  | p :: ps => p ++ continued closing ps

mutual

/-- The tokens of a tree, each as its bytes. -/
def tokens : Tree → List Bytes
  | .null => [[0x6E, 0x75, 0x6C, 0x6C]]
  | .boolean true => [[0x74, 0x72, 0x75, 0x65]]
  | .boolean false => [[0x66, 0x61, 0x6C, 0x73, 0x65]]
  | .number n => [n.bytes]
  | .string l => [Literal.bytes l]
  | .array ts => [0x5B] :: listed 0x5D (tokensOfItems ts)
  | .object ms => [0x7B] :: listed 0x7D (tokensOfMembers ms)

/-- The tokens of each item. -/
def tokensOfItems : List Tree → List (List Bytes)
  | [] => []
  | t :: ts => tokens t :: tokensOfItems ts

/-- The tokens of each member. -/
def tokensOfMembers : List (List Literal.Piece × Tree) → List (List Bytes)
  | [] => []
  | (k, t) :: ms => (Literal.bytes k :: [0x3A] :: tokens t) :: tokensOfMembers ms

end

/-- The tokens of a member: its key, a colon, and those of its value. -/
def memberTokens (m : List Literal.Piece × Tree) : List Bytes :=
  Literal.bytes m.1 :: [0x3A] :: m.2.tokens

theorem tokensOfItems_eq_map (ts : List Tree) : tokensOfItems ts = ts.map tokens := by
  induction ts with
  | nil => rfl
  | cons t ts ih => rw [tokensOfItems, ih, List.map_cons]

theorem tokensOfMembers_eq_map (ms : List (List Literal.Piece × Tree)) :
    tokensOfMembers ms = ms.map memberTokens := by
  induction ms with
  | nil => rfl
  | cons m ms ih => rw [tokensOfMembers, ih, List.map_cons, memberTokens]

/-- A tree without brackets. -/
def IsScalar : Tree → Prop
  | .array _ => False
  | .object _ => False
  | _ => True

/-- Induction that reaches the items and the members' values. -/
@[elab_as_elim, induction_eliminator]
theorem induct {P : Tree → Prop} (null : P .null) (boolean : ∀ b, P (.boolean b))
    (number : ∀ n, P (.number n)) (string : ∀ l, P (.string l))
    (array : ∀ ts, (∀ t ∈ ts, P t) → P (.array ts))
    (object : ∀ ms, (∀ m ∈ ms, P m.2) → P (.object ms)) (t : Tree) : P t := by
  refine @Tree.rec P (fun ts => ∀ t ∈ ts, P t) (fun ms => ∀ m ∈ ms, P m.2) (fun m => P m.2)
    null boolean number string array object ?_ ?_ ?_ ?_ ?_ t
  · intro t ht
    cases ht
  · intro t ts ht hts
    exact List.forall_mem_cons.2 ⟨ht, hts⟩
  · intro m hm
    cases hm
  · intro m ms hm hms
    exact List.forall_mem_cons.2 ⟨hm, hms⟩
  · intro k t ht
    exact ht

end Tree

/-! ## 4. Texts -/

/-- The bytes are nothing but blanks. -/
def Blank (bs : Bytes) : Prop := ∀ b ∈ bs, isBlank b = true

/-- The bytes are these tokens with blanks before some of them. -/
inductive Laid : List Bytes → Bytes → Prop where
  | nil : Laid [] []
  | cons {gap token front : Bytes} {tokens : List Bytes} (blank : Blank gap)
      (rest : Laid tokens front) :
      Laid (token :: tokens) (gap ++ (token ++ front))

/-- The text is a spelling of the tree, with blanks between its tokens and around it. -/
def Tree.Spells (t : Tree) (text : Bytes) : Prop :=
  ∃ front trail, text = front ++ trail ∧ Laid t.tokens front ∧ Blank trail

theorem Laid.nil_inv {front : Bytes} (h : Laid [] front) : front = [] := by
  cases h
  rfl

theorem Laid.cons_inv {token : Bytes} {tokens : List Bytes} {front : Bytes}
    (h : Laid (token :: tokens) front) :
    ∃ gap front', front = gap ++ (token ++ front') ∧ Blank gap ∧ Laid tokens front' := by
  cases h with
  | cons blank rest => exact ⟨_, _, rfl, blank, rest⟩

theorem blank_nil : Blank [] := by
  intro b hb
  cases hb

/-- Tokens laid out without any blanks. -/
theorem laid_flatten (tokens : List Bytes) : Laid tokens tokens.flatten := by
  induction tokens with
  | nil => exact .nil
  | cons t ts ih => exact .cons blank_nil ih

theorem Tree.spells_of_flatten {t : Tree} {text : Bytes} (h : text = t.tokens.flatten) : t.Spells text :=
  ⟨text, [], (List.append_nil text).symm, h ▸ laid_flatten t.tokens, blank_nil⟩

theorem Laid.append {ts us : List Bytes} {front front' : Bytes} (h : Laid ts front)
    (h' : Laid us front') :
    Laid (ts ++ us) (front ++ front') := by
  induction h with
  | nil => exact h'
  | cons blank _ ih =>
    rw [List.append_assoc, List.append_assoc]
    exact .cons blank ih

theorem Laid.append_inv {a b : List Bytes} {front : Bytes} (h : Laid (a ++ b) front) :
    ∃ x y, front = x ++ y ∧ Laid a x ∧ Laid b y := by
  induction a generalizing front with
  | nil => exact ⟨[], front, rfl, .nil, h⟩
  | cons t a ih =>
    rcases h.cons_inv with ⟨gap, front', rfl, hgap, hrest⟩
    rcases ih hrest with ⟨x, y, rfl, hx, hy⟩
    exact ⟨gap ++ (t ++ x), y, by simp only [List.append_assoc], .cons hgap hx, hy⟩

end MetricCatalog.Json
