import MetricCatalog.Proofs.Json.Document
import MetricCatalog.Proofs.Json.Skip
import MetricCatalog.Schema.Read
import MetricCatalog.Schema.OfJson

/-!
# Values of a shape from trees — what the reader of text does

`Shape.ofTree` takes a value of a shape out of a tree, member by member in the order of the text. It says
what `Shape.read` does on every text that spells the tree: the values are the same, and so are the faults.
Members under unknown keys play no part in it.
-/

namespace MetricCatalog

open Json Json.Scan Json.Tree

namespace Shape

variable {α : Type}

/-! ## 1. Scalars and lists -/

def headText : Head → Except Fault String
  | .string s => .ok s
  | found => .error (.mismatch (.wrongType found .string))

def headTruth : Head → Except Fault Bool
  | .boolean b => .ok b
  | found => .error (.mismatch (.wrongType found .boolean))

def headInteger (width : Width) : Head → Except Fault width.Integer
  | .number (.int i) =>
    match IntBetween.ofInt? width.lo width.hi i.val with
    | some n => .ok n
    | none => .error (.mismatch (.integerRange i.val width))
  | found => .error (.mismatch (.wrongType found (.integer width)))

def headNull : Head → Except Fault Unit
  | .null => .ok ()
  | found => .error (.mismatch (.wrongType found .null))

/-- Refuses a tree for its type, or for the fault of the scalar that stands there. -/
def wrongTree (t : Tree) (wanted : Wanted) : Except Fault α := do
  let found ← t.head
  .error (.mismatch (.wrongType found wanted))

/-- Goes one bracket deeper, if there is room for it. -/
def within (room : Nat) (body : Nat → Except Fault α) : Except Fault α :=
  match room with
  | 0 => .error (.malformed .tooDeep)
  | room + 1 => body room

/-- A word of a vocabulary, from a string or from an object with the word as its only key and null under it. -/
def wordOfTree (α : Type) [Vocabulary α] (room : Nat) : Tree → Except Fault α
  | .string l => do spellingOf α (← Literal.text l)
  | .object ms => within room fun _ =>
    match ms with
    | [] => .error (.malformed .valueWanted)
    | m :: more => do
      let a ← spellingOf α (← Literal.text m.1)
      headNull (← m.2.head)
      if more.isEmpty then .ok a else .error (.malformed .valueWanted)
  | _ => .error (.malformed .valueWanted)

def listOfTree (room : Nat) (item : Nat → Tree → Except Fault α) : Tree → Except Fault (List α)
  | .array ts => within room fun room => ts.mapM (item room)
  | t => wrongTree t .array

def orNullOfTree (value : Tree → Except Fault α) : Tree → Except Fault (Option α)
  | .null => .ok none
  | t => do return some (← value t)

end Shape

/-! ## 2. Records -/

open Shape

mutual

/-- Takes a value of a shape from a tree, with room for so many arrays and objects. -/
def Shape.ofTree (room : Nat) : (s : Shape) → Tree → Except Fault s.Value
  | .text, t => do headText (← t.head)
  | .truth, t => do headTruth (← t.head)
  | .integer width, t => do headInteger width (← t.head)
  | @Shape.word α _, t => wordOfTree α room t
  | .json, t => do return (← t.document room).canonicalize
  | .list item, t => listOfTree room (fun room => item.ofTree room) t
  | .record name fields, t =>
    match t with
    | .object ms => within room fun room => do
      let found ← ms.foldlM (fun found m => do fields.putTree room (← Literal.text m.1) m.2 found)
        fields.unfilled
      match fields.finish found with
      | .ok values => .ok values
      | .error key => .error (.mismatch (.missingKey key))
    | .array ts => within room fun room => fields.ofTrees name fields.size room ts 0
    | t => wrongTree t (.record name)
  | .wrapped key item, t =>
    match t with
    | .object ms => within room fun room => do
      let found ← ms.foldlM (fun found m => do
        if (← Literal.text m.1) = key then
          takeUnder key found (orNullOfTree (listOfTree room fun room => item.ofTree room) m.2)
        else return found) none
      return found.getD none
    | .array ts => within room fun room => do return some (← ts.mapM (item.ofTree room))
    | t => wrongTree t (.listOrObject key)

/-- Takes a value of a field from a tree. -/
def Field.ofTree (room : Nat) : (f : Field) → Tree → Except Fault f.Value
  | .required shape, t => shape.ofTree room t
  | .nullable shape, t => orNullOfTree (shape.ofTree room) t
  | .optional shape, t => orNullOfTree (shape.ofTree room) t
  | .sparse shape, t => orNullOfTree (shape.ofTree room) t
  | .flag, t => do return (← orNullOfTree (fun t => do headTruth (← t.head)) t).getD false
  | .listing item, t => listOfTree room (fun room => item.ofTree room) t

/-- Puts the value of a member into its place; a member under another key leaves everything as it is. -/
def Fields.putTree (room : Nat) : (fs : Fields) → String → Tree → fs.Filling → Except Fault fs.Filling
  | .nil, _, _, _ => .ok ()
  | .cons key field rest, k, t, (found, more) =>
    if k = key then do return (← takeUnder key found (field.ofTree room t), more)
    else do return (found, ← rest.putTree room k t more)

/-- Takes the values of a record from the items of an array, from the field at `index` on. -/
def Fields.ofTrees (name : String) (size room : Nat) :
    (fs : Fields) → List Tree → (index : Nat) → Except Fault fs.Values
  | .nil, [], _ => .ok ()
  | .nil, _ :: _, _ => .error (.malformed .trailingCharacters)
  | .cons _ field rest, t :: ts, index => do
    let v ← field.ofTree room t
    return (v, ← rest.ofTrees name size room ts (index + 1))
  | .cons key field rest, [], index =>
    match Fields.cutOff (.cons key field rest) index with
    | .ok values => .ok values
    | .error missing => .error (.mismatch (.tooFewItems missing name size))

end

/-- Reads a member of an object of which only one key counts, from behind the quote that opens its key. -/
def readMember {α : Type} (key : String) (value : Scan α) (found : Option α) : Scan (Option α) := do
  if (← Literal.read) = key then readUnder key found value
  else do
    passOver
    return found

/-- Takes a member of an object of which only one key counts. -/
def takeMember {α : Type} (key : String) (value : Tree → Except Fault α) (found : Option α)
    (m : List Literal.Piece × Tree) : Except Fault (Option α) := do
  if (← Literal.text m.1) = key then takeUnder key found (value m.2)
  else return found

/-- Nothing is taken under a key a second time. -/
theorem takeUnder_eq_ok {α : Type} {key : String} {found : Option α} {value : Except Fault α}
    {found' : Option α} (h : takeUnder key found value = .ok found') : found = none := by
  cases found with
  | none => rfl
  | some a => cases h

theorem ok_of_takeUnder {α : Type} {key : String} {found found' : Option α}
    {value : Except Fault α} (h : takeUnder key found value = .ok found') : ∃ a, value = .ok a := by
  obtain rfl := takeUnder_eq_ok h
  obtain ⟨a, ha, -⟩ := ok_of_bind h
  exact ⟨a, ha⟩

theorem Fields.putTree_self {key : String} {field : Field} {rest : Fields} (room : Nat) (t : Tree)
    (found : Option field.Value) (more : rest.Filling) :
    (Fields.cons key field rest).putTree room key t (found, more) =
      (takeUnder key found (field.ofTree room t)).map (·, more) :=
  if_pos rfl

theorem Fields.putTree_other {key k : String} {field : Field} {rest : Fields} (hk : k ≠ key)
    (room : Nat) (t : Tree) (found : Option field.Value) (more : rest.Filling) :
    (Fields.cons key field rest).putTree room k t (found, more) =
      (rest.putTree room k t more).map (found, ·) :=
  if_neg hk

end MetricCatalog
