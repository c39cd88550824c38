import MetricCatalog.Proofs.Json.Literal
import MetricCatalog.Proofs.Json.Numeral

/-!
# Documents — what a tree denotes and what is read of it

`Tree.document` gives the document that a tree denotes with room for so many open brackets, or the first
fault on the way. Reading a text that spells the tree gives the same.
-/

namespace MetricCatalog.Json

open Scan Json.Tree

namespace Tree

/-- What stands at the front of a tree, or the fault of the scalar there. -/
def head : Tree → Except Fault Head
  | .null => .ok .null
  | .boolean b => .ok (.boolean b)
  | .number n => n.numeral.number.map .number
  | .string l => (Literal.text l).map .string
  | .array _ => .ok .array
  | .object _ => .ok .object

mutual

/-- The document that a tree denotes, with room for so many arrays and objects. -/
def document (room : Nat) : Tree → Except Fault Json
  | .null => .ok .null
  | .boolean b => .ok (.boolean b)
  | .number n => n.numeral.number.map .number
  | .string l => (Literal.text l).map .string
  | .array ts =>
    match room with
    | 0 => .error (.malformed .tooDeep)
    | room + 1 => (documents room ts).map .array
  | .object ms =>
    match room with
    | 0 => .error (.malformed .tooDeep)
    | room + 1 => (memberDocuments room ms).map .object

/-- The documents of items. -/
def documents (room : Nat) : List Tree → Except Fault (List Json)
  | [] => .ok []
  | t :: ts => do
    let j ← document room t
    let js ← documents room ts
    return j :: js

/-- The documents of members under the texts of their keys. -/
def memberDocuments (room : Nat) : List (List Literal.Piece × Tree) →
    Except Fault (List (String × Json))
  | [] => .ok []
  | (k, t) :: ms => do
    let key ← Literal.text k
    let j ← document room t
    let js ← memberDocuments room ms
    return (key, j) :: js

end

/-- The document of a member under the text of its key. -/
def memberDocument (room : Nat) (m : List Literal.Piece × Tree) : Except Fault (String × Json) := do
  let key ← Literal.text m.1
  let j ← m.2.document room
  return (key, j)

theorem memberDocument_eq_map {key : String} {k : List Literal.Piece} (hk : Literal.text k = .ok key) (t : Tree)
    (room : Nat) : memberDocument room (k, t) = (t.document room).map (key, ·) := by
  rw [memberDocument, hk]
  change (t.document room >>= fun j => .ok (key, j)) = _
  cases t.document room <;> rfl

theorem documents_eq_mapM (room : Nat) (ts : List Tree) :
    documents room ts = ts.mapM (document room) := by
  induction ts with
  | nil => rfl
  | cons t ts ih =>
    rw [documents, List.mapM_cons, ih]

theorem memberDocuments_eq_mapM (room : Nat) (ms : List (List Literal.Piece × Tree)) :
    memberDocuments room ms = ms.mapM (memberDocument room) := by
  induction ms with
  | nil => rfl
  | cons m ms ih =>
    rw [memberDocuments, List.mapM_cons, ih, memberDocument]
    cases Literal.text m.1 with
    | error e => rfl
    | ok key =>
      show (m.2.document room >>= _) = (m.2.document room >>= _) >>= _
      cases m.2.document room <;> rfl

end Tree

/-! ## 1. The front of a value -/

theorem Laid.outcome_head_array {front : Bytes} {tokens : List Bytes}
    (h : Laid ([0x5B] :: tokens) front) (rest : Bytes) :
    ∃ front', outcome Scan.head (front ++ rest) = .ok (.array, 0x5B :: (front' ++ rest)) ∧
      Laid tokens front' := by
  rcases h.next rfl rest with ⟨front', hnext, hrest⟩
  refine ⟨front', ?_, hrest⟩
  unfold Scan.head
  rw [outcome_bind, hnext]
  rfl

theorem Laid.outcome_head_object {front : Bytes} {tokens : List Bytes}
    (h : Laid ([0x7B] :: tokens) front) (rest : Bytes) :
    ∃ front', outcome Scan.head (front ++ rest) = .ok (.object, 0x7B :: (front' ++ rest)) ∧
      Laid tokens front' := by
  rcases h.next rfl rest with ⟨front', hnext, hrest⟩
  refine ⟨front', ?_, hrest⟩
  unfold Scan.head
  rw [outcome_bind, hnext]
  rfl

/-- A name is read from its first letter on. -/
theorem outcome_name {α : Type} {cs : List Char} (b : UInt8) (letters : Bytes)
    (hletters : letters.map ascii = cs) (a : α) (rest : Bytes) :
    outcome (advance >>= fun _ => identifier cs >>= fun _ => pure a) (b :: (letters ++ rest)) =
      .ok (a, rest) := by
  rw [outcome_seq (outcome_advance b _), outcome_seq (outcome_identifier cs letters rest hletters)]
  rfl

/-- A minus sign or a digit is none of the characters that are asked for before. -/
theorem outcome_head_number {c : Char} (hc : c = '-' ∨ (Numeral.digit? c).isSome) {bs mid : Bytes}
    (hnext : outcome next? bs = .ok (some c, mid)) :
    outcome Scan.head bs = outcome (Number.read >>= fun n => pure (Head.number n)) mid := by
  unfold Scan.head
  rw [outcome_seq hnext]
  split
  · contradiction
  · next h => exact absurd (Option.some.inj h ▸ hc) (by decide)
  · next h => exact absurd (Option.some.inj h ▸ hc) (by decide)
  · next h => exact absurd (Option.some.inj h ▸ hc) (by decide)
  · next h => exact absurd (Option.some.inj h ▸ hc) (by decide)
  · next h => exact absurd (Option.some.inj h ▸ hc) (by decide)
  · next h => exact absurd (Option.some.inj h ▸ hc) (by decide)
  · next h =>
    cases Option.some.inj h
    rw [if_pos hc]

/-- A scalar is read whole. -/
theorem reads_head {t : Tree} (ht : t.IsScalar) : Reads Scan.head t.tokens t.head := by
  intro front rest h hrest
  cases t with
  | null =>
    rcases h.next rfl rest with ⟨front', hnext, hend⟩
    unfold Scan.head
    rw [outcome_bind, hnext, hend.nil_inv]
    exact outcome_name 0x6E [0x75, 0x6C, 0x6C] rfl Head.null rest
  | boolean b =>
    cases b with
    | true =>
      rcases h.next rfl rest with ⟨front', hnext, hend⟩
      unfold Scan.head
      rw [outcome_bind, hnext, hend.nil_inv]
      exact outcome_name 0x74 [0x72, 0x75, 0x65] rfl (Head.boolean true) rest
    | false =>
      rcases h.next rfl rest with ⟨front', hnext, hend⟩
      unfold Scan.head
      rw [outcome_bind, hnext, hend.nil_inv]
      exact outcome_name 0x66 [0x61, 0x6C, 0x73, 0x65] rfl (Head.boolean false) rest
  | number n =>
    rcases n.bytes_head with ⟨b, bs, hbytes, hblank, hb⟩
    rw [Tree.tokens, hbytes] at h
    rcases h.next hblank rest with ⟨front', hnext, hend⟩
    rw [outcome_head_number hb hnext, hend.nil_inv, List.nil_append, ← List.cons_append, ← hbytes,
      outcome_bind, Number.outcome_read n hrest]
    show _ = ((n.numeral.number.map Head.number).map (·, rest))
    cases n.numeral.number <;> rfl
  | string l =>
    rcases Laid.next (b := 0x22) h rfl rest with ⟨front', hnext, hend⟩
    unfold Scan.head
    rw [outcome_bind, hnext, hend.nil_inv]
    show outcome (Literal.read >>= fun s => pure (Head.string s)) (Literal.inside l ++ rest) = _
    rw [outcome_bind, Literal.outcome_read]
    show _ = (((Literal.text l).map Head.string).map (·, rest))
    cases Literal.text l <;> rfl
  | array ts => exact ht.elim
  | object ms => exact ht.elim

/-! ## 2. Whole documents -/

/-- A scalar is the document, whatever may stand between brackets. -/
theorem outcome_readLevel_scalar (inner : Option (Scan Json)) {t : Tree}
    (ht : t.IsScalar) (room : Nat) : Reads (readLevel inner) t.tokens (t.document room) := by
  intro front rest h hrest
  unfold readLevel
  rw [outcome_bind, reads_head ht front rest h hrest]
  cases t with
  | null => rfl
  | boolean b => rfl
  | number n =>
    show (((n.numeral.number.map Head.number).map (·, rest)) >>= _) =
      ((n.numeral.number.map Json.number).map (·, rest))
    cases n.numeral.number <;> rfl
  | string l =>
    show ((((Literal.text l).map Head.string).map (·, rest)) >>= _) =
      (((Literal.text l).map Json.string).map (·, rest))
    cases Literal.text l <;> rfl
  | array ts => exact ht.elim
  | object ms => exact ht.elim

theorem read_eq_readLevel (room : Nat) : ∃ inner, Json.read room = readLevel inner := by
  cases room with
  | zero => exact ⟨_, rfl⟩
  | succ room => exact ⟨_, rfl⟩

theorem reads_read_scalar {t : Tree} (ht : t.IsScalar) (room : Nat) :
    Reads (Json.read room) t.tokens (t.document room) := by
  rcases read_eq_readLevel room with ⟨inner, hinner⟩
  rw [hinner]
  exact outcome_readLevel_scalar inner ht room

/-- The member of an object is read, if its value is. -/
theorem readsMember_document {value : Scan Json} {room : Nat} {m : List Literal.Piece × Tree}
    (hvalue : Reads value m.2.tokens (m.2.document room)) (found : List (String × Json)) :
    ReadsMember (do
      let key ← Literal.read
      colon
      return (key, ← value) :: found) m ((· :: found) <$> memberDocument room m) := by
  intro front rest h hrest
  rcases h.outcome_colon rest with ⟨front', hcolon, h'⟩
  rw [outcome_bind, Literal.outcome_read, memberDocument]
  cases Literal.text m.1 with
  | error e => rfl
  | ok key =>
    show outcome (colon >>= _) (front ++ rest) = _
    rw [outcome_seq hcolon, outcome_bind, hvalue front' rest h' hrest]
    show _ = Except.map _ ((· :: found) <$> (m.2.document room >>= _))
    cases m.2.document room <;> rfl

/-- Arbitrary documents are read as the tree says. -/
theorem reads_read (t : Tree) (room : Nat) : Reads (Json.read room) t.tokens (t.document room) := by
  -- The room is left open, since there is less of it inside of each bracket.
  induction t generalizing room with
  | null => exact reads_read_scalar (t := .null) trivial room
  | boolean b => exact reads_read_scalar (t := .boolean b) trivial room
  | number n => exact reads_read_scalar (t := .number n) trivial room
  | string l => exact reads_read_scalar (t := .string l) trivial room
  | array ts ih =>
    intro front rest h hrest
    rw [Tree.tokens, tokensOfItems_eq_map] at h
    rcases h.outcome_head_array rest with ⟨front', hhead, h'⟩
    cases room with
    | zero =>
      rw [Json.read, readLevel, outcome_bind, hhead]
      rfl
    | succ room =>
      have hitems := outcome_items (fun t ht => ih t ht room) h' rest
      rw [Json.read, readLevel, outcome_bind, hhead]
      show outcome (items (Json.read room) >>= fun js => pure (Json.array js)) (front' ++ rest) = _
      rw [outcome_bind, hitems, Tree.document, documents_eq_mapM]
      cases ts.mapM (Tree.document room) <;> rfl
  | object ms ih =>
    intro front rest h hrest
    rw [Tree.tokens, tokensOfMembers_eq_map] at h
    rcases h.outcome_head_object rest with ⟨front', hhead, h'⟩
    cases room with
    | zero =>
      rw [Json.read, readLevel, outcome_bind, hhead]
      rfl
    | succ room =>
      have hmembers := outcome_members
        (fun found m hm => readsMember_document (ih m hm room) found) [] h' rest
      rw [Json.read, readLevel, outcome_bind, hhead]
      show outcome (members _ [] >>= fun found => pure (Json.object found.reverse)) (front' ++ rest) = _
      rw [outcome_bind, hmembers, Tree.document, memberDocuments_eq_mapM,
        List.mapM_eq_reverse_foldlM_cons]
      cases ms.foldlM (fun found m => (· :: found) <$> memberDocument room m) [] <;> rfl

end MetricCatalog.Json
