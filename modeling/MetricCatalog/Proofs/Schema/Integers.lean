import MetricCatalog.Proofs.Json.Integers
import MetricCatalog.Proofs.Schema.Places
import MetricCatalog.Proofs.Schema.RoundTrip

/-!
# Integers in records — kept exactly or not at all

A field of 32 or 64 bits takes the numerals of the integers within its bounds and no others. An arbitrary document
takes other numerals too, but keeps as integers only those of 64 bits. What is kept as an integer is written
back in the digits that it was read from.
-/

namespace MetricCatalog

open Json Json.Scan Json.Tree Shape

/-! ## 1. Numerals of integers -/

/-- A field of integers takes what writes one within its bounds. -/
theorem Shape.ofTree_integer {width : Width} {room : Nat} {token : Numeral.Token} {n : width.Integer} :
    (Shape.integer width).ofTree room (.number token) = .ok n ↔
      token.numeral.IsInteger ∧ n.val = token.numeral.int := by
  constructor
  · intro h
    obtain ⟨found, hfound, hn⟩ := ok_of_bind h
    obtain ⟨number, hnumber, rfl⟩ := ok_of_map hfound
    cases number with
    | float x => cases hn
    | int i =>
      obtain ⟨hint, hval⟩ := Numeral.number_eq_int.1 hnumber
      rw [headInteger] at hn
      cases hin : IntBetween.ofInt? width.lo width.hi i.val with
      | none =>
        rw [hin] at hn
        cases hn
      | some m =>
        rw [hin] at hn
        cases hn
        rw [IntBetween.ofInt?_eq_some_iff] at hin
        exact ⟨hint, hin.trans hval.symm⟩
  · rintro ⟨hint, hval⟩
    have hnumber : token.numeral.number = .ok (.int (width.toInteger n)) :=
      Numeral.number_eq_int.2 ⟨hint, by rw [width.val_toInteger, hval]⟩
    change (token.numeral.number.map Head.number >>= headInteger width) = .ok n
    rw [hnumber]
    change headInteger width (.number (.int (width.toInteger n))) = .ok n
    rw [headInteger, width.val_toInteger, IntBetween.ofInt?_val]

/-- The text of a document writes an integer in the digits of each numeral that writes it. -/
theorem Json.exists_token_at {j : Json} {path : List Step} {i : Json.Integer}
    (hat : j.at? path = some (.number (.int i))) {token : Numeral.Token} (hint : token.numeral.IsInteger)
    (hi : i.val = token.numeral.int) :
    ∃ t : Tree, t.Spells (Utf8.encode j.compact.toList) ∧ t.at? path = some (.number token) := by
  have hlaid : ∀ depth, Laid (Tree.number token).tokens
      (Utf8.encode (Layout.compact.render depth (.number (.int i)))) := by
    intro depth
    change Laid [token.bytes] (Utf8.encode (renderInt i.val))
    rw [hi, ← Numeral.Token.bytes_eq hint]
    exact laid_single blank_nil _
  obtain ⟨t, ht, hpath⟩ := exists_tree_at Layout.isBlank_compact hat hlaid 0
  refine ⟨t, ⟨_, [], ?_, ht, blank_nil⟩, hpath⟩
  rw [Json.compact, String.toList_ofList, List.append_nil]

/-- A document in the place of which a numeral stands has its number there. -/
theorem Json.Tree.Within.number_at {path : List Step} {fill : Tree → Tree} (h : Within path fill)
    {token : Numeral.Token} {room : Nat} {doc : CanonicalJson}
    (hdoc : Shape.json.ofTree room (fill (.number token)) = .ok doc) :
    ∃ number, token.numeral.number = .ok number ∧ doc.toJson.at? path = some (.number number) := by
  obtain ⟨j, hj, hcanonical⟩ := ok_of_bind hdoc
  cases hcanonical
  obtain ⟨less, part, hpart, hat⟩ := h.at?_document hj
  obtain ⟨number, hnumber, rfl⟩ := ok_of_map hpart
  exact ⟨number, hnumber, hat⟩

/-! ## 2. What is kept in the end -/

namespace PayloadType

variable {T : PayloadType} {path : List Step} {fill : Tree → Tree} {bytes : Bytes}

/-- What a value holds at the end of a path. -/
def heldAt? (T : PayloadType) (v : T.Value) (path : List Step) : Option Held :=
  Held.at? ⟨T.shape, Wire.pack v⟩ path

theorem nodeId_of_heldAt? {node : Response.Node} {n : Json.Width.bits64.Integer}
    (h : (one .node).heldAt? node [.key "node_id"] = some ⟨.integer .bits64, n⟩) : node.id = some n := by
  have hheld : node.id.map (Held.mk (.integer .bits64)) = some ⟨.integer .bits64, n⟩ :=
    (Option.bind_fun_some _).symm.trans h
  obtain ⟨m, hm, hsame⟩ := Option.map_eq_some_iff.1 hheld
  cases hsame
  exact hm

/-- A document that the value holds has the number in it. -/
def HoldsNumber (T : PayloadType) (v : T.Value) (outer inner : List Step) (number : Json.Number) : Prop :=
  ∃ doc : CanonicalJson, T.heldAt? v outer = some ⟨.json, doc⟩ ∧ doc.toJson.at? inner = some (.number number)

/-- The text of the value has the token at the end of the path. -/
def Writes (T : PayloadType) (v : T.Value) (path : List Step) (token : Numeral.Token) : Prop :=
  ∃ t : Tree, t.Spells (Utf8.encode (encode v).toList) ∧ t.at? path = some (.number token)

/-- The part of a decoded value at the place of a tree is what has been taken of that tree. -/
theorem heldAt?_decodeBytes {inner : Shape} (h : Place inner T.shape path fill) {x : Tree}
    (hbytes : (fill x).Spells bytes) (hx : x ≠ .null) {v : T.Value} (hv : decodeBytes T.Value bytes = .ok v) :
    ∃ less a, depthLimit = less + path.length ∧ inner.ofTree less x = .ok a ∧
      T.heldAt? v path = some ⟨inner, a⟩ :=
  h.at?_ofTree T.distinct hx ((decodeBytes_spells hbytes).1 hv)

/-- In the place of a document stands one, if some text is decoded. -/
theorem Accepts.exists_document {inner : Tree → Tree} (hfill : T.Accepts fun x => fill (inner x))
    (h : Place .json T.shape path fill) {room : Nat} (hroom : depthLimit = room + path.length) :
    ∃ y doc, (inner y).document room = .ok doc := by
  obtain ⟨y, bytes, v, hspells, hv⟩ := hfill
  have htaken := (decodeBytes_spells hspells).1 hv
  obtain ⟨less, hless, hdecides⟩ := h.exists_decides htaken
  obtain rfl : less = room := by omega
  refine ⟨y, ?_⟩
  cases hdoc : (inner y).document less with
  | ok doc => exact ⟨doc, rfl⟩
  | error fault =>
    have hnull : inner y ≠ .null := by
      intro hnull
      rw [hnull] at hdoc
      cases hdoc
    have hfault : Shape.json.ofTree less (inner y) = .error fault := by
      rw [Shape.ofTree, hdoc]
      rfl
    cases htaken.symm.trans (hdecides.refused _ fault hnull hfault)

end PayloadType

/-! ## 3. Numerals in records -/

namespace PayloadType

variable {T : PayloadType} {path outer inner : List Step} {fill within : Tree → Tree} {width : Width}
  {token : Numeral.Token} {bytes : Bytes}

theorem decodeBytes_integer (hfill : T.Accepts fill) (h : Place (.integer width) T.shape path fill)
    (hbytes : (fill (.number token)).Spells bytes) :
    (∃ v, decodeBytes T.Value bytes = .ok v) ↔ token.numeral.IsIntegerIn width.lo width.hi := by
  constructor
  · rintro ⟨v, hv⟩
    obtain ⟨less, n, -, hn, -⟩ := heldAt?_decodeBytes h hbytes nofun hv
    obtain ⟨hint, hval⟩ := Shape.ofTree_integer.1 hn
    exact ⟨hint, hval ▸ IntBetween.lo_le n, hval ▸ IntBetween.lt_hi n⟩
  · rintro ⟨hint, hlo, hhi⟩
    have hn : ∀ room, (Shape.integer width).ofTree room (.number token) =
        .ok ⟨token.numeral.int, hlo, hhi⟩ :=
      fun room => Shape.ofTree_integer.2 ⟨hint, rfl⟩
    exact hfill.exists_decodeBytes h (fun room _ => ⟨_, hn room⟩) hbytes

/-- A field that holds an integer has its numeral in the text of the value. -/
theorem writes_integer (h : Place (.integer width) T.shape path fill)
    (hbytes : (fill (.number token)).Spells bytes) {v : T.Value} (hv : decodeBytes T.Value bytes = .ok v) :
    (∃ n : width.Integer, n.val = token.numeral.int ∧ T.heldAt? v path = some ⟨.integer width, n⟩) ∧
      T.Writes v path token := by
  obtain ⟨less, n, -, hn, hheld⟩ := heldAt?_decodeBytes h hbytes nofun hv
  obtain ⟨hint, hval⟩ := Shape.ofTree_integer.1 hn
  refine ⟨⟨n, hval, hheld⟩, ?_⟩
  have hwritten := Held.at?_toJson hheld nofun
  exact Json.exists_token_at hwritten hint ((width.val_toInteger n).trans hval)

/-- A document that has been decoded holds the number of each numeral in it. -/
theorem holdsNumber_decodeBytes {document : Tree → Tree} (h : Place .json T.shape outer document)
    (hinner : Within inner within) (hbytes : (document (within (.number token))).Spells bytes) {v : T.Value}
    (hv : decodeBytes T.Value bytes = .ok v) :
    ∃ number, token.numeral.number = .ok number ∧ T.HoldsNumber v outer inner number := by
  have hnull : within (.number token) ≠ .null := by
    cases hinner <;> nofun
  obtain ⟨less, doc, -, hdoc, hheld⟩ := heldAt?_decodeBytes h hbytes hnull hv
  obtain ⟨number, hnumber, hat⟩ := hinner.number_at hdoc
  exact ⟨number, hnumber, doc, hheld, hat⟩

/-- An integer in a document has its numeral in the text of the value. -/
theorem writes_holdsNumber {v : T.Value} {i : Json.Integer} (h : T.HoldsNumber v outer inner (.int i))
    (hint : token.numeral.IsInteger) (hi : i.val = token.numeral.int) : T.Writes v (outer ++ inner) token := by
  obtain ⟨doc, hheld, hat⟩ := h
  have houter : (Wire.toJson v).at? outer = some doc.toJson := Held.at?_toJson hheld nofun
  refine Json.exists_token_at ?_ hint hi
  rw [Json.at?_append, houter]
  exact hat

/-- A numeral that has a number may stand in a document. -/
theorem exists_decodeBytes_document {document : Tree → Tree} (hfill : T.Accepts fun x => document (within x))
    (h : Place .json T.shape outer document) (hinner : Within inner within) {number : Json.Number}
    (hnumber : token.numeral.number = .ok number) (hbytes : (document (within (.number token))).Spells bytes) :
    ∃ v, decodeBytes T.Value bytes = .ok v := by
  have houter : T.Accepts document := by
    obtain ⟨y, hy⟩ := hfill
    exact ⟨within y, hy⟩
  have hdocument : ∀ room, ∃ doc, (Tree.number token).document room = .ok doc := by
    intro room
    rw [Tree.document, hnumber]
    exact ⟨_, rfl⟩
  apply houter.exists_decodeBytes h _ hbytes
  intro room hroom
  obtain ⟨y, doc, hdoc⟩ := hfill.exists_document h hroom
  obtain ⟨doc', hdoc'⟩ := hinner.exists_document hdocument hdoc
  rw [Shape.ofTree, hdoc']
  exact ⟨_, rfl⟩

end PayloadType

/-- A field of integers takes a numeral exactly if it writes an integer within the bounds. A document keeps a
numeral as an integer exactly if it writes one of 64 bits, and as a double if it keeps another. Both write an
integer back as it was given. -/
theorem decode_integer {T : PayloadType} {path : List Step} {fill : Tree → Tree} (hfill : T.Accepts fill)
    {token : Numeral.Token} {bytes : Bytes} (hbytes : (fill (.number token)).Spells bytes) :
    (∀ width, Place (.integer width) T.shape path fill →
      (path.map Step.key?, Leaf.integer width) ∈ T.leaves ∧
      ((∃ v, decodeBytes T.Value bytes = .ok v) ↔ token.numeral.IsIntegerIn width.lo width.hi) ∧
      ∀ v, decodeBytes T.Value bytes = .ok v →
        (∃ n : width.Integer, n.val = token.numeral.int ∧ T.heldAt? v path = some ⟨.integer width, n⟩) ∧
        T.Writes v path token) ∧
    ∀ outer inner document within, path = outer ++ inner → fill = (fun x => document (within x)) →
      Place .json T.shape outer document → Within inner within →
      (outer.map Step.key?, Leaf.document) ∈ T.leaves ∧
      (token.numeral.IsIntegerIn (-0x8000000000000000) 0x10000000000000000 →
        ∃ v i, decodeBytes T.Value bytes = .ok v ∧ i.val = token.numeral.int ∧
          T.HoldsNumber v outer inner (.int i) ∧ T.Writes v path token) ∧
      (¬ token.numeral.IsIntegerIn (-0x8000000000000000) 0x10000000000000000 →
        ∀ v, decodeBytes T.Value bytes = .ok v → ∃ x, T.HoldsNumber v outer inner (.float x)) := by
  constructor
  · intro width h
    refine ⟨T.leaves_shape ▸ Place.mem_leaves (.integer width) h, ?_, ?_⟩
    · exact PayloadType.decodeBytes_integer hfill h hbytes
    · exact fun v hv => PayloadType.writes_integer h hbytes hv
  · rintro outer inner document within rfl rfl h hinner
    refine ⟨T.leaves_shape ▸ Place.mem_leaves .document h, ?_, ?_⟩
    · rintro ⟨hint, hlo, hhi⟩
      let i : Json.Integer := ⟨token.numeral.int, hlo, hhi⟩
      have hnumber : token.numeral.number = .ok (.int i) := Numeral.number_eq_int.2 ⟨hint, rfl⟩
      obtain ⟨v, hv⟩ := PayloadType.exists_decodeBytes_document hfill h hinner hnumber hbytes
      obtain ⟨number, hkept, hholds⟩ := PayloadType.holdsNumber_decodeBytes h hinner hbytes hv
      cases hkept.symm.trans hnumber
      exact ⟨v, i, hv, rfl, hholds, PayloadType.writes_holdsNumber hholds hint rfl⟩
    · intro hother v hv
      obtain ⟨number, hkept, hholds⟩ := PayloadType.holdsNumber_decodeBytes h hinner hbytes hv
      cases number with
      | float x => exact ⟨x, hholds⟩
      | int i =>
        obtain ⟨hint, hi⟩ := Numeral.number_eq_int.1 hkept
        exact absurd ⟨hint, hi ▸ i.lo_le, hi ▸ i.lt_hi⟩ hother

/-- The least integer that the id of a node can be and the one below it, and the greatest in its metadata. -/
theorem decode_integer_bounds :
    let text := fun id last =>
      "\x7b\"custom_metadata\":[null," ++ last ++ "],\"node_id\":" ++ id ++ "\x7d"
    (∃ node, decode Response.Node (text "-9223372036854775808" "null") = .ok node ∧
        node.id.map (·.val) = some (-9223372036854775808)) ∧
      (¬ ∃ node, decode Response.Node (text "-9223372036854775809" "null") = .ok node) ∧
      ∃ node i, decode Response.Node (text "null" "18446744073709551615") = .ok node ∧
        i.val = 18446744073709551615 ∧
        (PayloadType.one .node).HoldsNumber node [.key "custom_metadata"] [.item 1] (.int i) := by
  intro text
  obtain ⟨metadata, hmetadata, hmetadata'⟩ := Literal.exists_pieces "custom_metadata"
  obtain ⟨id, hid, hid'⟩ := Literal.exists_pieces "node_id"
  let least : Numeral.Token :=
    { numeral := ⟨true, [9, 2, 2, 3, 3, 7, 2, 0, 3, 6, 8, 5, 4, 7, 7, 5, 8, 0, 8], [], none⟩
      wellFormed := ⟨by decide, .inr ⟨9, _, rfl, by decide⟩, nofun⟩
      mark := []
      isMark := by decide }
  let less : Numeral.Token :=
    { numeral := ⟨true, [9, 2, 2, 3, 3, 7, 2, 0, 3, 6, 8, 5, 4, 7, 7, 5, 8, 0, 9], [], none⟩
      wellFormed := ⟨by decide, .inr ⟨9, _, rfl, by decide⟩, nofun⟩
      mark := []
      isMark := by decide }
  let greatest : Numeral.Token :=
    { numeral := ⟨false, [1, 8, 4, 4, 6, 7, 4, 4, 0, 7, 3, 7, 0, 9, 5, 5, 1, 6, 1, 5], [], none⟩
      wellFormed := ⟨by decide, .inr ⟨1, _, rfl, by decide⟩, nofun⟩
      mark := []
      isMark := by decide }
  let given := fun x last : Tree => Tree.object [(metadata, .array [.null, last]), (id, x)]
  obtain ⟨hnulls, hleast, hless, hgreatest⟩ :
      (given .null .null).Spells (Utf8.encode (text "null" "null").toList) ∧
      (given (.number least) .null).Spells (Utf8.encode (text "-9223372036854775808" "null").toList) ∧
      (given (.number less) .null).Spells (Utf8.encode (text "-9223372036854775809" "null").toList) ∧
      (given .null (.number greatest)).Spells (Utf8.encode (text "null" "18446744073709551615").toList) := by
    refine ⟨?_, ?_, ?_, ?_⟩ <;> apply spells_of_flatten <;>
      simp only [text, given, tokens, tokensOfItems, tokensOfMembers, hmetadata, hid] <;>
      decide +kernel
  have hdecoded : decode Response.Node (text "null" "null") =
      .ok { customMetadata := some (Json.array [.null, .null]).canonicalize } :=
    (decode_eq_ok (parse_of_eq_compact
      (j := .object [("custom_metadata", .array [.null, .null]), ("node_id", .null)]) (by decide +kernel)
      (by repeat' constructor) (by decide))).2 rfl
  have hplace : Place (.integer .bits64) (PayloadType.shape (.one .node)) [.key "node_id"]
      fun x => given x .null :=
    .value [_] [] hid' rfl .here
  have haccepts : PayloadType.Accepts (.one .node) fun x => given x .null := ⟨.null, _, _, hnulls, hdecoded⟩
  have hmetadataPlace : Place .json (PayloadType.shape (.one .node)) [.key "custom_metadata"]
      fun x => .object [(metadata, x), (id, .null)] :=
    .value [] [_] hmetadata' rfl .here
  have hmetadataAccepts : PayloadType.Accepts (.one .node) fun x => given .null x :=
    ⟨.null, _, _, hnulls, hdecoded⟩
  refine ⟨?_, ?_, ?_⟩
  · obtain ⟨-, htaken, hheld⟩ := (decode_integer haccepts hleast).1 .bits64 hplace
    obtain ⟨node, hnode⟩ := htaken.2 ⟨⟨rfl, rfl, by decide⟩, by decide, by decide⟩
    obtain ⟨⟨n, hn, hat⟩, -⟩ := hheld node hnode
    refine ⟨node, hnode, ?_⟩
    rw [PayloadType.nodeId_of_heldAt? hat, Option.map_some, hn]
    rfl
  · intro hnode
    obtain ⟨-, hlo, -⟩ := ((decode_integer haccepts hless).1 .bits64 hplace).2.1.1 hnode
    exact absurd hlo (by decide)
  · obtain ⟨-, hkept, -⟩ := (decode_integer hmetadataAccepts hgreatest).2 [.key "custom_metadata"] [.item 1]
      _ (fun x => .array [.null, x]) rfl rfl hmetadataPlace (.item [.null] [] .here)
    obtain ⟨node, i, hnode, hi, hholds, -⟩ := hkept ⟨⟨rfl, rfl, by decide⟩, by decide, by decide⟩
    exact ⟨node, i, hnode, hi, hholds⟩

end MetricCatalog
