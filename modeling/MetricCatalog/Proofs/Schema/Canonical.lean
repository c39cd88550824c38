import MetricCatalog.Proofs.Json.Stored
import MetricCatalog.Proofs.Schema.Integers

/-!
# Arbitrary documents in records — kept and written in canonical form

Where a record takes any document, it keeps the canonical form of the one that stands there. The order of the
members in the text and the values that are given for a key before the last one leave no trace, neither in the
record nor in its own texts.
-/

namespace MetricCatalog

open Json Json.Scan Json.Tree Shape

/-! ## 1. Fields of documents -/

/-- A document that is taken of a tree is kept of it. -/
theorem Shape.stored_json {room : Nat} {t : Tree} {doc : CanonicalJson}
    (h : Shape.json.ofTree room t = .ok doc) : t.Stored doc.toJson := by
  obtain ⟨j, hj, hdoc⟩ := ok_of_bind h
  cases hdoc
  exact Tree.stored_document hj

/-- So is a list of documents. -/
theorem Shape.stored_list {room : Nat} {t : Tree} {docs : List CanonicalJson}
    (h : (Shape.list .json).ofTree room t = .ok docs) : t.Stored (.array (docs.map CanonicalJson.toJson)) := by
  cases t with
  | array ts =>
    cases room with
    | zero => cases h
    | succ room =>
      have hitems : List.Forall₂ (fun t doc => t.Stored (CanonicalJson.toJson doc)) ts docs :=
        (forall₂_of_mapM (f := Shape.json.ofTree room) h).imp fun _ _ => Shape.stored_json
      exact .array (List.forall₂_map_right_iff.2 hitems)
  | _ =>
    obtain ⟨_, -, hrefused⟩ := ok_of_bind h
    cases hrefused

/-- The shapes of the fields that take any document, or a list of any documents. -/
inductive Shape.OfDocuments : Shape → Prop where
  | one : OfDocuments .json
  | list : OfDocuments (.list .json)

theorem Shape.OfDocuments.stored {s : Shape} (hs : s.OfDocuments) {room : Nat} {t : Tree} {a : s.Value}
    (h : s.ofTree room t = .ok a) : t.Stored (s.toJson a) := by
  cases hs with
  | one => exact Shape.stored_json h
  | list => exact Shape.stored_list h

/-! ## 2. Records -/

/-- Of every document, or list of documents, in an accepted text the value holds at its place what is kept of it:
sorted objects in which each key has the value of its last member, and all items of the arrays. Whatever
document a value holds is canonical, and it is written so in both texts of the value. -/
theorem decode_canonical {T : PayloadType} {bytes : Bytes} {v : T.Value}
    (hv : decodeBytes T.Value bytes = .ok v) :
    (∀ {s : Shape} {path : List Step} {fill : Tree → Tree} {x : Tree}, s.OfDocuments →
      Place s T.shape path fill → x ≠ .null → (fill x).Spells bytes →
        (∀ leaf ∈ s.leaves, (path.map Step.key? ++ leaf.1, leaf.2) ∈ T.leaves) ∧
        ∃ a : s.Value, T.heldAt? v path = some ⟨s, a⟩ ∧ x.Stored (s.toJson a)) ∧
    ∀ {path : List Step} {doc : CanonicalJson}, T.heldAt? v path = some ⟨.json, doc⟩ →
      doc.toJson.Canonical ∧ doc.toJson.SortedIn path (encode v) ∧
        doc.toJson.SortedIn path (encodePretty v) := by
  constructor
  · intro s path fill x hs h hx hbytes
    obtain ⟨less, a, -, ha, hheld⟩ := PayloadType.heldAt?_decodeBytes h hbytes hx hv
    exact ⟨fun leaf hleaf => T.leaves_shape ▸ h.below_mem_leaves hleaf, a, hheld, hs.stored ha⟩
  · intro path doc hheld
    have hat : (Wire.toJson v).at? path = some doc.toJson := Held.at?_toJson hheld nofun
    exact ⟨doc.isCanonical, sortedIn_render Layout.isBlank_compact hat doc.isCanonical,
      sortedIn_render Layout.isBlank_pretty hat doc.isCanonical⟩

/-- An object gives way to a scalar, and the object in the array is sorted and keeps its last `d`. -/
theorem decode_canonical_metadata :
    let text := "\x7b\"custom_metadata\":\x7b\"b\":\x7b\"x\":[]\x7d," ++
      "\"a\":[null,\x7b\"d\":[],\"c\":true,\"d\":null\x7d],\"b\":false\x7d\x7d"
    ∃ (node : Response.Node) (metadata : CanonicalJson) (fill : Tree → Tree) (x : Tree),
      decode Response.Node text = .ok node ∧
      Place .json (PayloadType.shape (.one .node)) [.key "custom_metadata"] fill ∧
      (fill x).Spells (Utf8.encode text.toList) ∧
      (PayloadType.one .node).heldAt? node [.key "custom_metadata"] = some ⟨.json, metadata⟩ ∧
      x.Stored metadata.toJson ∧
      metadata.toJson = .object
        [("a", .array [.null, .object [("c", .boolean true), ("d", .null)]]), ("b", .boolean false)] ∧
      metadata.toJson.SortedIn [.key "custom_metadata"] (encodePretty node) := by
  intro text
  obtain ⟨key, hkey, hkey'⟩ := Literal.exists_pieces "custom_metadata"
  obtain ⟨a, ha, -⟩ := Literal.exists_pieces "a"
  obtain ⟨b, hb, -⟩ := Literal.exists_pieces "b"
  obtain ⟨c, hc, -⟩ := Literal.exists_pieces "c"
  obtain ⟨d, hd, -⟩ := Literal.exists_pieces "d"
  obtain ⟨k, hk, -⟩ := Literal.exists_pieces "x"
  let metadata : Json := .object
    [("b", .object [("x", .array [])]),
      ("a", .array [.null, .object [("d", .array []), ("c", .boolean true), ("d", .null)]]),
      ("b", .boolean false)]
  let node : Response.Node := { customMetadata := some metadata.canonicalize }
  let x : Tree := .object
    [(b, .object [(k, .array [])]),
      (a, .array [.null, .object [(d, .array []), (c, .boolean true), (d, .null)]]),
      (b, .boolean false)]
  have hdecode : decode Response.Node text = .ok node :=
    (decode_eq_ok (parse_of_eq_compact (j := .object [("custom_metadata", metadata)]) (by decide +kernel)
      (by repeat' constructor) (by decide))).2 rfl
  have hplace : Place .json (PayloadType.shape (.one .node)) [.key "custom_metadata"]
      fun x => .object [(key, x)] :=
    .value [] [] hkey' rfl .here
  have hspells : (Tree.object [(key, x)]).Spells (Utf8.encode text.toList) := by
    apply spells_of_flatten
    simp only [text, x, tokens, tokensOfItems, tokensOfMembers, hkey, ha, hb, hc, hd, hk]
    decide +kernel
  have hx : x ≠ .null := by simp [x]
  obtain ⟨htaken, hwritten⟩ := decode_canonical (T := .one .node) hdecode
  obtain ⟨-, taken, hheld, hstored⟩ := htaken .one hplace hx hspells
  have hsorted := (hwritten hheld).2.2
  have hmetadata : some (Held.mk .json metadata.canonicalize) = some ⟨.json, taken⟩ := hheld
  cases hmetadata
  exact ⟨node, metadata.canonicalize, _, x, hdecode, hplace, hspells, hheld, hstored, rfl, hsorted⟩

end MetricCatalog
