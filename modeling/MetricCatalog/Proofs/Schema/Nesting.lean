import MetricCatalog.Proofs.Json.Depth
import MetricCatalog.Proofs.Schema.Places

/-!
# Nesting — how deep a document may be that a record keeps

A text may have 127 arrays and objects open at once. Those around an arbitrary document count, with one for
each step of the path to its place. Those that are closed before it or opened behind it do not.
-/

namespace MetricCatalog

open Json Json.Scan Json.Tree Shape

/-- A document whose texts and numbers can be kept is decoded in its place if there are levels enough left, and
otherwise the bytes are refused as malformed. The places are those that the record types tell. A text is read
like its bytes. -/
theorem decode_nested {T : PayloadType} {path : List Step} {fill : Tree → Tree}
    (h : Place .json T.shape path fill) (hfill : T.Accepts fill) {x : Tree} (hx : x.Denotes) {bytes : Bytes}
    (hbytes : (fill x).Spells bytes) :
    (path.map Step.key?, Leaf.document) ∈ T.leaves ∧
    ((∃ v, decodeBytes T.Value bytes = .ok v) ↔ path.length + x.depth ≤ 127) ∧
    (127 < path.length + x.depth →
      ∃ refusal, decodeBytes T.Value bytes = .error (.json refusal) ∧ refusal.fault.category = .malformed) := by
  have htaken : path.length + x.depth ≤ 127 → ∃ v, decodeBytes T.Value bytes = .ok v := by
    intro hshort
    apply hfill.exists_decodeBytes h _ hbytes
    intro room hroom
    have hlimit : 127 = room + path.length := hroom
    obtain ⟨doc, hdoc⟩ := (document_of_denotes hx room).taken (by omega)
    rw [Shape.ofTree, hdoc]
    exact ⟨_, rfl⟩
  have hrefused : 127 < path.length + x.depth → RefusedFor (decodeBytes T.Value bytes) (.malformed .tooDeep) := by
    intro hlong
    obtain ⟨less, hless, hdecides⟩ := hfill.exists_decides h
    have hlimit : 127 = less + path.length := hless
    have hnull : x ≠ .null := by
      rintro rfl
      change 127 < path.length + 0 at hlong
      omega
    rw [decodeBytes_refusedFor hbytes]
    apply hdecides.refused x _ hnull
    rw [Shape.ofTree, (document_of_denotes hx less).tooDeep (by omega)]
    rfl
  refine ⟨T.leaves_shape ▸ Place.mem_leaves .document h, ⟨?_, htaken⟩, ?_⟩
  · rintro ⟨v, hv⟩
    by_contra hlong
    obtain ⟨refusal, hrefusal, -⟩ := hrefused (by omega)
    cases hv.symm.trans hrefusal
  · intro hlong
    obtain ⟨refusal, hrefusal, hfault⟩ := hrefused hlong
    refine ⟨refusal, hrefusal, ?_⟩
    rw [hfault]
    rfl

theorem denotes_nested (n : Nat) : (nested n).Denotes := by
  induction n with
  | zero => trivial
  | succ n ih => exact ⟨ih, trivial⟩

theorem depth_nested (n : Nat) : (nested n).depth = n + 1 := by
  induction n with
  | zero => rfl
  | succ n ih => simp [nested, Tree.depth, Tree.depthOfItems, ih]

/-- Four levels are open around an attribute of a column. Those of the metadata in front are closed again. -/
theorem decode_nested_attributes :
    let text := fun levels => "\x7b\"custom_metadata\":[[[]]],\"columns\":[\x7b\"attributes\":[" ++
      String.ofList (List.replicate levels '[' ++ List.replicate levels ']') ++ "]\x7d]\x7d"
    (∃ node, decode Response.Node (text 123) = .ok node) ∧
      ∃ refusal, decode Response.Node (text 124) = .error (.json refusal) ∧
        refusal.fault.category = .malformed := by
  intro text
  obtain ⟨metadata, hmetadata, -⟩ := Literal.exists_pieces "custom_metadata"
  obtain ⟨columns, hcolumns, hcolumns'⟩ := Literal.exists_pieces "columns"
  obtain ⟨attributes, hattributes, hattributes'⟩ := Literal.exists_pieces "attributes"
  let deep : Json := .array [.array [.array []]]
  let doc : Json := .object
    [("custom_metadata", deep), ("columns", .array [.object [("attributes", .array [.null])]])]
  let node : Response.Node :=
    { customMetadata := some deep.canonicalize, columns := some [{ attributes := some [Json.null.canonicalize] }] }
  let fill := fun x => Tree.object
    [(metadata, nested 2), (columns, .array [.object [(attributes, .array [x])]])]
  have hplace : Place .json (PayloadType.shape (.one .node))
      [.key "columns", .item 0, .key "attributes", .item 0] fill :=
    .value [_] [] hcolumns' rfl (.item [] [] (.value [] [] hattributes' rfl (.item [] [] .here)))
  have haccepts : PayloadType.Accepts (.one .node) fill := by
    refine ⟨.null, _, node, spells_of_flatten ?_,
      (decode_eq_ok (parse_compact (j := doc) (by repeat' constructor) (by decide))).2 rfl⟩
    simp only [fill, nested, tokens, tokensOfItems, tokensOfMembers, hmetadata, hcolumns, hattributes]
    decide +kernel
  obtain ⟨hshort, hlong⟩ :
      (fill (nested 122)).Spells (Utf8.encode (text 123).toList) ∧
      (fill (nested 123)).Spells (Utf8.encode (text 124).toList) := by
    constructor <;> apply spells_of_flatten <;>
      simp only [text, fill, tokens, tokensOfItems, tokensOfMembers, hmetadata, hcolumns, hattributes,
        String.toList_append, String.toList_ofList] <;>
      decide +kernel
  constructor
  · apply (decode_nested hplace haccepts (denotes_nested 122) hshort).2.1.2
    rw [depth_nested]
    decide
  · apply (decode_nested hplace haccepts (denotes_nested 123) hlong).2.2
    rw [depth_nested]
    decide

end MetricCatalog
