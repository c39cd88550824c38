import MetricCatalog.Proofs.Inspection.Projection
import MetricCatalog.Proofs.Schema.Respelling

/-!
# Spelling — payloads that say the same are shown alike

The order of members, the blanks between tokens and the escapes in keys and strings are not seen in what is
shown of a payload, so inspection brings all spellings of a payload into one form.
-/

namespace MetricCatalog

open Json Json.Tree

theorem decodeBytes_respelled {α : Type} [Wire α] {t t' : Tree} {bytes bytes' : Bytes}
    (ht : t.Spells bytes) (ht' : t'.Spells bytes') (h : t.Respelled t') (hdistinct : t.KeysDistinct) {a : α}
    (ha : decodeBytes α bytes = .ok a) : decodeBytes α bytes' = .ok a := by
  rw [decodeBytes_spells ht] at ha
  rw [decodeBytes_spells ht']
  exact (h.followed hdistinct Scan.depthLimit).value _ _ ha

/-- Two payloads without repeated keys that differ only in spelling are either both refused or both shown,
and then alike. -/
theorem inspect_respelled (kind : PayloadKind) {payload payload' : String} {t t' : Tree}
    (ht : t.Spells (Utf8.encode payload.toList)) (ht' : t'.Spells (Utf8.encode payload'.toList))
    (hdistinct : t.KeysDistinct) (hdistinct' : t'.KeysDistinct) (h : t.Respelled t') (out : String) :
    inspect kind payload = .ok out ↔ inspect kind payload' = .ok out := by
  rw [inspect_eq_ok, inspect_eq_ok]
  constructor
  · rintro ⟨a, ha, hout⟩
    exact ⟨a, decodeBytes_respelled ht ht' h hdistinct ha, hout⟩
  · rintro ⟨a, ha, hout⟩
    exact ⟨a, decodeBytes_respelled ht' ht h.symm hdistinct' ha, hout⟩

/-- The members of a node and those of a document in it change places, a key and a string are escaped, and
blanks stand around the text. -/
theorem inspect_respelled_node :
    ∃ out, inspect .node "\x7b\"name\":\"é\",\"custom_metadata\":\x7b\"a\":null,\"b\":[]\x7d\x7d" = .ok out ∧
      inspect .node ("\n \x7b\"custom_metadata\":\x7b\"b\":[],\"\\u0061\":null\x7d," ++
        "\"n\\u0061me\":\"\\u00E9\"\x7d\t") = .ok out := by
  obtain ⟨name, hname, hname'⟩ := Literal.exists_pieces "name"
  obtain ⟨e, he, he'⟩ := Literal.exists_pieces "é"
  obtain ⟨data, hdata, hdata'⟩ := Literal.exists_pieces "custom_metadata"
  obtain ⟨a, ha, ha'⟩ := Literal.exists_pieces "a"
  obtain ⟨b, hb, hb'⟩ := Literal.exists_pieces "b"
  let escapedName : List Literal.Piece :=
    [.plain 0x6E (by decide), .code 0x30 0x30 0x36 0x31 rfl, .plain 0x6D (by decide),
      .plain 0x65 (by decide)]
  let escapedE : List Literal.Piece := [.code 0x30 0x30 0x45 0x39 rfl]
  let escapedA : List Literal.Piece := [.code 0x30 0x30 0x36 0x31 rfl]
  have hescapedName : Literal.text escapedName = .ok "name" := rfl
  have hescapedE : Literal.text escapedE = .ok "é" := rfl
  have hescapedA : Literal.text escapedA = .ok "a" := rfl
  let t : Tree := .object [(name, .string e), (data, .object [(a, .null), (b, .array [])])]
  let t' : Tree :=
    .object [(data, .object [(b, .array []), (escapedA, .null)]), (escapedName, .string escapedE)]
  have ht : t.Spells (Utf8.encode
      "\x7b\"name\":\"é\",\"custom_metadata\":\x7b\"a\":null,\"b\":[]\x7d\x7d".toList) := by
    refine ⟨_, [], ?_, laid_flatten _, blank_nil⟩
    simp only [t, tokens, tokensOfItems, tokensOfMembers, hname, he, hdata, ha, hb]
    decide +kernel
  have ht' : t'.Spells (Utf8.encode ("\n \x7b\"custom_metadata\":\x7b\"b\":[],\"\\u0061\":null\x7d," ++
      "\"n\\u0061me\":\"\\u00E9\"\x7d\t").toList) := by
    have hfront : Blank [0x0A, 0x20] := by simp [Blank, isBlank]
    have htrail : Blank [0x09] := by simp [Blank, isBlank]
    refine ⟨_, [0x09], ?_, Laid.cons hfront (laid_flatten _), htrail⟩
    simp only [tokens, tokensOfItems, tokensOfMembers, hdata, hb]
    decide +kernel
  have hrespelled : t.Respelled t' := by
    refine .object (.cons (.intro (Literal.sameText_of_text hname' hescapedName)
        (.string (Literal.sameText_of_text he' hescapedE)))
      (.cons (.intro (fun _ => Iff.rfl) (.object ?_ (.swap _ _ _))) .nil)) (.swap _ _ _)
    exact .cons (.intro (Literal.sameText_of_text ha' hescapedA) .null)
      (.cons (.intro (fun _ => Iff.rfl) (.array .nil)) .nil)
  have hdistinct : t.KeysDistinct := by
    refine ⟨?_, trivial, ⟨?_, trivial, trivial, trivial⟩, trivial⟩
    · simp only [List.filterMap, hname', hdata', Except.toOption]
      decide
    · simp only [List.filterMap, ha', hb', Except.toOption]
      decide
  have hdistinct' : t'.KeysDistinct := by
    refine ⟨?_, ⟨?_, trivial, trivial, trivial⟩, trivial, trivial⟩
    · simp only [List.filterMap, hescapedName, hdata', Except.toOption]
      decide
    · simp only [List.filterMap, hescapedA, hb', Except.toOption]
      decide
  have hshown : ∃ out, inspect .node
      "\x7b\"name\":\"é\",\"custom_metadata\":\x7b\"a\":null,\"b\":[]\x7d\x7d" = .ok out := by
    let data : Json := .object [("a", .null), ("b", .array [])]
    let doc : Json := .object [("name", .string "é"), ("custom_metadata", data)]
    let node : Response.Node := { name := some "é", customMetadata := some data.canonicalize }
    have hparse : parse "\x7b\"name\":\"é\",\"custom_metadata\":\x7b\"a\":null,\"b\":[]\x7d\x7d" =
        .ok doc := by
      rw [show "\x7b\"name\":\"é\",\"custom_metadata\":\x7b\"a\":null,\"b\":[]\x7d\x7d" = doc.compact by
        decide +kernel]
      exact parse_compact (by repeat' constructor) (by decide)
    have hdecode : decode PayloadKind.node.Answer
        "\x7b\"name\":\"é\",\"custom_metadata\":\x7b\"a\":null,\"b\":[]\x7d\x7d" = .ok node :=
      (decode_eq_ok hparse).2 rfl
    exact ⟨_, inspect_eq_ok.2 ⟨node, hdecode, rfl⟩⟩
  obtain ⟨out, hout⟩ := hshown
  exact ⟨out, hout, (inspect_respelled .node ht ht' hdistinct hdistinct' hrespelled out).1 hout⟩

end MetricCatalog
