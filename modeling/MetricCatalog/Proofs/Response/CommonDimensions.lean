import MetricCatalog.Proofs.Json.Layouts
import MetricCatalog.Proofs.Schema.Wrapped

/-!
# Common dimensions — the two forms of an answer

The service answers with the list of dimensions, bare or under its key. Both forms are decoded alike, item
by item, and where they are refused it is for the same fault. The object is what is written.
-/

namespace MetricCatalog

open Json Json.Scan Json.Tree Shape Response

/-! ## 1. The list under its key -/

namespace Response.CommonDimensions

/-- A text put under the key. -/
def underKey (list : String) : String := "\x7b\"dimensions\": " ++ list ++ "\x7d"

theorem spells_underKey {ts : List Tree} {list : String}
    (h : (Tree.array ts).Spells (Utf8.encode list.toList)) :
    ∃ k, Literal.text k = .ok "dimensions" ∧
      (Tree.object [(k, .array ts)]).Spells (Utf8.encode (underKey list).toList) := by
  obtain ⟨k, hk, htext⟩ := Literal.exists_pieces "dimensions"
  obtain ⟨front, trail, hlist, hfront, htrail⟩ := h
  have hopening : Laid [[0x7B], Literal.bytes k, [0x3A]] ([0x7B] ++ (Literal.bytes k ++ [0x3A])) :=
    laid_flatten _
  have hvalue : Laid (Tree.array ts).tokens ([0x20] ++ front) :=
    hfront.blank_append (List.forall_mem_singleton.2 rfl) nofun
  have hwhole := (hopening.append hvalue).append (laid_single htrail [0x7D])
  refine ⟨k, htext, _, [], ?_, hwhole, blank_nil⟩
  have hliteral : Literal.bytes k = Utf8.encode "\"dimensions\"".toList := hk
  have htext : Utf8.encode (underKey list).toList =
      Utf8.encode "\x7b".toList ++ Utf8.encode "\"dimensions\"".toList ++ Utf8.encode ": ".toList ++
        Utf8.encode list.toList ++ Utf8.encode "\x7d".toList := by
    simp only [underKey, String.toList_append, Utf8.encode_append]
    rfl
  rw [htext, hlist, hliteral]
  simp only [List.append_assoc, List.append_nil]
  rfl

/-! ## 2. Its items -/

/-- A list is decoded if each item is on its own, as the list of what they are decoded as. -/
theorem decode_array {list : String} {ts : List Tree} (h : (Tree.array ts).Spells (Utf8.encode list.toList))
    (c : CommonDimensions) :
    decode CommonDimensions list = .ok c ↔
      ∃ ds, c.dimensions = some ds ∧ List.Forall₂ DecodedAs ts ds := by
  let item := Wire.shape Dimension
  have hfits : item.fits 2 := rfl
  have hitem : item.ofTree 126 = item.ofTree depthLimit :=
    funext (Shape.ofTree_eq_of_fits hfits (by decide) (by decide))
  have hdecoded : DecodedAs (α := Dimension) = fun t d => item.ofTree 126 t = .ok (Wire.pack d) :=
    funext fun t => funext fun d => by rw [decodedAs_iff, hitem]
  refine (decodeBytes_spells h).trans ?_
  change (ts.mapM (item.ofTree 126)).map some = .ok (c.dimensions.map (List.map Wire.pack)) ↔ _
  rw [hdecoded]
  constructor
  · intro hlist
    obtain ⟨vs, hvs, hsome⟩ := ok_of_map hlist
    obtain ⟨ds, hds, rfl⟩ := Option.map_eq_some_iff.1 hsome.symm
    exact ⟨ds, hds,
      (List.forall₂_map_right_iff (R := fun t v => item.ofTree 126 t = .ok v)).1 (forall₂_of_mapM hvs)⟩
  · rintro ⟨ds, hds, hall⟩
    rw [hds, mapM_of_forall₂ (List.forall₂_map_right_iff.2 hall)]
    rfl

/-- A list is decoded alike under its key and alone. -/
theorem decode_underKey {list : String} {ts : List Tree}
    (h : (Tree.array ts).Spells (Utf8.encode list.toList)) :
    (∃ c, decode CommonDimensions list = .ok c ∧ decode CommonDimensions (underKey list) = .ok c) ∨
      ∃ e e' said, decode CommonDimensions list = .error e ∧
        decode CommonDimensions (underKey list) = .error e' ∧ e.Says said ∧ e'.Says said := by
  obtain ⟨k, hk, hspells⟩ := spells_underKey h
  have hfits : (Wire.shape Dimension).fits 2 := rfl
  exact decodeBytes_alike h hspells (Shape.ofTree_wrapped_forms hfits (by decide) hk ts).symm

/-! ## 3. What is written -/

theorem encode_eq (c : CommonDimensions) :
    encode c = "\x7b\"dimensions\":" ++ (c.dimensions.map encode).getD "null" ++ "\x7d" := by
  have hobject : ∀ j : Json, (Json.object [("dimensions", j)]).compact =
      "\x7b\"dimensions\":" ++ j.compact ++ "\x7d" := by
    intro j
    have hrender : Layout.compact.render 0 (.object [("dimensions", j)]) =
        "\x7b\"dimensions\":".toList ++ Layout.compact.render 0 j ++ "\x7d".toList := by
      change '{' :: ([] ++ (literal "dimensions" ++ [':'] ++ Layout.compact.render 1 j) ++ [] ++ [] ++
        ['}']) = _
      rw [Layout.render_compact_eq j 1 0]
      simp only [List.nil_append, List.append_nil]
      rfl
    rw [compact, hrender, String.ofList_append, String.ofList_append, String.ofList_toList,
      String.ofList_toList, compact]
  obtain ⟨_ | ds⟩ := c
  · exact hobject .null
  · refine (hobject _).trans ?_
    change _ ++ (Json.array ((ds.map Wire.pack).map (Wire.shape Dimension).toJson)).compact ++ _ = _
    rfl

theorem decode_encode (c : CommonDimensions) :
    decode CommonDimensions (encode c) = .ok c ∧ decode CommonDimensions (encodePretty c) = .ok c := by
  let s := Wire.shape CommonDimensions
  obtain ⟨hdepth, hfloat⟩ := s.plain_toJson depthLimit (by decide) (Wire.pack c)
  have htaken : s.value? (Wire.toJson c) = some (Wire.pack c) := by
    refine (s.value?_toJson (by decide) (Wire.pack c)).trans ?_
    rw [s.collapse_eq_self (by decide)]
  exact ⟨(decode_eq_ok (parse_compact hfloat hdepth)).2 htaken,
    (decode_eq_ok (parse_pretty hfloat hdepth)).2 htaken⟩

/-- A list is decoded item by item, and alike under its key and alone, but for the places of faults. An object
whose keys all denote texts is decoded as unset dimensions if it lacks the key or has null under it. Scalars
and objects that repeat the key are refused. What has been decoded is written as the object, and that is
decoded as it was. -/
theorem decode_forms {text : String} {t : Tree} (h : t.Spells (Utf8.encode text.toList)) :
    (∀ ts, t = .array ts →
      (∀ c, decode CommonDimensions text = .ok c ↔
        ∃ ds, c.dimensions = some ds ∧ List.Forall₂ DecodedAs ts ds) ∧
      ((∃ c, decode CommonDimensions text = .ok c ∧ decode CommonDimensions (underKey text) = .ok c) ∨
        ∃ e e' said, decode CommonDimensions text = .error e ∧
          decode CommonDimensions (underKey text) = .error e' ∧ e.Says said ∧ e'.Says said)) ∧
    (∀ ms, t = .object ms →
      (TextKeys ms → UnsetUnder "dimensions" ms → decode CommonDimensions text = .ok { dimensions := none }) ∧
      (TwiceUnder "dimensions" ms → ∀ c, decode CommonDimensions text ≠ .ok c)) ∧
    (t.IsScalar → ∀ c, decode CommonDimensions text ≠ .ok c) ∧
    ∀ c, decode CommonDimensions text = .ok c →
      encode c = "\x7b\"dimensions\":" ++ (c.dimensions.map encode).getD "null" ++ "\x7d" ∧
      decode CommonDimensions (encode c) = .ok c := by
  refine ⟨?_, ?_, ?_, fun c _ => ⟨encode_eq c, (decode_encode c).1⟩⟩
  · rintro ts rfl
    exact ⟨decode_array h, decode_underKey h⟩
  · rintro ms rfl
    refine ⟨fun htexts hunset => ?_, fun htwice c hc => ?_⟩
    · exact (decodeBytes_spells h).2 (Shape.ofTree_wrapped_unset htexts hunset)
    · exact Shape.ofTree_wrapped_twice htwice _ ((decodeBytes_spells h).1 hc)
  · intro hscalar c hc
    exact Shape.ofTree_wrapped_scalar hscalar _ ((decodeBytes_spells h).1 hc)

/-- Items may be objects or arrays, and one that is refused is refused for the same fault in both forms. -/
theorem decode_forms_list :
    let text := "[\x7b\"name\":\"a\",\"x\":\"b\"\x7d,[\"b\"]]"
    let dimensions : CommonDimensions := { dimensions := some [{ name := some "a" }, { name := some "b" }] }
    let refused := "[\x7b\"filter_only\":\"yes\"\x7d]"
    decode CommonDimensions text = .ok dimensions ∧
      decode CommonDimensions (underKey text) = .ok dimensions ∧
      (∃ e e' said, decode CommonDimensions refused = .error e ∧
        decode CommonDimensions (underKey refused) = .error e' ∧ e.Says said ∧ e'.Says said) := by
  intro text dimensions refused
  have hspells : ∀ (text : String) (js : List Json), parse text = .ok (.array js) →
      ∃ ts, (Tree.array ts).Spells (Utf8.encode text.toList) := by
    intro text js hparse
    obtain ⟨t, hspells, hdocument⟩ := parse_eq_ok.1 hparse
    obtain ⟨-, hnoArray, -⟩ | ⟨ts, -, -, rfl, -⟩ | ⟨_, _, _, -, -, -, hdoc⟩ := document_inv hdocument
    · exact absurd rfl hnoArray
    · exact ⟨ts, hspells⟩
    · cases hdoc
  have hparse : parse text = .ok (.array
      [.object [("name", .string "a"), ("x", .string "b")], .array [.string "b"]]) :=
    parse_of_eq_compact (by decide +kernel) (by repeat' constructor) (by decide)
  have hparse' : parse refused = .ok (.array [.object [("filter_only", .string "yes")]]) :=
    parse_of_eq_compact (by decide +kernel) (by repeat' constructor) (by decide)
  obtain ⟨ts, hlist⟩ := hspells text _ hparse
  obtain ⟨ts', hlist'⟩ := hspells refused _ hparse'
  have hdecode : decode CommonDimensions text = .ok dimensions := (decode_eq_ok hparse).2 rfl
  refine ⟨hdecode, ?_, ?_⟩
  · obtain ⟨-, ⟨c, hc, hunder⟩ | ⟨e, -, -, he, -⟩⟩ := (decode_forms hlist).1 ts rfl
    · cases hdecode.symm.trans hc
      exact hunder
    · cases hdecode.symm.trans he
  · obtain ⟨-, ⟨c, hc, -⟩ | hfailed⟩ := (decode_forms hlist').1 ts' rfl
    · cases (decode_eq_ok hparse').1 hc
    · exact hfailed

/-- A key that denotes no text is refused, though it is not the key of the list. -/
theorem decode_loneSurrogate :
    let text := "\x7b\"\\ud800\":null\x7d"
    (∃ ms, (Tree.object ms).Spells (Utf8.encode text.toList) ∧ UnsetUnder "dimensions" ms) ∧
      ∀ c, decode CommonDimensions text ≠ .ok c := by
  intro text
  let key : List Literal.Piece := [.code 0x64 0x38 0x30 0x30 (by decide)]
  have hspells : (Tree.object [(key, .null)]).Spells (Utf8.encode text.toList) :=
    ⟨_, [], by decide, laid_flatten _, blank_nil⟩
  refine ⟨⟨_, hspells, .inl ?_⟩, fun c hc => nomatch (decodeBytes_spells hspells).1 hc⟩
  exact List.forall_mem_singleton.2 nofun

end Response.CommonDimensions

end MetricCatalog
