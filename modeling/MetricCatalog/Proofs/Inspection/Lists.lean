import MetricCatalog.Proofs.Inspection.Projection
import MetricCatalog.Proofs.Json.Indentation
import MetricCatalog.Proofs.Json.Joined
import MetricCatalog.Proofs.Schema.Room

/-!
# Lists of answers — inspected item by item

A list of answers is inspected like its items one after the other. Each item takes exactly its own text and
gives back the room that it has taken, and what is shown of it is moved to the right as a whole.
-/

namespace MetricCatalog

open Json Json.Scan Json.Tree Shape

/-! ## 1. Texts of lists -/

/-- The text is well-formed and has at most so many arrays and objects open at once. -/
def NestsWithin (limit : Nat) (text : String) : Prop :=
  ∃ t : Tree, t.Spells (Utf8.encode text.toList) ∧ t.depth ≤ limit

theorem nestsWithin_of_eq_compact {limit : Nat} {text : String} {j : Json} (htext : text = j.compact)
    (hfloat : j.FloatFree) (hdepth : j.depth ≤ limit) : NestsWithin limit text := by
  obtain ⟨t, hlaid, hdocument⟩ := exists_tree Layout.isBlank_compact j 0
  refine ⟨t, ⟨_, [], ?_, hlaid, blank_nil⟩, depth_le_of_document (hdocument hfloat limit hdepth)⟩
  rw [htext, compact, String.toList_ofList, List.append_nil]

/-- The trees of texts, one for each, and all no deeper than their limit. -/
theorem exists_trees {limit : Nat} {texts : List String} (h : ∀ text ∈ texts, NestsWithin limit text) :
    ∃ ts : List Tree, List.Forall₂ (fun text t => Tree.Spells t (Utf8.encode text.toList)) texts ts ∧
      ∀ t ∈ ts, t.depth ≤ limit := by
  obtain ⟨ts, hts⟩ := exists_forall₂ h
  refine ⟨ts, hts.imp fun _ _ h => h.1, ?_⟩
  intro t ht
  obtain ⟨text, -, -, hdepth⟩ := forall₂_mem_right hts t ht
  exact hdepth

/-- What is said of the elements of one list can be said of those of the other. -/
theorem forall₂_iff {α β γ : Type} {R : α → β → Prop} {P : α → γ → Prop} {Q : β → γ → Prop}
    (h : ∀ x y z, R x y → (P x z ↔ Q y z)) {xs : List α} {ys : List β} (hxs : List.Forall₂ R xs ys)
    {zs : List γ} : List.Forall₂ P xs zs ↔ List.Forall₂ Q ys zs := by
  induction hxs generalizing zs with
  | nil => simp [List.forall₂_nil_left_iff]
  | cons hxy _ ih => simp only [List.forall₂_cons_left_iff, h _ _ _ hxy, ih]

section

variable {α : Type} [Wire α] {texts : List String}

/-- An item is taken with the room that is left within the list as it is on its own. -/
theorem ofTree_items {ts : List Tree} (hdepth : ∀ t ∈ ts, t.depth ≤ 126) :
    (Wire.shape (List α)).ofTree depthLimit (.array ts) = ts.mapM ((Wire.shape α).ofTree depthLimit) := by
  change ts.mapM ((Wire.shape α).ofTree 126) = _
  apply mapM_congr
  intro t ht
  exact (Wire.shape α).ofTree_eq_of_depth 126 depthLimit t (hdepth t ht) ((hdepth t ht).trans (by decide))

/-- A list is decoded item by item. -/
theorem decode_arrayText (h : ∀ text ∈ texts, NestsWithin 126 text) {as : List α} :
    decode (List α) (arrayText texts) = .ok as ↔
      List.Forall₂ (fun text a => decode α text = .ok a) texts as := by
  obtain ⟨ts, hspells, hdepth⟩ := exists_trees h
  have hitem : ∀ text t (a : α), Tree.Spells t (Utf8.encode text.toList) →
      (decode α text = .ok a ↔ (Wire.shape α).ofTree depthLimit t = .ok (Wire.pack a)) :=
    fun _ _ _ hspells => decodeBytes_spells hspells
  rw [forall₂_iff hitem hspells, decode, decodeBytes_spells (spells_arrayText hspells), ofTree_items hdepth]
  change _ = Except.ok (as.map Wire.pack) ↔ _
  constructor
  · intro htaken
    exact (List.forall₂_map_right_iff (R := fun t v => (Wire.shape α).ofTree depthLimit t = .ok v)).1
      (forall₂_of_mapM htaken)
  · intro htaken
    apply mapM_of_forall₂
    exact List.forall₂_map_right_iff.2 htaken

/-- A list is refused for the fault of the first item that is refused. -/
theorem decode_arrayText_error {before after : List String} {text : String} {e : Error}
    (h : ∀ text' ∈ before ++ text :: after, NestsWithin 126 text')
    (hbefore : ∀ text' ∈ before, ∃ a, decode α text' = .ok a) (he : decode α text = .error e) :
    ∃ e' said, decode (List α) (arrayText (before ++ text :: after)) = .error e' ∧
      e.Says said ∧ e'.Says said := by
  simp only [List.forall_mem_append, List.forall_mem_cons] at h
  obtain ⟨us, hus, husdepth⟩ := exists_trees h.1
  obtain ⟨t, ht, htdepth⟩ := h.2.1
  obtain ⟨ws, hws, hwsdepth⟩ := exists_trees h.2.2
  have hdepth : ∀ t' ∈ us ++ t :: ws, t'.depth ≤ 126 := by
    simp only [List.forall_mem_append, List.forall_mem_cons]
    exact ⟨husdepth, htdepth, hwsdepth⟩
  have hlist := spells_arrayText (List.rel_append hus (.cons ht hws))
  cases hfault : (Wire.shape α).ofTree depthLimit t with
  | ok v =>
    have hok : decode α text = .ok (Wire.unpack v) :=
      (decodeBytes_spells ht).2 (hfault.trans (congrArg _ (Wire.pack_unpack v).symm))
    rw [hok] at he
    cases he
  | error fault =>
    have htaken : ∀ u ∈ us, ∃ v, (Wire.shape α).ofTree depthLimit u = .ok v := by
      intro u hu
      obtain ⟨text', htext', hspells⟩ := forall₂_mem_right hus u hu
      obtain ⟨a, ha⟩ := hbefore text' htext'
      exact ⟨Wire.pack a, (decodeBytes_spells hspells).1 ha⟩
    have hrefused : (Wire.shape (List α)).ofTree depthLimit (.array (us ++ t :: ws)) = .error fault := by
      rw [ofTree_items hdepth]
      exact mapM_append_cons_error htaken hfault
    obtain ⟨e', he', hsays⟩ := says_of_refusedFor ((decodeBytes_refusedFor hlist).2 hrefused)
    obtain ⟨e'', he'', hsays'⟩ := says_of_refusedFor ((decodeBytes_refusedFor ht).2 hfault)
    cases he.symm.trans he''
    exact ⟨e', _, he', hsays', hsays⟩

/-! ## 2. What is shown of a list -/

theorem encodePretty_list (as : List α) : encodePretty as = onLines (as.map encodePretty) := by
  change (Json.array ((as.map Wire.pack).map (Wire.shape α).toJson)).pretty = _
  rw [pretty_array, List.map_map, List.map_map]
  rfl

/-- What a client sees of a text that is read as a value of a type. -/
def shown (α : Type) [Wire α] (text : String) : Except Error String := (decode α text).map encodePretty

theorem shown_eq_ok {text out : String} :
    shown α text = .ok out ↔ ∃ a, decode α text = .ok a ∧ encodePretty a = out := by
  rw [shown]
  cases decode α text with
  | error e => simp [Except.map]
  | ok a => simp [Except.map]

theorem shown_eq_error {text : String} {e : Error} : shown α text = .error e ↔ decode α text = .error e := by
  rw [shown]
  cases decode α text with
  | error e => simp [Except.map]
  | ok a => simp [Except.map]

/-- The texts that are shown are those of values that are decoded. -/
theorem forall₂_shown {outs : List String} (h : List.Forall₂ (fun text out => shown α text = .ok out) texts outs) :
    ∃ as, List.Forall₂ (fun text a => decode α text = .ok a) texts as ∧ as.map encodePretty = outs := by
  induction h with
  | nil => exact ⟨[], .nil, rfl⟩
  | cons hout _ ih =>
    obtain ⟨a, ha, rfl⟩ := shown_eq_ok.1 hout
    obtain ⟨as, has, rfl⟩ := ih
    exact ⟨a :: as, .cons ha has, rfl⟩

/-- A list is shown as its items are, one behind the other, and it is refused like the first of them that
is. -/
theorem shown_arrayText (h : ∀ text ∈ texts, NestsWithin 126 text) :
    ((∃ out, shown (List α) (arrayText texts) = .ok out) ↔
      ∀ text ∈ texts, ∃ out, shown α text = .ok out) ∧
    (∀ outs, List.Forall₂ (fun text out => shown α text = .ok out) texts outs →
      shown (List α) (arrayText texts) = .ok (onLines outs)) ∧
    ∀ before text after e, texts = before ++ text :: after →
      (∀ text' ∈ before, ∃ out, shown α text' = .ok out) → shown α text = .error e →
      ∃ e' said, shown (List α) (arrayText texts) = .error e' ∧ e.Says said ∧ e'.Says said := by
  have hshown : ∀ outs, List.Forall₂ (fun text out => shown α text = .ok out) texts outs →
      shown (List α) (arrayText texts) = .ok (onLines outs) := by
    intro outs houts
    obtain ⟨as, has, rfl⟩ := forall₂_shown houts
    exact shown_eq_ok.2 ⟨as, (decode_arrayText h).2 has, encodePretty_list as⟩
  refine ⟨⟨?_, ?_⟩, hshown, ?_⟩
  · rintro ⟨out, hout⟩ text htext
    obtain ⟨as, has, -⟩ := shown_eq_ok.1 hout
    obtain ⟨a, -, ha⟩ := exists_mem_of_mapM (mapM_of_forall₂ ((decode_arrayText h).1 has)) text htext
    exact ⟨encodePretty a, shown_eq_ok.2 ⟨a, ha, rfl⟩⟩
  · intro hitems
    obtain ⟨outs, houts⟩ := exists_mapM hitems
    exact ⟨_, hshown outs (forall₂_of_mapM houts)⟩
  · rintro before text after e rfl hbefore he
    have hdecoded : ∀ text' ∈ before, ∃ a, decode α text' = .ok a := by
      intro text' htext'
      obtain ⟨out, hout⟩ := hbefore text' htext'
      obtain ⟨a, ha, -⟩ := shown_eq_ok.1 hout
      exact ⟨a, ha⟩
    obtain ⟨e', said, he', hsays⟩ := decode_arrayText_error h hdecoded (shown_eq_error.1 he)
    exact ⟨e', said, shown_eq_error.2 he', hsays⟩

end

/-! ## 3. The kinds of lists -/

/-- The kind of the items of a kind of lists. -/
def PayloadKind.item? : PayloadKind → Option PayloadKind
  | catalogs => some catalog
  | engines => some engine
  | nodes => some node
  | _ => none

/-- A list of answers whose items leave one level for it is inspected if each of the items is. What is shown
then are the items in order, each moved to the right as a whole. Otherwise the list is refused like the first
item that is, but for the place of the fault. -/
theorem inspect_arrayText {kind item : PayloadKind} (hkind : kind.item? = some item) {texts : List String}
    (h : ∀ text ∈ texts, NestsWithin 126 text) :
    ((∃ out, inspect kind (arrayText texts) = .ok out) ↔
      ∀ text ∈ texts, ∃ out, inspect item text = .ok out) ∧
    (∀ outs, List.Forall₂ (fun text out => inspect item text = .ok out) texts outs →
      inspect kind (arrayText texts) = .ok (onLines outs)) ∧
    ∀ before text after e, texts = before ++ text :: after →
      (∀ text' ∈ before, ∃ out, inspect item text' = .ok out) → inspect item text = .error e →
      ∃ e' said, inspect kind (arrayText texts) = .error e' ∧ e.Says said ∧ e'.Says said := by
  cases kind with
  | catalogs =>
    cases hkind
    exact shown_arrayText (α := Response.Catalog) h
  | engines =>
    cases hkind
    exact shown_arrayText (α := Response.Engine) h
  | nodes =>
    cases hkind
    exact shown_arrayText (α := Response.Node) h
  | _ => cases hkind

/-- An engine that is given as an object, one that is given as an array, and a text that is refused. -/
theorem inspect_arrayText_engines :
    let texts := ["\x7b\"name\":\"a\"\x7d", "[\"b\"]"]
    (∀ text ∈ texts ++ ["true"], NestsWithin 126 text) ∧
      inspect .engines (arrayText texts) =
        .ok ("[\n  \x7b\n    \"name\": \"a\",\n    \"version\": null,\n    \"uri\": null,\n" ++
          "    \"dialect\": null\n  \x7d,\n  \x7b\n    \"name\": \"b\",\n    \"version\": null,\n" ++
          "    \"uri\": null,\n    \"dialect\": null\n  \x7d\n]") ∧
      ¬ ∃ out, inspect .engines (arrayText (texts ++ ["true"])) = .ok out := by
  intro texts
  have hnests : ∀ text ∈ texts ++ ["true"], NestsWithin 126 text := by
    simp only [texts, List.cons_append, List.nil_append, List.forall_mem_cons]
    refine ⟨?_, ?_, ?_, nofun⟩
    · exact nestsWithin_of_eq_compact (j := .object [("name", .string "a")]) (by decide +kernel)
        (by repeat' constructor) (by decide)
    · exact nestsWithin_of_eq_compact (j := .array [.string "b"]) (by decide +kernel)
        (by repeat' constructor) (by decide)
    · exact nestsWithin_of_eq_compact (j := .boolean true) (by decide +kernel) trivial (by decide)
  have hfirst : decode Response.Engine "\x7b\"name\":\"a\"\x7d" = .ok { name := some "a" } :=
    (decode_eq_ok (parse_of_eq_compact (j := .object [("name", .string "a")]) (by decide +kernel)
      (by repeat' constructor) (by decide))).2 rfl
  have hsecond : decode Response.Engine "[\"b\"]" = .ok { name := some "b" } :=
    (decode_eq_ok (parse_of_eq_compact (j := .array [.string "b"]) (by decide +kernel)
      (by repeat' constructor) (by decide))).2 rfl
  refine ⟨hnests, ?_, ?_⟩
  · have hall := (@inspect_arrayText .engines .engine rfl _
      fun text htext => hnests text (List.mem_append_left _ htext)).2.1 _
      (.cons (inspect_eq_ok.2 ⟨_, hfirst, rfl⟩) (.cons (inspect_eq_ok.2 ⟨_, hsecond, rfl⟩) .nil))
    have hlist := encodePretty_list [({ name := some "a" } : Response.Engine), { name := some "b" }]
    refine hall.trans (congrArg Except.ok (hlist.symm.trans ?_))
    decide +kernel
  · rw [(@inspect_arrayText .engines .engine rfl _ hnests).1]
    intro hitems
    obtain ⟨out, hout⟩ := hitems "true" (by decide)
    obtain ⟨engine, hengine, -⟩ := inspect_eq_ok.1 hout
    have hparse : parse "true" = .ok (.boolean true) :=
      parse_of_eq_compact (by decide +kernel) trivial (by decide)
    cases (decode_eq_ok hparse).1 hengine

end MetricCatalog
