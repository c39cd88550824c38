import MetricCatalog.Proofs.Schema.Cut

/-!
# Extent — where a text of records ends

A text that ends too early is refused for that, and one that goes on behind a complete value is refused
for its trailing characters, unless these are whitespace. So neither is ever taken for the complete one.
-/

namespace MetricCatalog

open Json Json.Scan Json.Tree Shape

/-! ## 1. Values between brackets -/

theorem Shape.Bracketed.not_isScalar {s : Shape} (hs : s.Bracketed) {room : Nat} {t : Tree}
    {v : s.Value} (h : s.ofTree room t = .ok v) : ¬ t.IsScalar := by
  -- A scalar is refused for its type by each of these shapes, if not for a fault of its own.
  intro ht
  cases s with
  | list item =>
    cases t with
    | array ts => exact ht
    | _ => exact wrongTree_ne_ok h
  | record name fields =>
    cases t with
    | array ts => exact ht
    | object ms => exact ht
    | _ => exact wrongTree_ne_ok h
  | wrapped key item =>
    cases t with
    | array ts => exact ht
    | object ms => exact ht
    | _ => exact wrongTree_ne_ok h
  | _ => exact hs

/-- What brackets enclose is not read of a text that is cut anywhere before the last of them. -/
theorem Shape.cutsShort {s : Shape} (hb : s.Bracketed) (hs : s.Distinct) {room : Nat} {t : Tree}
    {v : s.Value} (h : t.document room = .ok (s.toJson v)) (hfloat : (s.toJson v).FloatFree) :
    CutsShort (s.read room) t.tokens := by
  intro q r hq hr
  obtain hended | ⟨a, ha⟩ := s.cuts hs room t v h hfloat q r hq hr
  · exact hended
  · -- What had been read of the cut text would be read of the whole text too, and leave the rest of it.
    obtain ⟨u, front, hfront, hlaid, hu⟩ := s.finds room _ _ _ ha
    rw [List.append_nil] at hfront
    subst hfront
    have hshort := s.readsClosed hb room (hb.not_isScalar hu) q r hlaid
    have hwhole := s.reads room t (q ++ r) [] hq (delimited_blank blank_nil)
    rw [hu] at hshort
    rw [Shape.ofTree_toJson hs h, List.append_nil, hshort] at hwhole
    exact absurd (Prod.mk.inj (Except.ok.inj hwhole)).2 hr

/-! ## 2. Whole texts -/

variable {α : Type}

/-- The result is an error of JSON with a fault of this category. -/
def Refused (r : Except Error α) (category : Category) : Prop :=
  ∃ refusal, r = .error (.json refusal) ∧ refusal.fault.category = category

section

variable [Wire α]

theorem decodeBytes_refused {bytes : Bytes} {fault : Fault}
    (h : outcome ((Wire.shape α).read depthLimit).whole bytes = .error fault) :
    Refused (decodeBytes α bytes) fault.category := by
  unfold outcome at h
  unfold decodeBytes Scan.run
  cases hread : ((Wire.shape α).read depthLimit).whole bytes with
  | ok r =>
    rw [hread] at h
    cases h
  | error failure =>
    rw [hread] at h
    cases h
    exact ⟨failure.refusal bytes, rfl, rfl⟩

/-- Where nothing has been read of a cut text, it is refused for having ended too early. -/
theorem decodeBytes_unfinished {bytes : Bytes}
    (h : Ended (outcome ((Wire.shape α).read depthLimit) bytes)) :
    Refused (decodeBytes α bytes) .unfinished := by
  obtain ⟨what, hwhat⟩ := h.bind _
  exact decodeBytes_refused hwhat

/-- Behind a complete value there may be blanks and nothing else. -/
theorem decodeBytes_append (hb : (Wire.shape α).Bracketed) {bytes : Bytes} {a : α}
    (h : decodeBytes α bytes = .ok a) (more : Bytes) :
    (Blank more → decodeBytes α (bytes ++ more) = .ok a) ∧
      (¬ Blank more → Refused (decodeBytes α (bytes ++ more)) .malformed) := by
  obtain ⟨t, ⟨front, trail, rfl, hfront, htrail⟩, ht⟩ := decodeBytes_iff.1 h
  constructor
  · intro hmore
    have hspells : t.Spells ((front ++ trail) ++ more) :=
      ⟨front, trail ++ more, List.append_assoc _ _ _, hfront, Json.blank_append htrail hmore⟩
    exact (decodeBytes_spells hspells).2 ht
  · intro hmore
    have hread := (Wire.shape α).readsClosed hb depthLimit (hb.not_isScalar ht) front (trail ++ more) hfront
    rw [ht] at hread
    have hwhole : outcome ((Wire.shape α).read depthLimit).whole ((front ++ trail) ++ more) =
        .error (.malformed .trailingCharacters) := by
      rw [whole, List.append_assoc, outcome_seq hread]
      -- What comes next is something, since it is not all blanks.
      have hnext : outcome next? (trail ++ more) =
          .ok (((trail ++ more).dropWhile isBlank).head?.map ascii, (trail ++ more).dropWhile isBlank) := rfl
      obtain ⟨gap, hgap, hsplit, -⟩ := next_inv hnext
      rw [outcome_seq hnext]
      cases hrest : (trail ++ more).dropWhile isBlank with
      | nil =>
        rw [hrest, List.append_nil] at hsplit
        exact absurd (fun b hb => hgap b (hsplit ▸ List.mem_append_right _ hb)) hmore
      | cons b rest => rfl
    exact decodeBytes_refused hwhole

end

/-! ## 3. Whitespace -/

/-- The whitespace of JSON. -/
def IsWhitespace (c : Char) : Prop := c = ' ' ∨ c = '\t' ∨ c = '\n' ∨ c = '\r'

theorem blank_utf8EncodeChar {c : Char} : Blank (String.utf8EncodeChar c) ↔ IsWhitespace c := by
  constructor
  · intro h
    by_cases hascii : c.toNat < 0x80
    · rw [Utf8.utf8EncodeChar_of_lt hascii] at h
      have hblank := h _ List.mem_cons_self
      have hnat : (UInt8.ofNat c.toNat).toNat = c.toNat := Utf8.toNat_ofNat (by omega)
      have hcases : c.toNat = 0x20 ∨ c.toNat = 0x09 ∨ c.toNat = 0x0A ∨ c.toNat = 0x0D := by
        simp only [isBlank, Bool.or_eq_true, decide_eq_true_eq, ← UInt8.toNat_inj, hnat] at hblank
        obtain ((h | h) | h) | h := hblank
        · exact .inl h
        · exact .inr (.inl h)
        · exact .inr (.inr (.inl h))
        · exact .inr (.inr (.inr h))
      obtain h | h | h | h := hcases
      · exact .inl (Char.toNat_inj.1 h)
      · exact .inr (.inl (Char.toNat_inj.1 h))
      · exact .inr (.inr (.inl (Char.toNat_inj.1 h)))
      · exact .inr (.inr (.inr (Char.toNat_inj.1 h)))
    · -- Beyond ASCII no byte is a blank, and there is at least one.
      obtain ⟨b, hb⟩ := List.exists_mem_of_ne_nil _ (String.utf8EncodeChar_ne_nil (c := c))
      have hle := Utf8.le_of_mem_utf8EncodeChar (Nat.not_lt.1 hascii) hb
      have hblank := h b hb
      simp only [isBlank, Bool.or_eq_true, decide_eq_true_eq] at hblank
      obtain ((rfl | rfl) | rfl) | rfl := hblank <;> exact absurd hle (by decide)
  · rintro (rfl | rfl | rfl | rfl) b hb
    all_goals
      cases List.mem_singleton.1 hb
      rfl

theorem blank_encode {s : List Char} : Blank (Utf8.encode s) ↔ ∀ c ∈ s, IsWhitespace c := by
  induction s with
  | nil => exact ⟨fun _ => nofun, fun _ => blank_nil⟩
  | cons c s ih =>
    rw [Utf8.encode_cons, List.forall_mem_cons, ← blank_utf8EncodeChar, ← ih]
    exact List.forall_mem_append

/-! ## 4. Payloads -/

theorem PayloadType.bracketed (T : PayloadType) : T.shape.Bracketed := by
  cases T with
  | one T => cases T <;> exact trivial
  | many T => exact trivial

/-- Cut anywhere, what is written in either layout is refused for having ended too early. -/
theorem PayloadType.decodeBytes_cut (T : PayloadType) {v : T.Value} (hfloat : (Wire.toJson v).FloatFree)
    (hdepth : (Wire.toJson v).depth ≤ depthLimit) {l : Layout} (hl : l.IsBlank) {q s : Bytes}
    (hq : q ++ s = Utf8.encode (l.render 0 (Wire.toJson v))) (hs : s ≠ []) :
    Refused (decodeBytes T.Value q) .unfinished := by
  obtain ⟨t, hlaid, hvalue⟩ := exists_tree hl (Wire.toJson v) 0
  have hdocument := hvalue hfloat depthLimit hdepth
  rw [← hq] at hlaid
  exact decodeBytes_unfinished (T.shape.cutsShort T.bracketed T.distinct hdocument hfloat q s hlaid hs)

/-- A text that has been cut off is refused for having ended too early, wherever it has been cut, and a
text that goes on behind a complete value is refused for that. Only whitespace may stand behind it. -/
theorem decode_cut_append (T : PayloadType) :
    (∀ v : T.Value, (Wire.toJson v).FloatFree → (Wire.toJson v).depth ≤ depthLimit →
      ∀ text ∈ [encode v, encodePretty v],
        (∀ q s : String, text = q ++ s → s ≠ "" → Refused (decode T.Value q) .unfinished) ∧
          ∀ q s : Bytes, Utf8.encode text.toList = q ++ s → s ≠ [] →
            Refused (decodeBytes T.Value q) .unfinished) ∧
      ∀ (text s : String) (v : T.Value), decode T.Value text = .ok v →
        ((∀ c ∈ s.toList, IsWhitespace c) → decode T.Value (text ++ s) = .ok v) ∧
          (¬ (∀ c ∈ s.toList, IsWhitespace c) → Refused (decode T.Value (text ++ s)) .malformed) := by
  constructor
  · intro v hfloat hdepth text htext
    have hbytes : ∀ q s : Bytes, Utf8.encode text.toList = q ++ s → s ≠ [] →
        Refused (decodeBytes T.Value q) .unfinished := by
      intro q s hq hs
      rw [List.mem_cons, List.mem_singleton] at htext
      obtain rfl | rfl := htext
      · rw [encode, compact, String.toList_ofList] at hq
        exact T.decodeBytes_cut hfloat hdepth Layout.isBlank_compact hq.symm hs
      · rw [encodePretty, pretty, String.toList_ofList] at hq
        exact T.decodeBytes_cut hfloat hdepth Layout.isBlank_pretty hq.symm hs
    refine ⟨fun q s hq hs => ?_, hbytes⟩
    -- A text that is cut between characters is cut between bytes.
    refine hbytes (Utf8.encode q.toList) (Utf8.encode s.toList) ?_ fun hnil => hs ?_
    · rw [hq, String.toList_append, Utf8.encode_append]
    · have hdecoded := Utf8.decode_encode s.toList
      rw [hnil] at hdecoded
      rw [← String.ofList_toList (s := s), ← (Prod.mk.inj hdecoded).1]
      rfl
  · intro text s v h
    have happend := decodeBytes_append T.bracketed h (Utf8.encode s.toList)
    rw [← Utf8.encode_append, ← String.toList_append, blank_encode] at happend
    exact happend

/-- A column is cut behind the first of the two bytes of a character and behind a minus sign, and goes on
behind its closing brace. -/
theorem decode_cut_append_column :
    let column : Response.Node.Column :=
      { name := some "é"
        partition := some ⟨.array [.number (.int ⟨-7, by decide, by decide⟩)], trivial, trivial⟩ }
    Refused (decodeBytes Response.Node.Column ((Utf8.encode (encode column).toList).take 10)) .unfinished ∧
      Refused (decode Response.Node.Column ("\x7b\"name\":\"é\",\"display_name\":null,\"type\":null," ++
        "\"attributes\":null,\"dimension\":null,\"partition\":[-")) .unfinished ∧
      decode Response.Node.Column (encode column ++ " \n") = .ok column ∧
      Refused (decode Response.Node.Column (encode column ++ "\x7d")) .malformed := by
  intro column
  have hfloat : (Wire.toJson column).FloatFree := by repeat' constructor
  have hdepth : (Wire.toJson column).depth ≤ depthLimit := by decide
  have hcut := (decode_cut_append (.one .nodeColumn)).1 column hfloat hdepth (encode column)
    List.mem_cons_self
  have hdecode : decode Response.Node.Column (encode column) = .ok column :=
    (decode_eq_ok (parse_compact hfloat hdepth)).2 rfl
  have hmore := fun s => (decode_cut_append (.one .nodeColumn)).2 (encode column) s column hdecode
  refine ⟨hcut.2 _ _ (List.take_append_drop 10 _).symm (by decide +kernel),
    hcut.1 _ "7]\x7d" (by decide +kernel) (by decide), (hmore " \n").1 ?_, (hmore "\x7d").2 ?_⟩
  · intro c hc
    have hcases : c = ' ' ∨ c = '\n' := by simpa using hc
    obtain rfl | rfl := hcases
    · exact .inl rfl
    · exact .inr (.inr (.inl rfl))
  · intro h
    exact absurd (h '\x7d' (by decide)) (by unfold IsWhitespace; decide)

end MetricCatalog
