import MetricCatalog.Proofs.Json.Layouts
import MetricCatalog.Proofs.Json.Rendered
import MetricCatalog.Proofs.Json.Skip

/-!
# Members — an object by its texts

An object can be taken apart without reading its values: each of them is passed over and its text is kept.
What is written for an object comes apart into the keys that went in and the texts of their values, whatever
characters these hold.
-/

namespace MetricCatalog.Json

open Scan

/-! ## 1. Taking apart -/

/-- Passes over a value and keeps its text. -/
def rawValue : Scan String := do
  blanks
  fun bytes => do
    let ((), rest) ← skip bytes
    match Utf8.decode (bytes.take (bytes.length - rest.length)) with
    | (s, []) => return (String.ofList s, rest)
    | _ => fail (.malformed .codePoint) rest

/-- Reads a member from inside its key on, in front of those found before. -/
def rawMember (found : List (String × String)) : Scan (List (String × String)) := do
  let key ← Literal.read
  colon
  return (key, ← rawValue) :: found

/-- The members of an object in the order of the text, each with the text of its value. -/
def rawMembers : Scan (List (String × String)) := do
  match ← next? with
  | some '\x7b' => do
    advance
    return (← members rawMember []).reverse
  | _ => failAtNext (.malformed .valueWanted)

/-- The members of the object that a text spells. -/
def membersOf (text : String) : Except Refusal (List (String × String)) :=
  Scan.run rawMembers (Utf8.encode text.toList)

/-! ## 2. Values -/

/-- No blank stands in front of a document. -/
theorem isBlank_head_compact (j : Json) (depth : Nat) :
    ∀ b ∈ (Utf8.encode (Layout.compact.render depth j)).head?, isBlank b = false := by
  have hvisible := (Layout.tight_compact j depth).visible
  cases hrender : Layout.compact.render depth j with
  | nil => nofun
  | cons c cs =>
    rw [hrender] at hvisible
    -- The first character stands outside of all literals, so it is visible, and its byte is not a blank.
    have hc : Visible c := hvisible (.outside, c) List.mem_cons_self rfl
    unfold Visible at hc
    intro b hb
    rw [Utf8.encode_cons, Utf8.utf8EncodeChar_of_lt (by omega)] at hb
    obtain rfl := Option.some.inj hb
    have hnat : (UInt8.ofNat c.toNat).toNat = c.toNat := by
      rw [UInt8.toNat_ofNat']
      omega
    have hne : ∀ d : UInt8, d.toNat ≤ 0x20 → UInt8.ofNat c.toNat ≠ d := by
      intro d hd h
      rw [← h, hnat] at hd
      omega
    simp only [isBlank, hne 0x20 (by decide), hne 0x09 (by decide), hne 0x0A (by decide),
      hne 0x0D (by decide), decide_false, Bool.or_self]

/-- A value is passed over from its first byte to its last. -/
theorem outcome_rawValue (j : Json) (depth : Nat) {rest : Bytes} (hrest : Delimited rest) :
    outcome rawValue (Utf8.encode (Layout.compact.render depth j) ++ rest) =
      .ok (String.ofList (Layout.compact.render depth j), rest) := by
  have hhead := isBlank_head_compact j depth
  obtain ⟨t, hlaid, -⟩ := exists_tree Layout.isBlank_compact j depth
  have hskip := reads_skip t _ rest hlaid hrest
  generalize hfront : Utf8.encode (Layout.compact.render depth j) = front at *
  have hnonempty : front ≠ [] := by
    rintro rfl
    have := hlaid.length_le (tokens_ne_nil t)
    exact t.tokens_nonempty (List.eq_nil_of_length_eq_zero (Nat.le_zero.1 this))
  have hblanks : outcome blanks (front ++ rest) = .ok ((), front ++ rest) := by
    obtain ⟨b, bs, rfl⟩ := List.exists_cons_of_ne_nil hnonempty
    have hb : ¬ isBlank b = true := by simp [hhead b rfl]
    show Except.ok ((), (b :: bs ++ rest).dropWhile isBlank) = _
    rw [List.cons_append, List.dropWhile_cons_of_neg hb]
  have hraw : skip (front ++ rest) = .ok ((), rest) := by
    unfold outcome at hskip
    split at hskip
    · next h => rw [h, Except.ok.inj hskip]
    · cases hskip
  have hkept : (front ++ rest).take ((front ++ rest).length - rest.length) = front := by
    rw [List.length_append, Nat.add_sub_cancel, List.take_left]
  have hdecode : Utf8.decode front = (Layout.compact.render depth j, []) := by
    rw [← hfront, Utf8.decode_encode]
  unfold rawValue
  rw [outcome_seq hblanks]
  unfold outcome
  simp only [hraw, bind, Except.bind, hkept, hdecode]
  rfl

/-! ## 3. Objects -/

/-- A member as it is written without blanks. -/
def compactMember (m : String × Json) : List Char := literal m.1 ++ ':' :: m.2.compact.toList

theorem renderMembers_compact (ms : List (String × Json)) (depth : Nat) :
    Layout.compact.renderMembers depth ms = ms.map compactMember := by
  rw [Layout.renderMembers_eq_map]
  refine List.map_congr_left fun m _ => ?_
  rw [compactMember, compact, String.toList_ofList, Layout.render_compact_eq m.2 depth 0, List.append_assoc]
  rfl

/-- A member is read from inside its key on. -/
theorem outcome_rawMember (m : String × Json) {ps : List Literal.Piece} (hps : Literal.text ps = .ok m.1)
    (found : List (String × String)) {rest : Bytes} (hrest : Delimited rest) :
    outcome (rawMember found) (Literal.inside ps ++ 0x3A :: (Utf8.encode m.2.compact.toList ++ rest)) =
      .ok ((m.1, m.2.compact) :: found, rest) := by
  have hcolon (bs : Bytes) : outcome colon (0x3A :: bs) = .ok ((), bs) := by
    obtain ⟨front, hcolon, hnil⟩ := (laid_single blank_nil [0x3A]).outcome_colon bs
    rwa [hnil.nil_inv] at hcolon
  unfold rawMember
  rw [outcome_bind, Literal.outcome_read, hps]
  show outcome (colon >>= _) _ = _
  rw [outcome_seq (hcolon _), compact, String.toList_ofList, outcome_seq (outcome_rawValue m.2 0 hrest)]
  rfl

/-- What is written behind a member that others follow. -/
def compactRest (ms : List (String × Json)) : List Char := ms.flatMap (',' :: compactMember ·) ++ ['\x7d']

theorem encode_compactMember {m : String × Json} {ps : List Literal.Piece}
    (hps : Literal.bytes ps = Utf8.encode (literal m.1)) :
    Utf8.encode (compactMember m) = Literal.bytes ps ++ 0x3A :: Utf8.encode m.2.compact.toList := by
  rw [compactMember, Utf8.encode_append, ← hps]
  rfl

theorem encode_compactRest_cons {m : String × Json} {ms : List (String × Json)} {ps : List Literal.Piece}
    (hps : Literal.bytes ps = Utf8.encode (literal m.1)) :
    Utf8.encode (compactRest (m :: ms)) = [0x2C] ++ Literal.bytes ps ++
      0x3A :: (Utf8.encode m.2.compact.toList ++ Utf8.encode (compactRest ms)) := by
  rw [compactRest, List.flatMap_cons, List.append_assoc, Utf8.encode_append, Utf8.encode_cons,
    encode_compactMember hps]
  simp only [List.append_assoc, List.cons_append]
  rfl

theorem delimited_compactRest (ms : List (String × Json)) : Delimited (Utf8.encode (compactRest ms)) := by
  cases ms with
  | nil =>
    rintro b hb
    obtain rfl := Option.some.inj hb
    exact .inr (.inr (.inr rfl))
  | cons m ms =>
    rintro b hb
    obtain rfl := Option.some.inj hb
    exact .inr (.inl rfl)

/-- A comma stands before each further member. -/
theorem length_lt_compactRest (ms : List (String × Json)) :
    ms.length < (Utf8.encode (compactRest ms)).length := by
  induction ms with
  | nil => exact Nat.one_pos
  | cons m ms ih =>
    obtain ⟨ps, hbytes, -⟩ := Literal.exists_pieces m.1
    rw [encode_compactRest_cons hbytes]
    simp only [List.length_append, List.length_cons]
    omega

/-- All members from here on, the first of them from inside its key. -/
theorem outcome_foldRawMembers (ms : List (String × Json)) (m : String × Json) {ps : List Literal.Piece}
    (hps : Literal.text ps = .ok m.1) {fuel : Bytes} (hfuel : ms.length < fuel.length)
    (found : List (String × String)) :
    outcome (foldMembers rawMember fuel found) (Literal.inside ps ++
        0x3A :: (Utf8.encode m.2.compact.toList ++ Utf8.encode (compactRest ms))) =
      .ok (((m :: ms).map fun m => (m.1, m.2.compact)).reverse ++ found, []) := by
  induction fuel generalizing m ms ps found with
  | nil => exact absurd hfuel (Nat.not_lt_zero _)
  | cons f fuel ih =>
    rw [foldMembers, outcome_seq (outcome_rawMember m hps found (delimited_compactRest ms))]
    cases ms with
    | nil =>
      show outcome (nextMember >>= _) ([] ++ [0x7D] ++ []) = _
      rw [outcome_seq (outcome_nextMember_closing (laid_single blank_nil [0x7D]) [])]
      rfl
    | cons n ms =>
      obtain ⟨qs, hbytes, hqs⟩ := Literal.exists_pieces n.1
      rw [encode_compactRest_cons hbytes]
      have hlaid : Laid [[0x2C], Literal.bytes qs] ([0x2C] ++ Literal.bytes qs) :=
        (laid_single blank_nil [0x2C]).append (laid_single blank_nil _)
      obtain ⟨front, hnext, hnil⟩ := outcome_nextMember_key hlaid
        (0x3A :: (Utf8.encode n.2.compact.toList ++ Utf8.encode (compactRest ms)))
      rw [hnil.nil_inv, List.nil_append] at hnext
      rw [outcome_seq hnext]
      show outcome (foldMembers rawMember fuel _) _ = _
      rw [ih ms n hqs (Nat.lt_of_succ_lt_succ hfuel)]
      simp

theorem render_object_compact (m : String × Json) (ms : List (String × Json)) :
    (compact (.object (m :: ms))).toList = '\x7b' :: (compactMember m ++ compactRest ms) := by
  rw [compact, String.toList_ofList, Layout.render, renderMembers_compact]
  simp [Layout.enclose, Layout.compact, compactRest, List.flatMap_map]

theorem outcome_rawMembers (ms : List (String × Json)) :
    outcome rawMembers (Utf8.encode (compact (.object ms)).toList) =
      .ok (ms.map fun m => (m.1, m.2.compact), []) := by
  cases ms with
  | nil => rfl
  | cons m ms =>
    obtain ⟨ps, hbytes, hps⟩ := Literal.exists_pieces m.1
    rw [render_object_compact, Utf8.encode_cons, Utf8.encode_append, encode_compactMember hbytes,
      List.append_assoc, List.cons_append]
    generalize hbehind :
      0x3A :: (Utf8.encode m.2.compact.toList ++ Utf8.encode (compactRest ms)) = behind
    obtain ⟨front, hfirst, hnil⟩ :=
      outcome_firstMember_key (laid_single blank_nil (Literal.bytes ps)) behind
    rw [hnil.nil_inv, List.nil_append, List.nil_append] at hfirst
    have hfuel : ms.length < (0 :: (Literal.inside ps ++ behind)).length := by
      have := length_lt_compactRest ms
      simp only [← hbehind, List.length_cons, List.length_append]
      omega
    have hmembers : outcome (members rawMember []) (Literal.bytes ps ++ behind) =
        .ok (((m :: ms).map fun m => (m.1, m.2.compact)).reverse, []) := by
      unfold members
      rw [outcome_seq hfirst]
      show outcome (withFuel fun fuel => foldMembers rawMember fuel []) _ = _
      rw [outcome_withFuel, ← hbehind, outcome_foldRawMembers ms m hps (hbehind ▸ hfuel),
        List.append_nil]
    have hnext := outcome_next blank_nil (show isBlank 0x7B = false from rfl) (Literal.bytes ps ++ behind)
    unfold rawMembers
    show outcome (next? >>= _) ([] ++ 0x7B :: (Literal.bytes ps ++ behind)) = _
    rw [outcome_seq hnext]
    show outcome (advance >>= _) _ = _
    rw [outcome_seq (outcome_advance _ _), outcome_seq hmembers, List.reverse_reverse]
    rfl

/-- What is written for an object comes apart into its keys and the texts of their values. -/
theorem membersOf_compact (ms : List (String × Json)) :
    membersOf (compact (.object ms)) = .ok (ms.map fun m => (m.1, m.2.compact)) := by
  have hread : outcome rawMembers (Utf8.encode (compact (.object ms)).toList) =
      (Except.ok (ms.map fun m => (m.1, m.2.compact))).map (·, []) := outcome_rawMembers ms
  exact run_eq_ok.2 ⟨[], outcome_whole hread blank_nil⟩

end MetricCatalog.Json
