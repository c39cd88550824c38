import MetricCatalog.Text.Utf8

/-!
# UTF-8 — what is encoded is decoded again
-/

namespace MetricCatalog.Utf8

/-! ## 1. One character -/

theorem toNat_ofNat {n : Nat} (h : n < 256) : (UInt8.ofNat n).toNat = n := by
  rw [UInt8.toNat_ofNat']
  omega

theorem continuation?_ofNat {n : Nat} (h : n < 64) :
    continuation? (UInt8.ofNat (n + 0x80)) = some n := by
  have hn : (UInt8.ofNat (n + 0x80)).toNat = n + 0x80 := toNat_ofNat (by omega)
  rw [continuation?, hn, if_pos ⟨by omega, by omega⟩]
  exact congrArg some (by omega)

theorem character?_toNat {c : Char} {least : Nat} (h : least ≤ c.toNat) :
    character? least c.toNat = some c := by
  rw [character?, if_pos ⟨h, c.valid⟩, Char.ofNat_toNat]

theorem two?_eq_none {a b : UInt8} (h : 0xE0 ≤ a.toNat) : two? a b = none := by
  rw [two?, if_neg (by omega)]

theorem three?_eq_none {a b c : UInt8} (h : 0xF0 ≤ a.toNat) : three? a b c = none := by
  rw [three?, if_neg (by omega)]

theorem two?_encoded {c : Char} (hlo : 0x80 ≤ c.toNat) (hhi : c.toNat < 0x800) :
    two? (UInt8.ofNat (c.toNat / 64 % 0x20 + 0xC0)) (UInt8.ofNat (c.toNat % 0x40 + 0x80)) =
      some c := by
  have ha : (UInt8.ofNat (c.toNat / 64 % 0x20 + 0xC0)).toNat = c.toNat / 64 % 0x20 + 0xC0 :=
    toNat_ofNat (by omega)
  have hb := continuation?_ofNat (n := c.toNat % 0x40) (by omega)
  have hn : (c.toNat / 64 % 0x20 + 0xC0 - 0xC0) * 64 + c.toNat % 0x40 = c.toNat := by omega
  rw [two?, ha, if_pos ⟨by omega, by omega⟩, hb]
  show character? 0x80 ((c.toNat / 64 % 0x20 + 0xC0 - 0xC0) * 64 + c.toNat % 0x40) = _
  rw [hn, character?_toNat hlo]

theorem three?_encoded {c : Char} (hlo : 0x800 ≤ c.toNat) (hhi : c.toNat < 0x10000) :
    three? (UInt8.ofNat (c.toNat / 4096 % 0x10 + 0xE0)) (UInt8.ofNat (c.toNat / 64 % 0x40 + 0x80))
      (UInt8.ofNat (c.toNat % 0x40 + 0x80)) = some c := by
  have ha : (UInt8.ofNat (c.toNat / 4096 % 0x10 + 0xE0)).toNat = c.toNat / 4096 % 0x10 + 0xE0 :=
    toNat_ofNat (by omega)
  have hb := continuation?_ofNat (n := c.toNat / 64 % 0x40) (by omega)
  have hc := continuation?_ofNat (n := c.toNat % 0x40) (by omega)
  have hn : ((c.toNat / 4096 % 0x10 + 0xE0 - 0xE0) * 64 + c.toNat / 64 % 0x40) * 64 +
      c.toNat % 0x40 = c.toNat := by omega
  rw [three?, ha, if_pos ⟨by omega, by omega⟩, hb, hc]
  show character? 0x800 (((c.toNat / 4096 % 0x10 + 0xE0 - 0xE0) * 64 + c.toNat / 64 % 0x40) * 64 +
    c.toNat % 0x40) = _
  rw [hn, character?_toNat hlo]

theorem four?_encoded {c : Char} (hlo : 0x10000 ≤ c.toNat) (hhi : c.toNat < 0x110000) :
    four? (UInt8.ofNat (c.toNat / 262144 % 0x08 + 0xF0)) (UInt8.ofNat (c.toNat / 4096 % 0x40 + 0x80))
      (UInt8.ofNat (c.toNat / 64 % 0x40 + 0x80)) (UInt8.ofNat (c.toNat % 0x40 + 0x80)) = some c := by
  have ha : (UInt8.ofNat (c.toNat / 262144 % 0x08 + 0xF0)).toNat = c.toNat / 262144 % 0x08 + 0xF0 :=
    toNat_ofNat (by omega)
  have hb := continuation?_ofNat (n := c.toNat / 4096 % 0x40) (by omega)
  have hc := continuation?_ofNat (n := c.toNat / 64 % 0x40) (by omega)
  have hd := continuation?_ofNat (n := c.toNat % 0x40) (by omega)
  have hn : (((c.toNat / 262144 % 0x08 + 0xF0 - 0xF0) * 64 + c.toNat / 4096 % 0x40) * 64 +
      c.toNat / 64 % 0x40) * 64 + c.toNat % 0x40 = c.toNat := by omega
  rw [four?, ha, if_pos ⟨by omega, by omega⟩, hb, hc, hd]
  show character? 0x10000
    ((((c.toNat / 262144 % 0x08 + 0xF0 - 0xF0) * 64 + c.toNat / 4096 % 0x40) * 64 +
      c.toNat / 64 % 0x40) * 64 + c.toNat % 0x40) = _
  rw [hn, character?_toNat hlo]

theorem decodeFrom_one {done : List Char} {a : UInt8} {rest : Bytes} (ha : a.toNat < 0x80) :
    decodeFrom done (a :: rest) = decodeFrom (Char.ofNat a.toNat :: done) rest := by
  rw [decodeFrom.eq_def]
  exact if_pos ha

theorem decodeFrom_two {done : List Char} {a b : UInt8} {rest : Bytes} {x : Char}
    (ha : ¬ a.toNat < 0x80) (h : two? a b = some x) :
    decodeFrom done (a :: b :: rest) = decodeFrom (x :: done) rest := by
  rw [decodeFrom.eq_def]
  simp only [if_neg ha, h]

theorem decodeFrom_three {done : List Char} {a b c : UInt8} {rest : Bytes} {x : Char}
    (ha : ¬ a.toNat < 0x80) (htwo : two? a b = none) (h : three? a b c = some x) :
    decodeFrom done (a :: b :: c :: rest) = decodeFrom (x :: done) rest := by
  rw [decodeFrom.eq_def]
  simp only [if_neg ha, htwo, h]

theorem decodeFrom_four {done : List Char} {a b c d : UInt8} {rest : Bytes} {x : Char}
    (ha : ¬ a.toNat < 0x80) (htwo : two? a b = none) (hthree : three? a b c = none)
    (h : four? a b c d = some x) :
    decodeFrom done (a :: b :: c :: d :: rest) = decodeFrom (x :: done) rest := by
  rw [decodeFrom.eq_def]
  simp only [if_neg ha, htwo, hthree, h]

/-- The character that a first byte and its continuation bytes write comes next. -/
theorem decodeFrom_utf8EncodeChar (done : List Char) (c : Char) (rest : Bytes) :
    decodeFrom done (String.utf8EncodeChar c ++ rest) = decodeFrom (c :: done) rest := by
  have hc : c.val.toNat = c.toNat := rfl
  have hbound : c.toNat < 0x110000 := by
    rcases c.valid with h | h <;> omega
  -- The splits are those of the encoder; shorter sequences are ruled out by the first byte.
  unfold String.utf8EncodeChar
  simp only [hc]
  split
  · have ha : (UInt8.ofNat c.toNat).toNat = c.toNat := toNat_ofNat (by omega)
    rw [List.singleton_append, decodeFrom_one (by omega), ha, Char.ofNat_toNat]
  · split
    · have ha : (UInt8.ofNat (c.toNat / 64 % 0x20 + 0xC0)).toNat = c.toNat / 64 % 0x20 + 0xC0 :=
        toNat_ofNat (by omega)
      exact decodeFrom_two (by omega) (two?_encoded (by omega) (by omega))
    · split
      · have ha : (UInt8.ofNat (c.toNat / 4096 % 0x10 + 0xE0)).toNat = c.toNat / 4096 % 0x10 + 0xE0 :=
          toNat_ofNat (by omega)
        exact decodeFrom_three (by omega) (two?_eq_none (by omega))
          (three?_encoded (by omega) (by omega))
      · have ha : (UInt8.ofNat (c.toNat / 262144 % 0x08 + 0xF0)).toNat =
            c.toNat / 262144 % 0x08 + 0xF0 :=
          toNat_ofNat (by omega)
        exact decodeFrom_four (by omega) (two?_eq_none (by omega)) (three?_eq_none (by omega))
          (four?_encoded (by omega) hbound)

/-! ## 2. Texts -/

theorem encode_append (s t : List Char) : encode (s ++ t) = encode s ++ encode t := List.flatMap_append

theorem encode_cons (c : Char) (s : List Char) :
    encode (c :: s) = String.utf8EncodeChar c ++ encode s := rfl

theorem decodeFrom_encode (done s : List Char) :
    decodeFrom done (encode s) = (done.reverse ++ s, []) := by
  induction s generalizing done with
  | nil =>
    rw [List.append_nil]
    rfl
  | cons c s ih =>
    rw [encode_cons, decodeFrom_utf8EncodeChar, ih, List.reverse_cons, List.append_assoc,
      List.singleton_append]

/-- What is encoded is decoded as it was, with nothing left behind. -/
theorem decode_encode (s : List Char) : decode (encode s) = (s, []) := decodeFrom_encode [] s

theorem utf8EncodeChar_of_lt {c : Char} (h : c.toNat < 0x80) :
    String.utf8EncodeChar c = [UInt8.ofNat c.toNat] := by
  have hc : c.val.toNat ≤ 0x7F := Nat.lt_succ_iff.1 h
  unfold String.utf8EncodeChar
  simp only [hc, if_true]
  rfl

/-- The bytes of a character beyond ASCII are beyond ASCII. -/
theorem le_of_mem_utf8EncodeChar {c : Char} (h : 0x80 ≤ c.toNat) {b : UInt8}
    (hb : b ∈ String.utf8EncodeChar c) :
    0x80 ≤ b.toNat := by
  have hc : ¬ c.val.toNat ≤ 0x7F := Nat.not_le.2 h
  -- Every byte written is a first byte or a continuation byte, both with an offset of at least 0x80.
  have hbyte : ∀ n k, n < 128 → 128 ≤ k + n → k + n < 256 → 0x80 ≤ (UInt8.ofNat (n + k)).toNat := by
    intro n k _ _ _
    rw [toNat_ofNat (by omega)]
    omega
  unfold String.utf8EncodeChar at hb
  simp only [hc, if_false] at hb
  split at hb
  · simp only [List.mem_cons, List.not_mem_nil, or_false] at hb
    rcases hb with rfl | rfl <;> refine hbyte _ _ ?_ ?_ ?_ <;> omega
  · split at hb
    · simp only [List.mem_cons, List.not_mem_nil, or_false] at hb
      rcases hb with rfl | rfl | rfl <;> refine hbyte _ _ ?_ ?_ ?_ <;> omega
    · simp only [List.mem_cons, List.not_mem_nil, or_false] at hb
      rcases hb with rfl | rfl | rfl | rfl <;> refine hbyte _ _ ?_ ?_ ?_ <;> omega

end MetricCatalog.Utf8
