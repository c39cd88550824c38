import MetricCatalog.Proofs.Text.Utf8

/-!
# Well-formed bytes — those that are UTF-8

Bytes are well-formed if they encode some text. This is so exactly if decoding leaves nothing behind, and
well-formed bytes stay so in both parts when they are cut at a character.
-/

namespace MetricCatalog.Utf8

/-- The bytes are UTF-8. -/
def WellFormed (bs : Bytes) : Prop := ∃ s, bs = encode s

theorem wellFormed_encode (s : List Char) : WellFormed (encode s) := ⟨s, rfl⟩

theorem wellFormed_nil : WellFormed [] := wellFormed_encode []

theorem WellFormed.append {x y : Bytes} (hx : WellFormed x) (hy : WellFormed y) : WellFormed (x ++ y) := by
  obtain ⟨s, rfl⟩ := hx
  obtain ⟨t, rfl⟩ := hy
  exact ⟨s ++ t, (encode_append s t).symm⟩

theorem wellFormed_utf8EncodeChar (c : Char) : WellFormed (String.utf8EncodeChar c) :=
  ⟨[c], (List.flatMap_singleton _ c).symm⟩

/-- The bytes are UTF-8 exactly if a string has them. -/
theorem wellFormed_iff {bs : Bytes} : WellFormed bs ↔ bs.toByteArray.IsValidUTF8 := by
  constructor
  · rintro ⟨s, rfl⟩
    exact ⟨s, rfl⟩
  · rintro ⟨s, hs⟩
    exact ⟨s, List.toByteArray_inj.1 hs⟩

theorem encode_toList (text : String) : encode text.toList = text.toUTF8.data.toList := by
  have h : text.toUTF8 = (encode text.toList).toByteArray := String.utf8Encode_toList.symm
  rw [h, List.data_toByteArray]

/-! ## 1. ASCII -/

/-- Every byte is a character of its own. -/
def Ascii (bs : Bytes) : Prop := ∀ b ∈ bs, b.toNat < 0x80

instance (bs : Bytes) : Decidable (Ascii bs) := List.decidableBAll (fun b : UInt8 => b.toNat < 0x80) bs

theorem ascii_singleton {b : UInt8} (h : b.toNat < 0x80) : Ascii [b] :=
  List.forall_mem_singleton.2 h

theorem utf8EncodeChar_ofNat {b : UInt8} (h : b.toNat < 0x80) :
    String.utf8EncodeChar (Char.ofNat b.toNat) = [b] := by
  have hvalid : b.toNat.isValidChar := .inl (by omega)
  have hnat : (Char.ofNat b.toNat).toNat = b.toNat := by
    rw [Char.ofNat, dif_pos hvalid]
    rfl
  rw [utf8EncodeChar_of_lt (by omega), hnat, UInt8.ofNat_toNat]

theorem Ascii.wellFormed {bs : Bytes} (h : Ascii bs) : WellFormed bs := by
  induction bs with
  | nil => exact wellFormed_nil
  | cons b bs ih =>
    obtain ⟨hb, hbs⟩ := List.forall_mem_cons.1 h
    have hfirst : WellFormed [b] := by
      rw [← utf8EncodeChar_ofNat hb]
      exact wellFormed_utf8EncodeChar _
    exact hfirst.append (ih hbs)

/-! ## 2. Decoding -/

theorem continuation?_inv {b : UInt8} {n : Nat} (h : continuation? b = some n) :
    n < 64 ∧ b.toNat = n + 0x80 := by
  unfold continuation? at h
  split at h
  · have hn := Option.some.inj h
    omega
  · cases h

theorem character?_inv {least n : Nat} {c : Char} (h : character? least n = some c) :
    least ≤ n ∧ c.toNat = n := by
  unfold character? at h
  split at h
  · next hn =>
    cases h
    refine ⟨hn.1, ?_⟩
    rw [Char.ofNat, dif_pos hn.2]
    rfl
  · cases h

theorem ofNat_eq {b : UInt8} {n : Nat} (h : b.toNat = n) : UInt8.ofNat n = b := by
  rw [← h, UInt8.ofNat_toNat]

theorem two?_inv {a b : UInt8} {c : Char} (h : two? a b = some c) : String.utf8EncodeChar c = [a, b] := by
  unfold two? at h
  split at h
  · obtain ⟨n, hn, hc⟩ := Option.bind_eq_some_iff.1 h
    obtain ⟨hlt, hb⟩ := continuation?_inv hn
    obtain ⟨hleast, hc⟩ := character?_inv hc
    have hval : c.val.toNat = c.toNat := rfl
    unfold String.utf8EncodeChar
    simp only [hval, hc]
    rw [if_neg (by omega), if_pos (by omega), ofNat_eq (b := a) (by omega), ofNat_eq (b := b) (by omega)]
  · cases h

theorem three?_inv {a b c : UInt8} {x : Char} (h : three? a b c = some x) :
    String.utf8EncodeChar x = [a, b, c] := by
  unfold three? at h
  split at h
  · obtain ⟨m, hm, hmore⟩ := Option.bind_eq_some_iff.1 h
    obtain ⟨n, hn, hx⟩ := Option.bind_eq_some_iff.1 hmore
    obtain ⟨hm, hb⟩ := continuation?_inv hm
    obtain ⟨hn, hc⟩ := continuation?_inv hn
    obtain ⟨hleast, hx⟩ := character?_inv hx
    have hval : x.val.toNat = x.toNat := rfl
    unfold String.utf8EncodeChar
    simp only [hval, hx]
    rw [if_neg (by omega), if_neg (by omega), if_pos (by omega), ofNat_eq (b := a) (by omega),
      ofNat_eq (b := b) (by omega), ofNat_eq (b := c) (by omega)]
  · cases h

theorem four?_inv {a b c d : UInt8} {x : Char} (h : four? a b c d = some x) :
    String.utf8EncodeChar x = [a, b, c, d] := by
  unfold four? at h
  split at h
  · obtain ⟨l, hl, hmore⟩ := Option.bind_eq_some_iff.1 h
    obtain ⟨m, hm, hmore⟩ := Option.bind_eq_some_iff.1 hmore
    obtain ⟨n, hn, hx⟩ := Option.bind_eq_some_iff.1 hmore
    obtain ⟨hl, hb⟩ := continuation?_inv hl
    obtain ⟨hm, hc⟩ := continuation?_inv hm
    obtain ⟨hn, hd⟩ := continuation?_inv hn
    obtain ⟨hleast, hx⟩ := character?_inv hx
    have hval : x.val.toNat = x.toNat := rfl
    unfold String.utf8EncodeChar
    simp only [hval, hx]
    rw [if_neg (by omega), if_neg (by omega), if_neg (by omega), ofNat_eq (b := a) (by omega),
      ofNat_eq (b := b) (by omega), ofNat_eq (b := c) (by omega), ofNat_eq (b := d) (by omega)]
  · cases h

/-- Decoding splits the bytes, behind the characters that have been found before. -/
def Splits (done : List Char) (bs : Bytes) (r : List Char × Bytes) : Prop :=
  ∃ s, r.1 = done.reverse ++ s ∧ bs = encode s ++ r.2

theorem splits_none (done : List Char) (bs : Bytes) : Splits done bs (done.reverse, bs) :=
  ⟨[], (List.append_nil _).symm, rfl⟩

theorem Splits.cons {done : List Char} {c : Char} {first bs : Bytes} {r : List Char × Bytes}
    (hc : String.utf8EncodeChar c = first) (h : Splits (c :: done) bs r) :
    Splits done (first ++ bs) r := by
  obtain ⟨s, hs, hbs⟩ := h
  refine ⟨c :: s, ?_, ?_⟩
  · rw [hs, List.reverse_cons, List.append_assoc, List.singleton_append]
  · rw [encode_cons, hc, List.append_assoc, ← hbs]

theorem splits_decodeFrom (done : List Char) (bs : Bytes) : Splits done bs (decodeFrom done bs) := by
  fun_induction decodeFrom done bs with
  | case1 done => exact splits_none done []
  | case2 done a bs ha ih => exact ih.cons (utf8EncodeChar_ofNat ha)
  | case3 done a ha => exact splits_none done _
  | case4 done a ha b bs x hx ih => exact ih.cons (two?_inv hx)
  | case5 done a ha b htwo => exact splits_none done _
  | case6 done a ha b htwo c bs x hx ih => exact ih.cons (three?_inv hx)
  | case7 done a ha b htwo c hthree => exact splits_none done _
  | case8 done a ha b htwo c hthree d bs x hx ih => exact ih.cons (four?_inv hx)
  | case9 => exact splits_none _ _

/-- Bytes behind which decoding leaves nothing are the encoding of what it has found. -/
theorem encode_of_decode {bs : Bytes} {s : List Char} (h : decode bs = (s, [])) : bs = encode s := by
  obtain ⟨t, ht, hbs⟩ := splits_decodeFrom [] bs
  rw [show decodeFrom [] bs = (s, []) from h] at ht hbs
  rw [hbs, List.append_nil]
  exact congrArg encode ht.symm

/-! ## 3. Cuts -/

theorem WellFormed.behind {c : Char} {y : Bytes} (h : WellFormed (String.utf8EncodeChar c ++ y)) :
    WellFormed y := by
  obtain ⟨s, hs⟩ := h
  have hdecode : decodeFrom [c] y = (s, []) := by
    rw [← decodeFrom_utf8EncodeChar, hs]
    exact decode_encode s
  obtain ⟨t, -, hy⟩ := splits_decodeFrom [c] y
  rw [hdecode, List.append_nil] at hy
  exact ⟨t, hy⟩

/-- No character starts inside of another one. -/
theorem not_starts_inside {c c' : Char} {x more y z : Bytes} (hx : x ≠ []) (hmore : more ≠ [])
    (hc' : String.utf8EncodeChar c' = x ++ more) (hc : String.utf8EncodeChar c ++ y = more ++ z) :
    False := by
  obtain ⟨b, more, rfl⟩ := List.exists_cons_of_ne_nil hmore
  -- The byte in question is the first one of a character and yet a later one of another.
  have hfirst : b.IsUTF8FirstByte := by
    obtain ⟨d, ds, hd⟩ := List.exists_cons_of_ne_nil (@String.utf8EncodeChar_ne_nil c)
    rw [hd] at hc
    obtain rfl := (List.cons.inj hc).1
    have hzero := @UInt8.isUTF8FirstByte_getElem_zero_utf8EncodeChar c
    rwa [List.getElem_of_eq hd, List.getElem_cons_zero] at hzero
  have hlength : x.length < (String.utf8EncodeChar c').length := by
    rw [hc', List.length_append, List.length_cons]
    omega
  have hlater : (String.utf8EncodeChar c')[x.length] = b := by
    rw [List.getElem_of_eq hc', List.getElem_append_right (Nat.le_refl _)]
    simp
  rw [← hlater, UInt8.isUTF8FirstByte_getElem_utf8EncodeChar] at hfirst
  exact hx (List.eq_nil_of_length_eq_zero hfirst)

/-- A character starts where another one has ended. -/
theorem WellFormed.cut {x y : Bytes} {c : Char} (h : WellFormed (x ++ (String.utf8EncodeChar c ++ y))) :
    WellFormed x ∧ WellFormed y := by
  obtain ⟨s, hs⟩ := h
  induction s generalizing x with
  | nil => exact absurd hs (by simp [encode])
  | cons c' s ih =>
    rw [encode_cons] at hs
    obtain ⟨more, hc', hmore⟩ | ⟨more, rfl, hmore⟩ := List.append_eq_append_iff.1 hs
    · -- The cut is in front of the first character, behind it, or inside.
      by_cases hx : x = []
      · subst hx
        exact ⟨wellFormed_nil, WellFormed.behind ⟨c' :: s, hs⟩⟩
      · by_cases hnil : more = []
        · subst hnil
          rw [List.append_nil] at hc'
          exact ⟨hc' ▸ wellFormed_utf8EncodeChar c', WellFormed.behind ⟨s, hmore⟩⟩
        · exact (not_starts_inside hx hnil hc' hmore).elim
    · obtain ⟨hmore, hy⟩ := ih hmore.symm
      exact ⟨(wellFormed_utf8EncodeChar c').append hmore, hy⟩

theorem wellFormed_around {x y : Bytes} (c : Char) :
    WellFormed (x ++ (String.utf8EncodeChar c ++ y)) ↔ WellFormed x ∧ WellFormed y :=
  ⟨WellFormed.cut, fun ⟨hx, hy⟩ => hx.append ((wellFormed_utf8EncodeChar c).append hy)⟩

theorem wellFormed_around_ascii {x e y : Bytes} (he : Ascii e) (hne : e ≠ []) :
    WellFormed (x ++ (e ++ y)) ↔ WellFormed x ∧ WellFormed y := by
  refine ⟨fun h => ?_, fun ⟨hx, hy⟩ => hx.append (he.wellFormed.append hy)⟩
  -- The cut is at the first byte of `e`; the others are then cut off from what follows.
  have hbehind : ∀ e : Bytes, Ascii e → WellFormed (e ++ y) → WellFormed y := by
    intro e he h
    induction e with
    | nil => exact h
    | cons b e ih =>
      obtain ⟨hb, hmore⟩ := List.forall_mem_cons.1 he
      rw [List.cons_append, ← List.singleton_append, ← utf8EncodeChar_ofNat hb] at h
      exact ih hmore h.behind
  obtain ⟨b, e, rfl⟩ := List.exists_cons_of_ne_nil hne
  obtain ⟨hb, hmore⟩ := List.forall_mem_cons.1 he
  rw [List.cons_append, ← List.singleton_append, ← utf8EncodeChar_ofNat hb] at h
  obtain ⟨hx, hy⟩ := h.cut
  exact ⟨hx, hbehind e hmore hy⟩

end MetricCatalog.Utf8
