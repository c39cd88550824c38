import MetricCatalog.Proofs.Json.Notation

/-!
# Integers — numerals without point and exponent

Such a numeral writes one integer, and of the ways to write this integer it is the only one, minus zero apart.
The digits are added up within 64 bits. An integer that does not fit is not kept as an integer.
-/

namespace MetricCatalog.Json.Numeral

/-! ## 1. Digits of a number -/

/-- Digits behind those of a number that is not zero. -/
theorem toDigits_foldl {n : Nat} (hn : 0 < n) {ds : List Nat} (hlt : ∀ d ∈ ds, d < 10) :
    Nat.toDigits 10 (ds.foldl (fun n d => n * 10 + d) n) = Nat.toDigits 10 n ++ ds.map Nat.digitChar := by
  induction ds generalizing n with
  | nil => simp
  | cons d ds ih =>
    rw [List.forall_mem_cons] at hlt
    have hdigits : Nat.toDigits 10 (n * 10 + d) = Nat.toDigits 10 n ++ [d.digitChar] := by
      have hdiv : (n * 10 + d) / 10 = n := by omega
      have hmod : (n * 10 + d) % 10 = d := by omega
      rw [Nat.toDigits_of_base_le (by decide) (by omega), hdiv, hmod]
    rw [List.foldl_cons, ih (by omega) hlt.2, hdigits, List.append_assoc]
    rfl

/-- Digits without a leading zero are those in which their number is written. -/
theorem toDigits_ofDigits {ds : List Nat} (hlt : ∀ d ∈ ds, d < 10) (h : Leads ds) :
    Nat.toDigits 10 (ofDigits ds) = ds.map Nat.digitChar := by
  obtain rfl | ⟨d, ds, rfl, hd⟩ := h
  · rfl
  · rw [List.forall_mem_cons] at hlt
    rw [ofDigits, List.foldl_cons, Nat.zero_mul, Nat.zero_add, toDigits_foldl (by omega) hlt.2,
      Nat.toDigits_of_lt_base hlt.1]
    rfl

/-! ## 2. The integer that a numeral writes -/

/-- The numeral has neither point nor exponent, and it is not minus zero. -/
structure IsInteger (n : Numeral) : Prop where
  fraction : n.fraction = []
  exponent : n.exponent = none
  notMinusZero : ¬ (n.negative = true ∧ ofDigits n.whole = 0)

/-- The integer that the digits in front write, with the sign. -/
def int (n : Numeral) : Int := if n.negative then -ofDigits n.whole else ofDigits n.whole

/-- The integer lies within bounds, the upper one excluded. -/
def IsIntegerIn (lo hi : Int) (n : Numeral) : Prop := n.IsInteger ∧ lo ≤ n.int ∧ n.int < hi

theorem renderInt_natCast (m : Nat) : renderInt m = Nat.toDigits 10 m := by
  have hm : ¬ (m : Int) < 0 := by omega
  rw [renderInt, if_neg hm, Int.natAbs_natCast]

theorem renderInt_neg {m : Nat} (hm : m ≠ 0) : renderInt (-m) = '-' :: Nat.toDigits 10 m := by
  have hneg : -(m : Int) < 0 := by omega
  rw [renderInt, if_pos hneg, Int.natAbs_neg, Int.natAbs_natCast]

/-- An integer is written in one way only. -/
theorem Token.bytes_eq {t : Token} (h : t.numeral.IsInteger) :
    t.bytes = Utf8.encode (renderInt t.numeral.int) := by
  obtain ⟨n, hwf, mark, hmark⟩ := t
  obtain ⟨negative, whole, fraction, exponent⟩ := n
  obtain rfl : fraction = [] := h.fraction
  obtain rfl : exponent = none := h.exponent
  obtain rfl : mark = [] := List.mem_singleton.1 hmark
  have hlt : ∀ d ∈ whole, d < 10 := by
    intro d hd
    exact hwf.digits_lt d (by simp [hd])
  have hdigits : Utf8.encode (Nat.toDigits 10 (ofDigits whole)) = whole.map digitByte := by
    rw [toDigits_ofDigits hlt hwf.whole, encode_digits hlt]
  have hbytes : Token.bytes ⟨⟨negative, whole, [], none⟩, hwf, [], hmark⟩ =
      (if negative then [0x2D] else []) ++ whole.map digitByte := by
    simp [Token.bytes, signBytes, pointBytes, exponentDigits]
  rw [hbytes, ← hdigits]
  cases negative with
  | false =>
    change _ = Utf8.encode (renderInt (ofDigits whole : Nat))
    rw [renderInt_natCast]
    rfl
  | true =>
    have hpos : ofDigits whole ≠ 0 := fun hzero => h.notMinusZero ⟨rfl, hzero⟩
    change _ = Utf8.encode (renderInt (-(ofDigits whole : Nat)))
    rw [renderInt_neg hpos, Utf8.encode_cons]
    rfl

theorem integer?_eq {n : Numeral} (h : n.IsInteger) : n.integer? = IntBetween.ofInt? _ _ n.int := by
  have hzero := h.notMinusZero
  rw [integer?, if_pos ⟨h.fraction, h.exponent⟩, int]
  by_cases hneg : n.negative = true
  · rw [if_pos hneg, if_pos hneg, if_neg (fun h => hzero ⟨hneg, h⟩)]
  · rw [if_neg hneg, if_neg hneg]

theorem isInteger_of_integer? {n : Numeral} {i : Integer} (h : n.integer? = some i) : n.IsInteger := by
  rw [integer?] at h
  by_cases hpart : n.fraction = [] ∧ n.exponent = none
  · refine ⟨hpart.1, hpart.2, ?_⟩
    rintro ⟨hneg, hzero⟩
    rw [if_pos hpart, if_pos hneg, if_pos hzero] at h
    cases h
  · rw [if_neg hpart] at h
    cases h

/-- A numeral is kept as an integer if it writes one of 64 bits. -/
theorem number_eq_int {n : Numeral} {i : Integer} :
    n.number = .ok (.int i) ↔ n.IsInteger ∧ n.int = i.val := by
  have hnumber : n.number = .ok (.int i) ↔ n.integer? = some i := by
    rw [number, value?]
    cases n.integer? with
    | some j => simp
    | none => cases n.double? <;> simp
  rw [hnumber]
  constructor
  · intro h
    have hint := isInteger_of_integer? h
    rw [integer?_eq hint, IntBetween.ofInt?_eq_some_iff] at h
    exact ⟨hint, h.symm⟩
  · rintro ⟨hint, hval⟩
    rw [integer?_eq hint, IntBetween.ofInt?_eq_some_iff, hval]

end MetricCatalog.Json.Numeral
