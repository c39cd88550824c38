import MetricCatalog.Proofs.Json.Tree
import MetricCatalog.Proofs.Text.Utf8

/-!
# Notation — what is written for a number is a numeral

An integer is written as a numeral that has its value. A double is written as some numeral, whatever its
bits are: only a decimal without digits but with trailing zeros would not be one, and the search for the
shortest decimal finds no such decimal.
-/

namespace MetricCatalog.Json.Numeral

/-! ## 1. Digits -/

theorem ofDigits_concat (ds : List Nat) (d : Nat) : ofDigits (ds ++ [d]) = ofDigits ds * 10 + d := by
  rw [ofDigits, List.foldl_append]
  rfl

theorem encode_digitChar : ∀ d < 10, Utf8.encode [d.digitChar] = [digitByte d] := by
  decide

/-- A zero alone, or digits that start with another one. -/
def Leads (ds : List Nat) : Prop := ds = [0] ∨ ∃ d ds', ds = d :: ds' ∧ d ≠ 0

theorem encode_digits {ds : List Nat} (h : ∀ d ∈ ds, d < 10) :
    Utf8.encode (ds.map Nat.digitChar) = ds.map digitByte := by
  induction ds with
  | nil => rfl
  | cons d ds ih =>
    obtain ⟨hd, hds⟩ := List.forall_mem_cons.1 h
    rw [List.map_cons, ← List.singleton_append, Utf8.encode_append, encode_digitChar d hd, ih hds]
    rfl

/-- A number is written in digits that give it back, without a leading zero. -/
theorem exists_digits (n : Nat) :
    ∃ ds : List Nat, Nat.toDigits 10 n = ds.map Nat.digitChar ∧ ofDigits ds = n ∧
      (∀ d ∈ ds, d < 10) ∧ Leads ds := by
  -- The last digit is split off, and the digits before it are those of a smaller number.
  induction n using Nat.strongRecOn with
  | _ n ih =>
    by_cases hn : n < 10
    · refine ⟨[n], Nat.toDigits_of_lt_base hn, by simp [ofDigits], by simpa using hn, ?_⟩
      by_cases hzero : n = 0
      · exact .inl (by rw [hzero])
      · exact .inr ⟨n, [], rfl, hzero⟩
    · rcases ih (n / 10) (by omega) with ⟨ds, hdigits, hvalue, hlt, hlead⟩
      refine ⟨ds ++ [n % 10], ?_, ?_, ?_, ?_⟩
      · rw [Nat.toDigits_of_base_le (by decide) (by omega), hdigits, List.map_append]
        rfl
      · rw [ofDigits_concat, hvalue]
        omega
      · intro d hd
        rcases List.mem_append.1 hd with hd | hd
        · exact hlt d hd
        · rw [List.mem_singleton.1 hd]
          omega
      · -- The digits before the last one are not a zero alone, since `n` is at least ten.
        rcases hlead with rfl | ⟨d, ds', rfl, hd⟩
        · have : n / 10 = 0 := by rw [← hvalue]; rfl
          omega
        · exact .inr ⟨d, ds' ++ [n % 10], rfl, hd⟩

/-! ## 2. Numerals as they are written -/

/-- The characters of a numeral, its exponent behind a small letter and always with a sign. -/
def written (n : Numeral) : List Char :=
  (if n.negative then ['-'] else []) ++ n.whole.map Nat.digitChar ++
    (if n.fraction = [] then [] else '.' :: n.fraction.map Nat.digitChar) ++
    match n.exponent with
    | none => []
    | some e => 'e' :: (if e.negative then '-' else '+') :: e.digits.map Nat.digitChar

/-- A well-formed numeral is written as a token of the grammar. -/
theorem exists_token_written {n : Numeral} (h : n.WellFormed) :
    ∃ t : Token, t.numeral = n ∧ t.bytes = Utf8.encode n.written := by
  have hwhole : ∀ d ∈ n.whole, d < 10 := fun d hd =>
    h.digits_lt d (List.mem_append_left _ (List.mem_append_left _ hd))
  have hfraction : ∀ d ∈ n.fraction, d < 10 := fun d hd =>
    h.digits_lt d (List.mem_append_left _ (List.mem_append_right _ hd))
  have hexponent : ∀ d ∈ n.exponentDigits, d < 10 := fun d hd =>
    h.digits_lt d (List.mem_append_right _ hd)
  have hsign : Utf8.encode (if n.negative then ['-'] else []) = n.signBytes := by
    unfold signBytes
    split <;> rfl
  have hpoint : Utf8.encode (if n.fraction = [] then [] else '.' :: n.fraction.map Nat.digitChar) =
      n.pointBytes := by
    unfold pointBytes
    split
    · rfl
    · rw [Utf8.encode_cons, encode_digits hfraction]
      rfl
  have hmark : ∃ mark ∈ marks n.exponent, mark ++ n.exponentDigits.map digitByte =
      Utf8.encode (match n.exponent with
        | none => []
        | some e => 'e' :: (if e.negative then '-' else '+') :: e.digits.map Nat.digitChar) := by
    unfold exponentDigits at hexponent ⊢
    match he : n.exponent with
    | none => exact ⟨[], List.mem_singleton_self _, rfl⟩
    | some ⟨negative, ds⟩ =>
      have hds : ∀ d ∈ ds, d < 10 := by rwa [he] at hexponent
      refine ⟨[0x65, if negative then 0x2D else 0x2B], by cases negative <;> simp [marks], ?_⟩
      rw [Utf8.encode_cons, Utf8.encode_cons, encode_digits hds]
      cases negative <;> rfl
  obtain ⟨mark, hmem, hmark⟩ := hmark
  refine ⟨⟨n, h, mark, hmem⟩, rfl, ?_⟩
  rw [written, Utf8.encode_append, Utf8.encode_append, Utf8.encode_append, hsign, encode_digits hwhole,
    hpoint, ← hmark, Token.bytes, List.append_assoc]

/-- An integer is written as a numeral that has its value. -/
theorem exists_token (i : Integer) :
    ∃ t : Token, t.bytes = Utf8.encode (renderInt i.val) ∧ t.numeral.number = .ok (.int i) := by
  -- The sign is written apart from the digits of the absolute value.
  obtain ⟨ds, hdigits, hvalue, hlt, hlead⟩ := exists_digits i.val.natAbs
  let n : Numeral := ⟨decide (i.val < 0), ds, [], none⟩
  have hwf : n.WellFormed :=
    { digits_lt := fun d hd => hlt d (by simpa [n, exponentDigits] using hd)
      whole := hlead
      exponent := nofun }
  have hwritten : n.written = renderInt i.val := by
    simp only [n, written, renderInt, hdigits, decide_eq_true_eq]
    split <;> simp
  have hinteger : integer? n = some i := by
    rw [integer?, if_pos ⟨rfl, rfl⟩]
    simp only [n, hvalue]
    by_cases hneg : i.val < 0
    · rw [if_pos (decide_eq_true hneg), if_neg (by omega), show -(i.val.natAbs : Int) = i.val by omega]
      exact IntBetween.ofInt?_val i
    · rw [if_neg (by simpa using hneg), show (i.val.natAbs : Int) = i.val by omega]
      exact IntBetween.ofInt?_val i
  obtain ⟨t, hnumeral, hbytes⟩ := exists_token_written hwf
  refine ⟨t, by rw [hbytes, hwritten], ?_⟩
  rw [hnumeral, number, value?, hinteger]

/-! ## 3. Doubles -/

open Decimal

theorem significand_of_onGrid {x : Binary} {grid : Int} (h : x.onGrid? grid = some 0) :
    x.significand = 0 := by
  unfold Binary.onGrid? at h
  generalize hunit : Nat.pow 2 (x.exponent - 2).toNat * Nat.pow 10 (-grid).toNat = unit at h
  generalize Nat.pow 2 (2 - x.exponent).toNat * Nat.pow 10 grid.toNat = step at h
  have hpos : 0 < unit := by
    rw [← hunit]
    exact Nat.mul_pos (Nat.pow_pos (by decide)) (Nat.pow_pos (by decide))
  dsimp only at h
  generalize 4 * x.significand * unit / step = below at h
  -- Zero is in the interval only if the interval starts there.
  have hstart (greatest : Bool) (hinside : ((decide
      ((4 * x.significand - if x.narrowBelow = true then 1 else 2) * unit < 0 * step) ||
        decide (x.significand % 2 = 0) && decide
          ((4 * x.significand - if x.narrowBelow = true then 1 else 2) * unit = 0 * step)) &&
      greatest) = true) : x.significand = 0 := by
    simp only [Bool.and_eq_true, Bool.or_eq_true, decide_eq_true_eq, Nat.zero_mul, Nat.not_lt_zero, false_or,
      Nat.mul_eq_zero] at hinside
    split at hinside <;> omega
  split at h
  · cases h
  · next hbelow _ =>
    obtain rfl := Option.some.inj h
    exact hstart _ hbelow
  · cases h
  · next hbelow _ =>
    split at h
    · obtain rfl := Option.some.inj h
      exact hstart _ hbelow
    · cases h
    · split at h
      · obtain rfl := Option.some.inj h
        exact hstart _ hbelow
      · cases h

/-- The search ends with a decimal that has digits, or at least no trailing zeros. -/
theorem exponent_search {x : Binary} (fuel : Nat) {grid : Int} (hgrid : x.significand = 0 → grid ≤ 0)
    (h : (x.search grid fuel).digits = 0) : (x.search grid fuel).exponent ≤ 0 := by
  induction fuel generalizing grid with
  | zero => exact Int.le_refl 0
  | succ fuel ih =>
    unfold Binary.search at h ⊢
    cases hfound : x.onGrid? grid with
    | some digits =>
      rw [hfound] at h
      obtain rfl : digits = 0 := h
      exact hgrid (significand_of_onGrid hfound)
    | none =>
      rw [hfound] at h
      exact ih (fun hzero => by have := hgrid hzero; omega) h

theorem exponent_shortest {x : Float} (h : (shortest x).digits = 0) : (shortest x).exponent ≤ 0 := by
  apply exponent_search 24 _ h
  intro hzero
  -- Only a subnormal double has significand zero.
  unfold Binary.ofBits at hzero ⊢
  dsimp only at hzero ⊢
  split at hzero
  · next hfield =>
    have hfraction : x.toBits.toNat % 0x10000000000000 = 0 := hzero
    rw [if_pos hfield, hfraction]
    decide
  · simp at hzero

/-- The characters are those of a numeral without a minus sign. -/
def Unsigned (cs : List Char) : Prop :=
  ∃ n : Numeral, n.WellFormed ∧ n.negative = false ∧ n.written = cs

theorem unsigned_point {whole fraction : List Nat} (hlt : ∀ d ∈ whole ++ fraction, d < 10)
    (hwhole : Leads whole) (hfraction : fraction ≠ []) :
    Unsigned (whole.map Nat.digitChar ++ '.' :: fraction.map Nat.digitChar) := by
  refine ⟨⟨false, whole, fraction, none⟩, ⟨?_, hwhole, nofun⟩, rfl, ?_⟩
  · simpa [exponentDigits] using hlt
  · simp [written, hfraction]

theorem unsigned_exponent {first : Nat} {rest es : List Nat} (hlt : ∀ d ∈ first :: rest, d < 10)
    (hlead : Leads (first :: rest)) (negative : Bool) (hlt' : ∀ e ∈ es, e < 10) (hes : es ≠ []) :
    Unsigned (pointed ((first :: rest).map Nat.digitChar) ++ ['e', if negative then '-' else '+'] ++
      es.map Nat.digitChar) := by
  refine ⟨⟨false, [first], rest, some ⟨negative, es⟩⟩, ⟨?_, ?_, ?_⟩, rfl, ?_⟩
  · simpa only [exponentDigits, Option.map_some, Option.getD_some, List.forall_mem_append,
      List.singleton_append] using ⟨hlt, hlt'⟩
  · obtain hone | ⟨_, _, hcons, hfirst⟩ := hlead
    · exact .inl (by rw [(List.cons.inj hone).1])
    · exact .inr ⟨first, [], rfl, by rwa [(List.cons.inj hcons).1]⟩
  · intro e he
    obtain rfl := Option.some.inj he
    exact hes
  · cases rest <;> simp [written, pointed]

theorem Leads.ne_nil {ds : List Nat} (h : Leads ds) : ds ≠ [] := by
  obtain rfl | ⟨first, ds, rfl, _⟩ := h <;> exact List.cons_ne_nil _ _

/-- Digits with more behind them lead as before, unless they are a zero alone. -/
theorem Leads.append {ds : List Nat} (h : Leads ds) {more : List Nat} (hmore : ds = [0] → more = []) :
    Leads (ds ++ more) := by
  obtain hzero | ⟨first, ds, rfl, hfirst⟩ := h
  · rw [hmore hzero, List.append_nil]
    exact .inl hzero
  · exact .inr ⟨first, ds ++ more, rfl, hfirst⟩

theorem Leads.take {ds : List Nat} (h : Leads ds) (n : Nat) : Leads (ds.take (n + 1)) := by
  obtain rfl | ⟨first, ds, rfl, hfirst⟩ := h
  · exact .inl (by simp)
  · exact .inr ⟨first, ds.take n, rfl, hfirst⟩

/-- A decimal is written as a numeral, unless it is a zero with further zeros behind it. -/
theorem unsigned_render {d : Decimal} (h : d.digits = 0 → d.exponent ≤ 0) : Unsigned d.render := by
  obtain ⟨ds, hdigits, hvalue, hlt, hlead⟩ := exists_digits d.digits
  have hzeros (n : Nat) : ∀ e ∈ List.replicate n 0, e < 10 := fun e he => by
    rw [List.eq_of_mem_replicate he]
    omega
  simp only [render, hdigits, List.length_map]
  generalize hleading : d.exponent + (ds.length : Int) - 1 = leading
  split
  · split
    · -- A whole number: the digits and its trailing zeros stand before the point.
      have hwhole : Leads (ds ++ List.replicate d.exponent.toNat 0) := by
        apply hlead.append
        rintro rfl
        have := h hvalue.symm
        rw [show d.exponent.toNat = 0 by omega]
        rfl
      have hall : ∀ e ∈ (ds ++ List.replicate d.exponent.toNat 0) ++ [0], e < 10 := by
        simp only [List.forall_mem_append, List.forall_mem_singleton]
        exact ⟨⟨hlt, hzeros _⟩, by omega⟩
      have hpoint := unsigned_point hall hwhole (List.cons_ne_nil _ _)
      rwa [List.map_append, List.map_replicate] at hpoint
    · split
      · -- The point stands among the digits.
        have hall : ∀ e ∈ ds.take (leading.toNat + 1) ++ ds.drop (leading.toNat + 1), e < 10 := by
          rwa [List.take_append_drop]
        have hfraction : ds.drop (leading.toNat + 1) ≠ [] := by
          rw [Ne, List.drop_eq_nil_iff]
          omega
        have hpoint := unsigned_point hall (hlead.take _) hfraction
        rwa [List.map_take, List.map_drop] at hpoint
      · -- All digits stand behind the point, and so do the zeros before them.
        have hall : ∀ e ∈ [0] ++ (List.replicate (-leading - 1).toNat 0 ++ ds), e < 10 := by
          simp only [List.forall_mem_append, List.forall_mem_singleton]
          exact ⟨by omega, hzeros _, hlt⟩
        have hpoint := unsigned_point hall (.inl rfl) (List.append_ne_nil_of_right_ne_nil _ hlead.ne_nil)
        rw [List.map_append, List.map_replicate] at hpoint
        rwa [List.append_assoc]
  · -- One digit stands before the point, and an exponent behind.
    obtain ⟨es, hexponent, _, hlt', hlead'⟩ := exists_digits leading.natAbs
    obtain ⟨first, rest, rfl⟩ := List.exists_cons_of_ne_nil hlead.ne_nil
    have hpoint := unsigned_exponent hlt hlead (decide (leading < 0)) hlt' hlead'.ne_nil
    simp only [decide_eq_true_eq] at hpoint
    rwa [hexponent]

/-- Every double is written as a numeral, be it finite or not. -/
theorem exists_written_renderFloat (x : Float) :
    ∃ n : Numeral, n.WellFormed ∧ n.written = renderFloat x := by
  have hmagnitude : Unsigned (if x == 0 then ['0', '.', '0'] else (shortest x).render) := by
    split
    · exact unsigned_point (by decide) (.inl rfl) (List.cons_ne_nil 0 [])
    · exact unsigned_render exponent_shortest
  obtain ⟨n, hwf, hpositive, hwritten⟩ := hmagnitude
  unfold renderFloat
  rw [← hwritten]
  dsimp only
  split
  · refine ⟨{ n with negative := true }, ⟨hwf.digits_lt, hwf.whole, hwf.exponent⟩, ?_⟩
    simp only [written, hpositive]
    rfl
  · exact ⟨n, hwf, rfl⟩

end MetricCatalog.Json.Numeral
