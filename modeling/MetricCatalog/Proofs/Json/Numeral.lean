import MetricCatalog.Proofs.Json.Loops

/-!
# Numerals — what is read of them

A numeral of the grammar is read digit by digit up to the first byte that cannot belong to it. Its value
is asked for only where the number is kept.
-/

namespace MetricCatalog.Json

open Scan

namespace Numeral

/-- No digit stands in front. -/
def NoDigit (rest : Bytes) : Prop := ∀ b ∈ rest.head?, digit? (ascii b) = none

theorem noDigit_append {bs rest : Bytes} (hbs : ∀ b ∈ bs.head?, digit? (ascii b) = none)
    (hrest : NoDigit rest) : NoDigit (bs ++ rest) := by
  cases bs with
  | nil => exact hrest
  | cons b bs => exact hbs

/-- Neither a digit nor a point nor an exponent mark follows a value. -/
theorem delimited_head {rest : Bytes} (h : Delimited rest) {b : UInt8} (hb : b ∈ rest.head?) :
    digit? (ascii b) = none ∧ ascii b ≠ '.' ∧ ascii b ≠ 'e' ∧ ascii b ≠ 'E' := by
  -- Only seven bytes can follow a value: the four blanks and the three marks.
  have hcases : b = 0x20 ∨ b = 0x09 ∨ b = 0x0A ∨ b = 0x0D ∨ b = 0x2C ∨ b = 0x5D ∨ b = 0x7D := by
    rcases h b hb with hblank | hmark
    · simp only [isBlank, Bool.or_eq_true, decide_eq_true_eq] at hblank
      rcases hblank with ((h | h) | h) | h <;> simp only [h, true_or, or_true]
    · rcases hmark with h | h | h <;> simp only [h, true_or, or_true]
  rcases hcases with rfl | rfl | rfl | rfl | rfl | rfl | rfl <;> decide

/-! ## 1. Digits -/

theorem outcome_digits {ds : List Nat} (hds : ∀ d ∈ ds, d < 10) {rest : Bytes} (hrest : NoDigit rest) :
    outcome digits (ds.map digitByte ++ rest) = .ok (ds, rest) := by
  have hall : ∀ b ∈ ds.map digitByte, (digit? (ascii b)).isSome = true := by
    intro b hb
    rcases List.mem_map.1 hb with ⟨d, hd, rfl⟩
    rw [digit?_digitByte (hds d hd)]
    rfl
  -- The row of digits ends exactly where `rest` begins.
  have hstop : ∀ b ∈ rest.head?, ¬ (digit? (ascii b)).isSome = true := by
    intro b hb
    rw [hrest b hb]
    decide
  have htake : rest.takeWhile (fun b => (digit? (ascii b)).isSome) = [] := by
    cases rest with
    | nil => rfl
    | cons b rest => exact List.takeWhile_cons_of_neg (hstop b rfl)
  have hdrop : rest.dropWhile (fun b => (digit? (ascii b)).isSome) = rest := by
    cases rest with
    | nil => rfl
    | cons b rest => exact List.dropWhile_cons_of_neg (hstop b rfl)
  have hvalues : (ds.map digitByte).filterMap (digit? ∘ ascii) = ds := by
    clear hall
    induction ds with
    | nil => rfl
    | cons d ds ih =>
      rw [List.map_cons,
        List.filterMap_cons_some (f := digit? ∘ ascii) (digit?_digitByte (hds d List.mem_cons_self)),
        ih fun e he => hds e (List.mem_cons_of_mem _ he)]
  show Except.ok (_, _) = _
  rw [List.takeWhile_append_of_pos hall, List.dropWhile_append_of_pos hall, htake, hdrop,
    List.append_nil, hvalues]

theorem outcome_someDigits (atEnd : Fault) {d : Nat} {ds : List Nat} (hds : ∀ e ∈ d :: ds, e < 10)
    {rest : Bytes} (hrest : NoDigit rest) :
    outcome (someDigits atEnd) ((d :: ds).map digitByte ++ rest) = .ok (d :: ds, rest) := by
  unfold someDigits
  rw [List.map_cons, List.cons_append, outcome_seq (outcome_take _ _)]
  simp only [digit?_digitByte (hds d List.mem_cons_self)]
  exact outcome_seq (outcome_digits (fun e he => hds e (List.mem_cons_of_mem _ he)) hrest) _

/-! ## 2. The parts of a numeral -/

theorem outcome_minus (n : Numeral) {rest : Bytes} (hrest : ∀ b ∈ rest.head?, ascii b ≠ '-') :
    outcome minus (n.signBytes ++ rest) = .ok (n.negative, rest) := by
  unfold minus signBytes
  by_cases hneg : n.negative = true
  · rw [if_pos hneg, hneg]
    rfl
  · rw [if_neg hneg, Bool.eq_false_iff.2 hneg, List.nil_append, outcome_bind]
    cases rest with
    | nil => rfl
    | cons b rest =>
      have hb : some (ascii b) ≠ some '-' := fun h => hrest b rfl (Option.some.inj h)
      rw [outcome_peek]
      show outcome (if some (ascii b) = some '-' then _ else _) _ = _
      rw [if_neg hb]
      rfl

theorem outcome_wholePart (atEnd : Fault) {whole : List Nat} (hlt : ∀ d ∈ whole, d < 10)
    (hwhole : whole = [0] ∨ ∃ d ds, whole = d :: ds ∧ d ≠ 0) {rest : Bytes} (hrest : NoDigit rest) :
    outcome (wholePart atEnd) (whole.map digitByte ++ rest) = .ok (whole, rest) := by
  -- A zero ends the part at once; any other digit starts a row that ends where no digit follows.
  unfold wholePart
  rcases hwhole with rfl | ⟨d, ds, rfl, hd⟩
  · rw [outcome_bind, List.map_cons, List.cons_append, outcome_peek]
    show outcome (advance >>= _) _ = _
    rw [outcome_bind, outcome_advance]
    show outcome (peek? >>= _) rest = _
    rw [outcome_bind]
    cases rest with
    | nil => rfl
    | cons b rest =>
      rw [outcome_peek]
      show outcome (if (digit? (ascii b)).isSome then _ else _) _ = _
      rw [hrest b rfl]
      rfl
  · have hd10 := hlt d List.mem_cons_self
    have hzero : ascii (digitByte d) ≠ '0' := by
      intro h
      have := digit?_digitByte hd10
      rw [h] at this
      exact hd (Option.some.inj this).symm
    rw [outcome_bind, List.map_cons, List.cons_append, outcome_peek]
    show outcome (if some (ascii (digitByte d)) = some '0' then _ else someDigits atEnd) _ = _
    rw [if_neg fun h => hzero (Option.some.inj h)]
    exact outcome_someDigits atEnd hlt hrest

theorem outcome_fractionPart (atEnd : Fault) (n : Numeral) (hlt : ∀ d ∈ n.fraction, d < 10)
    {rest : Bytes} (hrest : NoDigit rest) (hpoint : ∀ b ∈ rest.head?, ascii b ≠ '.') :
    outcome (fractionPart atEnd) (n.pointBytes ++ rest) = .ok (n.fraction, rest) := by
  unfold fractionPart pointBytes
  cases hf : n.fraction with
  | nil =>
    rw [if_pos rfl, List.nil_append, outcome_bind]
    cases rest with
    | nil => rfl
    | cons b rest =>
      have hb : some (ascii b) ≠ some '.' := fun h => hpoint b rfl (Option.some.inj h)
      rw [outcome_peek]
      show outcome (if some (ascii b) = some '.' then _ else _) _ = _
      rw [if_neg hb]
      rfl
  | cons d ds =>
    rw [hf] at hlt
    rw [if_neg (List.cons_ne_nil d ds), List.cons_append, outcome_bind, outcome_peek]
    show outcome (advance >>= _) _ = _
    rw [outcome_seq (outcome_advance _ _)]
    rw [outcome_bind, outcome_digits hlt hrest]
    rfl

theorem outcome_sign_digit {d : Nat} (h : d < 10) (rest : Bytes) :
    outcome sign (digitByte d :: rest) = .ok (false, digitByte d :: rest) := by
  have hd : ascii (digitByte d) ≠ '-' ∧ ascii (digitByte d) ≠ '+' := by
    revert h d
    decide
  unfold sign
  rw [outcome_seq (outcome_peek _ _)]
  split
  · next h => exact absurd (Option.some.inj h) hd.1
  · next h => exact absurd (Option.some.inj h) hd.2
  · rfl

theorem outcome_exponentPart (atEnd : Fault) (n : Numeral) (hlt : ∀ d ∈ n.exponentDigits, d < 10)
    (hne : ∀ e ∈ n.exponent, e.digits ≠ []) {mark : Bytes} (hmark : mark ∈ marks n.exponent)
    {rest : Bytes} (hrest : NoDigit rest) (hletter : ∀ b ∈ rest.head?, ascii b ≠ 'e' ∧ ascii b ≠ 'E') :
    outcome (exponentPart atEnd) (mark ++ (n.exponentDigits.map digitByte ++ rest)) =
      .ok (n.exponent, rest) := by
  unfold exponentDigits at hlt ⊢
  cases he : n.exponent with
  | none =>
    rw [he] at hmark
    obtain rfl : mark = [] := by simpa [marks] using hmark
    unfold exponentPart
    cases rest with
    | nil => rfl
    | cons b rest =>
      rcases hletter b rfl with ⟨hlower, hupper⟩
      show outcome (peek? >>= _) (b :: rest) = _
      rw [outcome_seq (outcome_peek b rest)]
      split
      · next h => exact absurd (Option.some.inj h) hlower
      · next h => exact absurd (Option.some.inj h) hupper
      · rfl
  | some e =>
    rcases e with ⟨negative, ds⟩
    rw [he] at hmark hlt hne
    rcases List.exists_cons_of_ne_nil (hne _ rfl) with ⟨d, ds, rfl⟩
    have hdigits := outcome_someDigits atEnd hlt hrest
    have hsign := outcome_sign_digit (hlt d List.mem_cons_self) (ds.map digitByte ++ rest)
    -- Behind the letter and the sign, the digits are read in the same way for every mark.
    have hlast : ∀ negative, outcome (do return some ⟨negative, ← someDigits atEnd⟩)
        ((d :: ds).map digitByte ++ rest) = .ok (some (⟨negative, d :: ds⟩ : Exponent), rest) := by
      intro negative
      rw [outcome_bind, hdigits]
      rfl
    cases negative with
    | true =>
      have hcases : mark = [0x65, 0x2D] ∨ mark = [0x45, 0x2D] := by simpa [marks] using hmark
      rcases hcases with rfl | rfl <;> exact hlast true
    | false =>
      have hcases : mark = [0x65] ∨ mark = [0x45] ∨ mark = [0x65, 0x2B] ∨ mark = [0x45, 0x2B] := by
        simpa [marks] using hmark
      have hunsigned : outcome (do
          let negative ← sign
          return some ⟨negative, ← someDigits atEnd⟩) ((d :: ds).map digitByte ++ rest) =
            .ok (some (⟨false, d :: ds⟩ : Exponent), rest) := by
        rw [outcome_bind, List.map_cons, List.cons_append, hsign]
        exact hlast false
      rcases hcases with rfl | rfl | rfl | rfl
      · exact hunsigned
      · exact hunsigned
      · exact hlast false
      · exact hlast false

/-! ## 3. Whole numerals -/

/-- What stands behind the digits of a part starts with no digit. -/
theorem noDigit_pointBytes (n : Numeral) {rest : Bytes} (hrest : NoDigit rest) :
    NoDigit (n.pointBytes ++ rest) := by
  refine noDigit_append ?_ hrest
  unfold pointBytes
  split
  · intro b hb
    cases hb
  · intro b hb
    obtain rfl : 0x2E = b := by simpa using hb
    decide

/-- What stands behind the point's digits starts with neither a digit nor a point. -/
theorem head_exponent {n : Numeral} {mark : Bytes} (hmark : mark ∈ marks n.exponent) {rest : Bytes}
    (hrest : Delimited rest) {b : UInt8}
    (hb : b ∈ (mark ++ (n.exponentDigits.map digitByte ++ rest)).head?) :
    digit? (ascii b) = none ∧ ascii b ≠ '.' := by
  unfold exponentDigits at hb
  cases he : n.exponent with
  | none =>
    rw [he] at hmark hb
    obtain rfl : mark = [] := by simpa [marks] using hmark
    exact ⟨(delimited_head hrest hb).1, (delimited_head hrest hb).2.1⟩
  | some e =>
    -- Every mark starts with one of the two letters.
    have hletter : b = 0x65 ∨ b = 0x45 := by
      rcases e with ⟨negative, ds⟩
      rw [he] at hmark
      cases negative <;> simp only [marks, List.mem_cons, List.not_mem_nil, or_false] at hmark
      · rcases hmark with rfl | rfl | rfl | rfl <;> simp_all
      · rcases hmark with rfl | rfl <;> simp_all
    rcases hletter with rfl | rfl <;> decide

/-- A numeral is read as it is spelled, if what follows can stand behind a value. -/
theorem outcome_read (atEnd : Fault) (t : Token) {rest : Bytes} (hrest : Delimited rest) :
    outcome (read atEnd) (t.bytes ++ rest) = .ok (t.numeral, rest) := by
  rcases t with ⟨n, hwf, mark, hmark⟩
  have hwhole : ∀ d ∈ n.whole, d < 10 := fun d hd => hwf.digits_lt d (by simp [hd])
  have hfraction : ∀ d ∈ n.fraction, d < 10 := fun d hd => hwf.digits_lt d (by simp [hd])
  have hexponent : ∀ d ∈ n.exponentDigits, d < 10 := fun d hd => hwf.digits_lt d (by simp [hd])
  have hend : NoDigit rest := fun b hb => (delimited_head hrest hb).1
  have htail : NoDigit (mark ++ (n.exponentDigits.map digitByte ++ rest)) :=
    fun b hb => (head_exponent hmark hrest hb).1
  have hfirst : ∀ b ∈ (n.whole.map digitByte ++ (n.pointBytes ++
      (mark ++ (n.exponentDigits.map digitByte ++ rest)))).head?, ascii b ≠ '-' := by
    obtain ⟨d, ds, hd⟩ : ∃ d ds, n.whole = d :: ds := by
      rcases hwf.whole with h | ⟨d, ds, h, -⟩ <;> exact ⟨_, _, h⟩
    intro b hb hminus
    rw [hd] at hb
    obtain rfl : digitByte d = b := by simpa using hb
    have := digit?_digitByte (hwhole d (by simp [hd]))
    rw [hminus] at this
    cases this
  -- Part by part, each of which ends because of what the next one starts with.
  unfold read
  simp only [Token.bytes, List.append_assoc]
  rw [outcome_seq (outcome_minus n hfirst)]
  rw [outcome_seq (outcome_wholePart atEnd hwhole hwf.whole (noDigit_pointBytes n htail))]
  rw [outcome_seq (outcome_fractionPart atEnd n hfraction htail
    fun b hb => (head_exponent hmark hrest hb).2)]
  rw [outcome_bind, outcome_exponentPart atEnd n hexponent hwf.exponent hmark hend
    fun b hb => (delimited_head hrest hb).2.2]
  rfl

end Numeral

/-- A number that is kept is read as the value of its numeral. -/
theorem Number.outcome_read (t : Numeral.Token) {rest : Bytes} (hrest : Delimited rest) :
    outcome read (t.bytes ++ rest) = t.numeral.number.map (·, rest) := by
  unfold read Numeral.number
  rw [outcome_seq (Numeral.outcome_read _ t hrest)]
  cases t.numeral.value? <;> rfl

/-- A number that is skipped is passed over whatever its value is. -/
theorem Number.outcome_skip (t : Numeral.Token) {rest : Bytes} (hrest : Delimited rest) :
    outcome skip (t.bytes ++ rest) = .ok ((), rest) := by
  unfold skip
  rw [outcome_bind, Numeral.outcome_read _ t hrest]
  rfl

end MetricCatalog.Json
