import MetricCatalog.Proofs.Json.AcceptedLoops

/-!
# Accepted scalars — literals and numerals that have been read
-/

namespace MetricCatalog.Json

open Scan Json.Tree

/-! ## 1. String literals -/

namespace Literal

theorem hex_inv {bs rest : Bytes} {n : Nat} (h : outcome hex bs = .ok (n, rest)) :
    ∃ a b c d, bs = a :: b :: c :: d :: rest ∧ (hex? a b c d).isSome := by
  rcases bs with _ | ⟨a, _ | ⟨b, _ | ⟨c, _ | ⟨d, bs⟩⟩⟩⟩
  case cons.cons.cons.cons =>
    cases hn : hex? a b c d with
    | none =>
      simp only [outcome, hex, hn] at h
      cases h
    | some m =>
      simp only [outcome, hex, hn] at h
      cases h
      exact ⟨a, b, c, d, rfl, by rw [hn]; rfl⟩
  all_goals cases h

theorem pairGoesOn_inv {x : UInt8} {bs rest : Bytes} {u : Unit}
    (h : outcome (pairGoesOn (ascii x)) bs = .ok (u, rest)) : bs = x :: rest := by
  cases bs with
  | nil => cases h
  | cons b bs =>
    rw [outcome_pairGoesOn] at h
    by_cases hb : ascii b = ascii x
    · rw [if_pos hb] at h
      cases h
      rw [ascii_inj hb]
    · rw [if_neg hb] at h
      cases h

/-- A code point stands in one numeric escape, or in the two of a surrogate pair. -/
theorem codePoint_inv {bs rest : Bytes} {n : Nat} (h : outcome codePoint bs = .ok (n, rest)) :
    ∃ ps : List Piece, 0x5C :: 0x75 :: bs = ps.flatMap Piece.bytes ++ rest := by
  -- The backslash and the letter that open the escape have been read before.
  rcases bind_eq_ok.1 h with ⟨n₁, mid, hhex, hrest⟩
  rcases hex_inv hhex with ⟨a, b, c, d, rfl, hsome⟩
  have hif : outcome (if isTrailing n₁ then fail (.malformed .loneSurrogate)
      else if isLeading n₁ then do
        pairGoesOn '\\'
        pairGoesOn 'u'
        let m ← hex
        if isTrailing m then return pairValue n₁ m
        else fail (.malformed .loneSurrogate)
      else return n₁) mid = .ok (n, rest) := hrest
  by_cases htrailing : isTrailing n₁ = true
  · rw [if_pos htrailing] at hif
    cases hif
  · rw [if_neg htrailing] at hif
    by_cases hleading : isLeading n₁ = true
    · rw [if_pos hleading] at hif
      rcases bind_eq_ok.1 hif with ⟨_, mid₁, hslash, hbehind⟩
      cases pairGoesOn_inv (x := 0x5C) hslash
      rcases bind_eq_ok.1 hbehind with ⟨_, mid₂, hu, hsecond⟩
      cases pairGoesOn_inv (x := 0x75) hu
      rcases bind_eq_ok.1 hsecond with ⟨m, mid₃, hhex', hpair⟩
      rcases hex_inv hhex' with ⟨a', b', c', d', rfl, hsome'⟩
      by_cases hm : isTrailing m = true
      · rw [if_pos hm] at hpair
        cases hpair
        exact ⟨[.code a b c d hsome, .code a' b' c' d' hsome'], rfl⟩
      · rw [if_neg hm] at hpair
        cases hpair
    · rw [if_neg hleading] at hif
      cases hif
      exact ⟨[.code a b c d hsome], rfl⟩

theorem keptPiece_inv {bs rest : Bytes} {more : Option Bytes}
    (h : outcome keptPiece bs = .ok (more, rest)) :
    (more = none ∧ bs = 0x22 :: rest) ∨
      (more ≠ none ∧ ∃ ps : List Piece, bs = ps.flatMap Piece.bytes ++ rest) := by
  cases bs with
  | nil => cases h
  | cons b bs =>
    by_cases hquote : ascii b = '"'
    · cases ascii_inj (c := 0x22) hquote
      cases h
      exact .inl ⟨rfl, rfl⟩
    · by_cases hslash : ascii b = '\\'
      · cases ascii_inj (c := 0x5C) hslash
        cases bs with
        | nil => cases h
        | cons c bs =>
          rw [outcome_keptPiece_escape, outcome_seq (outcome_take c bs)] at h
          -- The letter behind the backslash says which escape it is.
          split at h
          · contradiction
          · next hu =>
            cases ascii_inj (c := 0x75) (Option.some.inj hu)
            rcases bind_eq_ok.1 h with ⟨n, mid, hcode, hlast⟩
            cases hlast
            exact .inr ⟨Option.some_ne_none _, codePoint_inv hcode⟩
          · next c' _ hc =>
            cases Option.some.inj hc
            cases hletter : letter? (ascii c) with
            | none =>
              rw [hletter] at h
              cases h
            | some x =>
              rw [hletter] at h
              cases h
              exact .inr ⟨Option.some_ne_none _, [.letter c (by rw [hletter]; rfl)], rfl⟩
      · rw [outcome_keptPiece_other hquote hslash] at h
        by_cases hcontrol : isControl b = true
        · rw [if_pos hcontrol] at h
          cases h
        · rw [if_neg hcontrol] at h
          cases h
          exact .inr ⟨Option.some_ne_none _,
            [.plain b ⟨Bool.eq_false_iff.2 hcontrol, hquote, hslash⟩], rfl⟩

/-- Each step of the loop reads the closing quote or whole pieces. -/
def FindsPieces (piece : Scan (Option Bytes)) : Prop :=
  ∀ bs more rest, outcome piece bs = .ok (more, rest) →
    (more = none ∧ bs = 0x22 :: rest) ∨
      (more ≠ none ∧ ∃ ps : List Piece, bs = ps.flatMap Piece.bytes ++ rest)

/-- The pieces up to the closing quote. -/
theorem pieces_inv {piece : Scan (Option Bytes)} (hpieces : FindsPieces piece)
    {done fuel bs rest text : Bytes} (h : outcome (pieces piece done fuel) bs = .ok (text, rest)) :
    ∃ ps, bs = inside ps ++ rest := by
  -- What the pieces denote does not matter here, so `done` may be anything.
  induction fuel generalizing done bs with
  | nil => cases h
  | cons f fuel ih =>
    cases hpiece : outcome piece bs with
    | error e =>
      rw [outcome_pieces_error f fuel hpiece] at h
      cases h
    | ok r =>
      rcases r with ⟨more, mid⟩
      rcases hpieces _ _ _ hpiece with ⟨rfl, rfl⟩ | ⟨hmore, ps, rfl⟩
      · rw [outcome_pieces_end f fuel hpiece] at h
        cases h
        exact ⟨[], rfl⟩
      · rcases Option.ne_none_iff_exists'.1 hmore with ⟨bytes, rfl⟩
        rw [outcome_pieces_ok f fuel hpiece] at h
        rcases ih h with ⟨qs, rfl⟩
        exact ⟨ps ++ qs, by simp only [inside, List.flatMap_append, List.append_assoc]⟩

theorem read_inv {bs rest : Bytes} {s : String} (h : outcome read bs = .ok (s, rest)) :
    ∃ ps, bs = inside ps ++ rest ∧ text ps = .ok s := by
  rcases bind_eq_ok.1 h with ⟨bytes, mid, hpieces, -⟩
  rcases pieces_inv (fun _ _ _ => keptPiece_inv) hpieces with ⟨ps, rfl⟩
  -- The bytes are those of a literal, so what is read of them is known already.
  rw [outcome_read] at h
  rcases ok_of_map h with ⟨s', htext, hs⟩
  cases hs
  exact ⟨ps, rfl, htext⟩

end Literal

/-! ## 2. Numerals -/

namespace Numeral

theorem digit?_inv {b : UInt8} {d : Nat} (h : digit? (ascii b) = some d) :
    d < 10 ∧ b = digitByte d := by
  unfold digit? at h
  by_cases hrange : '0' ≤ ascii b ∧ ascii b ≤ '9'
  · rw [if_pos hrange] at h
    have hlo : 48 ≤ (ascii b).toNat := hrange.1
    have hhi : (ascii b).toNat ≤ 57 := hrange.2
    have hd : (ascii b).toNat - 48 = d := Option.some.inj h
    rw [toNat_ascii] at hlo hhi hd
    refine ⟨by omega, ?_⟩
    rw [digitByte, show 0x30 + d = b.toNat by omega, UInt8.ofNat_toNat]
  · rw [if_neg hrange] at h
    cases h

theorem peek_inv {bs rest : Bytes} {c : Option Char} (h : outcome peek? bs = .ok (c, rest)) :
    bs = rest ∧ c = rest.head?.map ascii := by
  have hpeek : outcome peek? bs = .ok (bs.head?.map ascii, bs) := rfl
  rw [hpeek] at h
  cases h
  exact ⟨rfl, rfl⟩

/-- A row of digits is told from their values. -/
theorem map_digitByte_filterMap {row : Bytes} (hrow : ∀ b ∈ row, (digit? (ascii b)).isSome = true) :
    (row.filterMap (digit? ∘ ascii)).map digitByte = row ∧
      ∀ d ∈ row.filterMap (digit? ∘ ascii), d < 10 := by
  induction row with
  | nil => exact ⟨rfl, nofun⟩
  | cons b row ih =>
    rcases Option.isSome_iff_exists.1 (hrow b List.mem_cons_self) with ⟨d, hd⟩
    rcases ih fun c hc => hrow c (List.mem_cons_of_mem _ hc) with ⟨hmap, hlt⟩
    rcases digit?_inv hd with ⟨hd10, hb⟩
    rw [List.filterMap_cons_some (f := digit? ∘ ascii) hd, List.map_cons, hmap, ← hb]
    exact ⟨rfl, List.forall_mem_cons.2 ⟨hd10, hlt⟩⟩

theorem digits_inv {bs rest : Bytes} {ds : List Nat} (h : outcome digits bs = .ok (ds, rest)) :
    bs = ds.map digitByte ++ rest ∧ ∀ d ∈ ds, d < 10 := by
  have hdigits : outcome digits bs =
      .ok ((bs.takeWhile fun b => (digit? (ascii b)).isSome).filterMap (digit? ∘ ascii),
        bs.dropWhile fun b => (digit? (ascii b)).isSome) := rfl
  rw [hdigits] at h
  cases h
  have hrow : ∀ b ∈ bs.takeWhile fun b => (digit? (ascii b)).isSome,
      (digit? (ascii b)).isSome = true :=
    fun b hb => List.all_eq_true.1 List.all_takeWhile b hb
  rcases map_digitByte_filterMap hrow with ⟨hmap, hlt⟩
  exact ⟨by rw [hmap, List.takeWhile_append_dropWhile], hlt⟩

theorem someDigits_inv {atEnd : Fault} {bs rest : Bytes} {ds : List Nat}
    (h : outcome (someDigits atEnd) bs = .ok (ds, rest)) :
    bs = ds.map digitByte ++ rest ∧ (∀ d ∈ ds, d < 10) ∧
      ∃ b d ds', bs.head? = some b ∧ ds = d :: ds' ∧ b = digitByte d := by
  cases bs with
  | nil => cases h
  | cons b bs =>
    rw [someDigits, outcome_seq (outcome_take b bs)] at h
    cases hb : digit? (ascii b) with
    | none =>
      simp only [hb] at h
      cases h
    | some d =>
      simp only [hb] at h
      rcases bind_eq_ok.1 h with ⟨ds', mid, hdigits, hlast⟩
      cases hlast
      rcases digits_inv hdigits with ⟨rfl, hlt⟩
      rcases digit?_inv hb with ⟨hd, rfl⟩
      exact ⟨rfl, List.forall_mem_cons.2 ⟨hd, hlt⟩, _, d, ds', rfl, rfl, rfl⟩

theorem minus_inv {bs rest : Bytes} {negative : Bool} (h : outcome minus bs = .ok (negative, rest)) :
    bs = (if negative then [0x2D] else []) ++ rest := by
  rcases bind_eq_ok.1 h with ⟨c, mid, hpeek, hif⟩
  rcases peek_inv hpeek with ⟨rfl, rfl⟩
  by_cases hc : bs.head?.map ascii = some '-'
  · rw [if_pos hc] at hif
    rcases cons_of_head (b := 0x2D) hc.symm with ⟨bs, rfl⟩
    cases hif
    rfl
  · rw [if_neg hc] at hif
    cases hif
    rfl

theorem wholePart_inv {atEnd : Fault} {bs rest : Bytes} {whole : List Nat}
    (h : outcome (wholePart atEnd) bs = .ok (whole, rest)) :
    bs = whole.map digitByte ++ rest ∧ (∀ d ∈ whole, d < 10) ∧
      (whole = [0] ∨ ∃ d ds, whole = d :: ds ∧ d ≠ 0) := by
  rcases bind_eq_ok.1 h with ⟨c, mid, hpeek, hif⟩
  rcases peek_inv hpeek with ⟨rfl, rfl⟩
  by_cases hc : bs.head?.map ascii = some '0'
  · rw [if_pos hc] at hif
    rcases cons_of_head (b := 0x30) hc.symm with ⟨bs, rfl⟩
    rcases bind_eq_ok.1 hif with ⟨_, _, hzero, hbehind⟩
    cases hzero
    -- No digit follows a leading zero.
    have hzero : whole = [0] ∧ bs = rest := by
      rcases bind_eq_ok.1 hbehind with ⟨c, mid, hpeek', hmatch⟩
      rcases peek_inv hpeek' with ⟨rfl, -⟩
      split at hmatch
      · next c =>
        cases hdigit : (digit? c).isSome with
        | true =>
          rw [hdigit] at hmatch
          cases hmatch
        | false =>
          rw [hdigit] at hmatch
          cases hmatch
          exact ⟨rfl, rfl⟩
      · cases hmatch
        exact ⟨rfl, rfl⟩
    rcases hzero with ⟨rfl, rfl⟩
    exact ⟨rfl, by decide, .inl rfl⟩
  · rw [if_neg hc] at hif
    rcases someDigits_inv hif with ⟨hbs, hlt, b, d, ds, hhead, rfl, rfl⟩
    refine ⟨hbs, hlt, .inr ⟨d, ds, rfl, ?_⟩⟩
    rintro rfl
    rw [hhead] at hc
    exact hc rfl

theorem fractionPart_inv {atEnd : Fault} {bs rest : Bytes} {fraction : List Nat}
    (h : outcome (fractionPart atEnd) bs = .ok (fraction, rest)) :
    bs = (if fraction = [] then [] else 0x2E :: fraction.map digitByte) ++ rest ∧
      ∀ d ∈ fraction, d < 10 := by
  rcases bind_eq_ok.1 h with ⟨c, mid, hpeek, hif⟩
  rcases peek_inv hpeek with ⟨rfl, rfl⟩
  by_cases hc : bs.head?.map ascii = some '.'
  · rw [if_pos hc] at hif
    rcases cons_of_head (b := 0x2E) hc.symm with ⟨bs, rfl⟩
    rcases bind_eq_ok.1 hif with ⟨_, _, hpoint, hbehind⟩
    cases hpoint
    rcases bind_eq_ok.1 hbehind with ⟨ds, mid, hdigits, hmatch⟩
    rcases digits_inv hdigits with ⟨rfl, hlt⟩
    -- A point without digits behind it is refused.
    cases ds with
    | nil => cases hmatch
    | cons d ds =>
      cases hmatch
      exact ⟨by rw [if_neg (List.cons_ne_nil d ds)]; rfl, hlt⟩
  · rw [if_neg hc] at hif
    cases hif
    exact ⟨rfl, nofun⟩

theorem sign_inv {bs rest : Bytes} {negative : Bool} (h : outcome sign bs = .ok (negative, rest)) :
    ∃ mark, bs = mark ++ rest ∧
      ((negative = true ∧ mark = [0x2D]) ∨ (negative = false ∧ (mark = [] ∨ mark = [0x2B]))) := by
  rcases bind_eq_ok.1 h with ⟨c, mid, hpeek, hmatch⟩
  rcases peek_inv hpeek with ⟨rfl, hc⟩
  split at hmatch
  · rcases cons_of_head (b := 0x2D) hc with ⟨bs, rfl⟩
    cases hmatch
    exact ⟨[0x2D], rfl, .inl ⟨rfl, rfl⟩⟩
  · rcases cons_of_head (b := 0x2B) hc with ⟨bs, rfl⟩
    cases hmatch
    exact ⟨[0x2B], rfl, .inr ⟨rfl, .inr rfl⟩⟩
  · cases hmatch
    exact ⟨[], rfl, .inr ⟨rfl, .inl rfl⟩⟩

/-- Behind the letter of an exponent stand its sign and its digits. -/
theorem exponentDigits_inv {atEnd : Fault} {letter : UInt8} (hletter : letter = 0x65 ∨ letter = 0x45)
    {bs rest : Bytes} {e : Option Exponent}
    (h : outcome (do
      let negative ← sign
      return some ⟨negative, ← someDigits atEnd⟩) bs = .ok (e, rest)) :
    ∃ x mark, e = some x ∧ x.digits ≠ [] ∧ (∀ d ∈ x.digits, d < 10) ∧ mark ∈ marks e ∧
      letter :: bs = mark ++ (x.digits.map digitByte ++ rest) := by
  rcases bind_eq_ok.1 h with ⟨negative, mid, hsign, hmore⟩
  rcases sign_inv hsign with ⟨mark, rfl, hmark⟩
  rcases bind_eq_ok.1 hmore with ⟨ds, mid', hdigits, hlast⟩
  cases hlast
  rcases someDigits_inv hdigits with ⟨rfl, hlt, _, d, ds', -, rfl, -⟩
  refine ⟨⟨negative, d :: ds'⟩, letter :: mark, rfl, List.cons_ne_nil d ds', hlt, ?_, rfl⟩
  rcases hmark with ⟨rfl, rfl⟩ | ⟨rfl, rfl | rfl⟩ <;> rcases hletter with rfl | rfl <;>
    simp only [marks, List.mem_cons, true_or, or_true]

theorem exponentPart_inv {atEnd : Fault} {bs rest : Bytes} {e : Option Exponent}
    (h : outcome (exponentPart atEnd) bs = .ok (e, rest)) :
    ∃ mark, mark ∈ marks e ∧ bs = mark ++ (((e.map (·.digits)).getD []).map digitByte ++ rest) ∧
      (∀ d ∈ (e.map (·.digits)).getD [], d < 10) ∧ ∀ x ∈ e, x.digits ≠ [] := by
  rcases bind_eq_ok.1 h with ⟨c, mid, hpeek, hmatch⟩
  rcases peek_inv hpeek with ⟨rfl, hc⟩
  -- Both letters lead to the same digits.
  have hwritten : ∀ letter : UInt8, (letter = 0x65 ∨ letter = 0x45) →
      some (ascii letter) = bs.head?.map ascii →
      outcome (advance >>= fun _ => do
        let negative ← sign
        return some ⟨negative, ← someDigits atEnd⟩) bs = .ok (e, rest) →
      ∃ mark, mark ∈ marks e ∧ bs = mark ++ (((e.map (·.digits)).getD []).map digitByte ++ rest) ∧
        (∀ d ∈ (e.map (·.digits)).getD [], d < 10) ∧ ∀ x ∈ e, x.digits ≠ [] := by
    intro letter hletter hhead hdigits
    rcases cons_of_head hhead with ⟨bs, rfl⟩
    rw [outcome_bind, outcome_advance] at hdigits
    rcases exponentDigits_inv hletter hdigits with ⟨x, mark, rfl, hne, hlt, hmark, hbytes⟩
    refine ⟨mark, hmark, hbytes, hlt, ?_⟩
    intro y hy
    cases hy
    exact hne
  split at hmatch
  · exact hwritten 0x65 (.inl rfl) hc hmatch
  · exact hwritten 0x45 (.inr rfl) hc hmatch
  · cases hmatch
    exact ⟨[], List.mem_singleton_self _, rfl, nofun, nofun⟩

/-- A numeral that has been read is one of the grammar. -/
theorem read_inv {atEnd : Fault} {bs rest : Bytes} {n : Numeral}
    (h : outcome (read atEnd) bs = .ok (n, rest)) :
    ∃ t : Token, bs = t.bytes ++ rest ∧ t.numeral = n := by
  rcases bind_eq_ok.1 h with ⟨negative, mid₁, hminus, h₁⟩
  rcases bind_eq_ok.1 h₁ with ⟨whole, mid₂, hwhole, h₂⟩
  rcases bind_eq_ok.1 h₂ with ⟨fraction, mid₃, hfraction, h₃⟩
  rcases bind_eq_ok.1 h₃ with ⟨exponent, mid₄, hexponent, hlast⟩
  cases hlast
  -- From the last part to the first, since each part's bytes stand before those of the next.
  rcases exponentPart_inv hexponent with ⟨mark, hmark, hbytes₃, hlt₃, hne⟩
  rcases fractionPart_inv hfraction with ⟨hbytes₂, hlt₂⟩
  rcases wholePart_inv hwhole with ⟨hbytes₁, hlt₁, hcases⟩
  refine ⟨⟨⟨negative, whole, fraction, exponent⟩, ⟨?_, hcases, hne⟩, mark, hmark⟩, ?_, rfl⟩
  · intro d hd
    rcases List.mem_append.1 hd with hd | hd
    · rcases List.mem_append.1 hd with hd | hd
      · exact hlt₁ d hd
      · exact hlt₂ d hd
    · exact hlt₃ d hd
  · rw [minus_inv hminus, hbytes₁, hbytes₂, hbytes₃]
    simp only [Token.bytes, signBytes, pointBytes, exponentDigits, List.append_assoc]

end Numeral

theorem Number.read_inv {bs rest : Bytes} {x : Number} (h : outcome read bs = .ok (x, rest)) :
    ∃ t : Numeral.Token, bs = t.bytes ++ rest ∧ t.numeral.number = .ok x := by
  rcases bind_eq_ok.1 h with ⟨n, mid, hnumeral, hvalue⟩
  rcases Numeral.read_inv hnumeral with ⟨t, rfl, rfl⟩
  refine ⟨t, ?_⟩
  rw [Numeral.number]
  cases hx : t.numeral.value? with
  | none =>
    rw [hx] at hvalue
    cases hvalue
  | some y =>
    rw [hx] at hvalue
    cases hvalue
    exact ⟨rfl, rfl⟩

end MetricCatalog.Json
