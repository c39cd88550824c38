import MetricCatalog.Proofs.Json.Outcome

/-!
# Literals — what is read of them and what is skipped

A literal that is kept gives the text that its pieces denote. A literal that is skipped is passed over
whatever they denote, so halves of surrogate pairs do not stop it.
-/

namespace MetricCatalog.Json.Literal

open Scan

/-! ## 1. Pieces that are kept -/

theorem inside_cons (p : Piece) (ps : List Piece) (rest : Bytes) :
    inside (p :: ps) ++ rest = p.bytes ++ (inside ps ++ rest) := by
  simp only [inside, List.flatMap_cons, List.append_assoc]

theorem outcome_hex {a b c d : UInt8} (h : (hex? a b c d).isSome) (rest : Bytes) :
    outcome hex (a :: b :: c :: d :: rest) = .ok ((hex? a b c d).get h, rest) := by
  rcases Option.isSome_iff_exists.1 h with ⟨n, hn⟩
  simp only [outcome, hex, hn, Option.get_some]

theorem outcome_pairGoesOn (c : Char) (b : UInt8) (rest : Bytes) :
    outcome (pairGoesOn c) (b :: rest) =
      if ascii b = c then .ok ((), rest) else .error (.malformed .unfinishedSurrogatePair) := by
  unfold pairGoesOn
  rw [outcome_bind, outcome_take]
  show outcome (if ascii b = c then pure () else fail _) rest = _
  split <;> rfl

/-- A code point outside the surrogates stands alone. -/
theorem outcome_codePoint_single {a b c d : UInt8} (h : (hex? a b c d).isSome)
    (ht : isTrailing ((hex? a b c d).get h) = false) (hl : isLeading ((hex? a b c d).get h) = false)
    (rest : Bytes) :
    outcome codePoint (a :: b :: c :: d :: rest) = .ok ((hex? a b c d).get h, rest) := by
  unfold codePoint
  rw [outcome_bind, outcome_hex h]
  show outcome (if isTrailing ((hex? a b c d).get h) then _
    else if isLeading ((hex? a b c d).get h) then _ else _) rest = _
  rw [ht, hl]
  rfl

theorem outcome_codePoint_trailing {a b c d : UInt8} (h : (hex? a b c d).isSome)
    (ht : isTrailing ((hex? a b c d).get h) = true) (rest : Bytes) :
    outcome codePoint (a :: b :: c :: d :: rest) = .error (.malformed .loneSurrogate) := by
  unfold codePoint
  rw [outcome_bind, outcome_hex h]
  show outcome (if isTrailing ((hex? a b c d).get h) then _ else _) rest = _
  rw [ht]
  rfl

/-- Behind the first half of a pair, the rest of `codePoint` looks for the second one. -/
theorem outcome_codePoint_leading {a b c d : UInt8} (h : (hex? a b c d).isSome)
    (ht : isTrailing ((hex? a b c d).get h) = false) (hl : isLeading ((hex? a b c d).get h) = true)
    (rest : Bytes) :
    outcome codePoint (a :: b :: c :: d :: rest) = outcome (do
      pairGoesOn '\\'
      pairGoesOn 'u'
      let m ← hex
      if isTrailing m then return pairValue ((hex? a b c d).get h) m
      else fail (.malformed .loneSurrogate)) rest := by
  unfold codePoint
  rw [outcome_bind, outcome_hex h]
  show outcome (if isTrailing ((hex? a b c d).get h) then _
    else if isLeading ((hex? a b c d).get h) then _ else _) rest = _
  rw [ht, hl]
  rfl

theorem outcome_keptPiece_quote (rest : Bytes) :
    outcome keptPiece (0x22 :: rest) = .ok (none, rest) := rfl

theorem outcome_keptPiece_other {b : UInt8} (hquote : ascii b ≠ '"') (hslash : ascii b ≠ '\\')
    (rest : Bytes) :
    outcome keptPiece (b :: rest) =
      if isControl b then .error (.malformed .controlCharacter) else .ok (some [b], rest) := by
  simp only [outcome, keptPiece, if_neg hquote, if_neg hslash]
  cases isControl b <;> rfl

theorem outcome_keptPiece_plain {b : UInt8} (h : isControl b = false ∧ ascii b ≠ '"' ∧ ascii b ≠ '\\')
    (rest : Bytes) :
    outcome keptPiece (b :: rest) = .ok (some [b], rest) := by
  rw [outcome_keptPiece_other h.2.1 h.2.2, h.1]
  rfl

/-- Behind a backslash, the next byte says which escape it is. -/
theorem outcome_keptPiece_escape (rest : Bytes) :
    outcome keptPiece (0x5C :: rest) = outcome (do
      match ← take? with
      | none => fail (.unfinished .string)
      | some 'u' => return some (String.utf8EncodeChar (Char.ofNat (← codePoint)))
      | some c =>
        match letter? c with
        | some b => return some [b]
        | none => fail (.malformed .escape)) rest := rfl

theorem outcome_keptPiece_letter {b : UInt8} (h : (letter? (ascii b)).isSome) (rest : Bytes) :
    outcome keptPiece (0x5C :: b :: rest) = .ok (some [(letter? (ascii b)).get h], rest) := by
  rcases Option.isSome_iff_exists.1 h with ⟨x, hx⟩
  have hu : ascii b ≠ 'u' := by
    intro hu
    rw [hu, show letter? 'u' = none by decide] at hx
    cases hx
  rw [outcome_keptPiece_escape, outcome_seq (outcome_take b rest)]
  split
  · contradiction
  · next h => exact absurd (Option.some.inj h) hu
  · next c _ hc =>
    rcases Option.some.inj hc with rfl
    simp only [hx, Option.get_some, outcome_pure]

theorem outcome_keptPiece_code (rest : Bytes) :
    outcome keptPiece (0x5C :: 0x75 :: rest) =
      (outcome codePoint rest).map fun r => (some (String.utf8EncodeChar (Char.ofNat r.1)), r.2) := by
  rw [outcome_keptPiece_escape, outcome_bind, outcome_take]
  show outcome (codePoint >>= _) rest = _
  rw [outcome_bind]
  cases outcome codePoint rest <;> rfl

/-- Two halves of a pair together denote one character. -/
theorem outcome_keptPiece_pair {a b c d a' b' c' d' : UInt8} (h : (hex? a b c d).isSome)
    (h' : (hex? a' b' c' d').isSome) (ht : isTrailing ((hex? a b c d).get h) = false)
    (hl : isLeading ((hex? a b c d).get h) = true) (rest : Bytes) :
    outcome keptPiece (0x5C :: 0x75 :: a :: b :: c :: d :: 0x5C :: 0x75 :: a' :: b' :: c' :: d' :: rest) =
      if isTrailing ((hex? a' b' c' d').get h') then
        .ok (some (String.utf8EncodeChar
          (Char.ofNat (pairValue ((hex? a b c d).get h) ((hex? a' b' c' d').get h')))), rest)
      else .error (.malformed .loneSurrogate) := by
  -- Behind the first half come the backslash, the letter and the digits of the second one.
  rw [outcome_keptPiece_code, outcome_codePoint_leading h ht hl, outcome_bind, outcome_pairGoesOn,
    if_pos (by decide)]
  show Except.map _ (outcome (pairGoesOn 'u' >>= _) (0x75 :: a' :: b' :: c' :: d' :: rest)) = _
  rw [outcome_bind, outcome_pairGoesOn, if_pos (by decide)]
  show Except.map _ (outcome (hex >>= _) (a' :: b' :: c' :: d' :: rest)) = _
  rw [outcome_bind, outcome_hex h']
  show Except.map _ (outcome (if isTrailing ((hex? a' b' c' d').get h') then _ else _) rest) = _
  split <;> rfl

/-- The first half of a pair must not stand before anything but a numeric escape. -/
theorem outcome_keptPiece_unpaired {a b c d : UInt8} (h : (hex? a b c d).isSome)
    (ht : isTrailing ((hex? a b c d).get h) = false) (hl : isLeading ((hex? a b c d).get h) = true)
    {ps : List Piece} (hps : ∀ a' b' c' d' h' ps', ps ≠ .code a' b' c' d' h' :: ps') (rest : Bytes) :
    outcome keptPiece (0x5C :: 0x75 :: a :: b :: c :: d :: (inside ps ++ rest)) =
      .error (.malformed .unfinishedSurrogatePair) := by
  rw [outcome_keptPiece_code, outcome_codePoint_leading h ht hl, outcome_bind]
  -- Either the quote follows, or a piece that lacks the backslash or the letter of such an escape.
  rcases ps with _ | ⟨p, ps⟩
  · rfl
  · rw [inside_cons]
    cases p with
    | plain x hx =>
      rw [Piece.bytes, List.cons_append, outcome_pairGoesOn, if_neg hx.2.2]
      rfl
    | letter x hx =>
      have hu : ascii x ≠ 'u' := by
        intro hu
        rw [hu] at hx
        exact absurd hx (by decide)
      rw [Piece.bytes, List.cons_append, outcome_pairGoesOn, if_pos (by decide)]
      show Except.map _ (outcome (pairGoesOn 'u' >>= _) (x :: ([] ++ (inside ps ++ rest)))) = _
      rw [outcome_bind, outcome_pairGoesOn, if_neg hu]
      rfl
    | code a' b' c' d' h' => exact absurd rfl (hps a' b' c' d' h' ps)

/-! ## 2. Literals -/

theorem outcome_pieces_ok {piece : Scan (Option Bytes)} {more done bs bs' : Bytes} (f : UInt8)
    (fuel : Bytes) (h : outcome piece bs = .ok (some more, bs')) :
    outcome (pieces piece done (f :: fuel)) bs =
      outcome (pieces piece (more.reverse ++ done) fuel) bs' := by
  unfold outcome at h ⊢
  rw [pieces]
  rcases hp : piece bs with e | ⟨r, rest⟩
  · rw [hp] at h
    cases h
  · rw [hp] at h
    cases h
    rfl

theorem outcome_pieces_error {piece : Scan (Option Bytes)} {fault : Fault} {done bs : Bytes} (f : UInt8)
    (fuel : Bytes) (h : outcome piece bs = .error fault) :
    outcome (pieces piece done (f :: fuel)) bs = .error fault := by
  unfold outcome at h ⊢
  rw [pieces]
  rcases hp : piece bs with e | ⟨r, rest⟩
  · rw [hp] at h
    cases h
    rfl
  · rw [hp] at h
    cases h

theorem outcome_pieces_end {piece : Scan (Option Bytes)} {done bs bs' : Bytes} (f : UInt8)
    (fuel : Bytes) (h : outcome piece bs = .ok (none, bs')) :
    outcome (pieces piece done (f :: fuel)) bs = .ok (done.reverse, bs') := by
  unfold outcome at h ⊢
  rw [pieces]
  rcases hp : piece bs with e | ⟨r, rest⟩
  · rw [hp] at h
    cases h
  · rw [hp] at h
    cases h
    rfl

/-- The pieces of a kept literal give what they denote. -/
theorem outcome_pieces_kept (ps : List Piece) (done : Bytes) {fuel : Bytes}
    (hfuel : ps.length < fuel.length) (rest : Bytes) :
    outcome (pieces keptPiece done fuel) (inside ps ++ rest) =
      (denoted ps).map fun bs => (done.reverse ++ bs, rest) := by
  -- What the pieces behind the first one give is put behind what that one gave.
  have step : ∀ (ps : List Piece) (more done fuel : Bytes),
      (∀ (done : Bytes) {fuel : Bytes}, ps.length < fuel.length →
        outcome (pieces keptPiece done fuel) (inside ps ++ rest) =
          (denoted ps).map fun bs => (done.reverse ++ bs, rest)) →
      ps.length < fuel.length →
      outcome (pieces keptPiece (more.reverse ++ done) fuel) (inside ps ++ rest) =
        ((denoted ps).map (more ++ ·)).map fun bs => (done.reverse ++ bs, rest) := by
    intro ps more done fuel ih hfuel
    rw [ih (more.reverse ++ done) hfuel, List.reverse_append, List.reverse_reverse]
    cases denoted ps with
    | error e => rfl
    | ok bs =>
      simp only [Except.map, List.append_assoc]
  -- The induction is along `denoted`, which takes the two escapes of a surrogate pair at once.
  fun_induction denoted ps generalizing done fuel with
  | case1 =>
    rcases List.exists_cons_of_length_pos hfuel with ⟨f, fuel, rfl⟩
    refine (outcome_pieces_end f fuel (outcome_keptPiece_quote rest)).trans ?_
    simp only [Except.map, List.append_nil]
  | case2 b hb ps ih =>
    rcases List.exists_cons_of_length_pos (Nat.zero_lt_of_lt hfuel) with ⟨f, fuel, rfl⟩
    rw [inside_cons]
    refine (outcome_pieces_ok f fuel (outcome_keptPiece_plain hb (inside ps ++ rest))).trans ?_
    exact step ps [b] done fuel ih (Nat.lt_of_succ_lt_succ hfuel)
  | case3 b h ps ih =>
    rcases List.exists_cons_of_length_pos (Nat.zero_lt_of_lt hfuel) with ⟨f, fuel, rfl⟩
    rw [inside_cons]
    refine (outcome_pieces_ok f fuel (outcome_keptPiece_letter h (inside ps ++ rest))).trans ?_
    exact step ps [(letter? (ascii b)).get h] done fuel ih (Nat.lt_of_succ_lt_succ hfuel)
  | case4 a b c d h ps n ht =>
    rcases List.exists_cons_of_length_pos (Nat.zero_lt_of_lt hfuel) with ⟨f, fuel, rfl⟩
    rw [inside_cons]
    have hp := outcome_keptPiece_code (a :: b :: c :: d :: (inside ps ++ rest))
    rw [outcome_codePoint_trailing h ht] at hp
    exact outcome_pieces_error f fuel hp
  | case5 a b c d h n ht hl a' b' c' d' h' ps m hm =>
    rename_i ih
    rcases List.exists_cons_of_length_pos (Nat.zero_lt_of_lt hfuel) with ⟨f, fuel, rfl⟩
    rw [inside_cons, inside_cons]
    have hp := outcome_keptPiece_pair h h' (Bool.eq_false_iff.2 ht) hl (inside ps ++ rest)
    rw [if_pos hm] at hp
    refine (outcome_pieces_ok f fuel hp).trans ?_
    refine step ps _ done fuel ih ?_
    simp only [List.length_cons] at hfuel
    omega
  | case6 a b c d h n ht hl a' b' c' d' h' ps m =>
    rename_i hm
    rcases List.exists_cons_of_length_pos (Nat.zero_lt_of_lt hfuel) with ⟨f, fuel, rfl⟩
    rw [inside_cons, inside_cons]
    have hp := outcome_keptPiece_pair h h' (Bool.eq_false_iff.2 ht) hl (inside ps ++ rest)
    rw [if_neg hm] at hp
    exact outcome_pieces_error f fuel hp
  | case7 a b c d h ps n ht hl hps =>
    rcases List.exists_cons_of_length_pos (Nat.zero_lt_of_lt hfuel) with ⟨f, fuel, rfl⟩
    rw [inside_cons]
    exact outcome_pieces_error f fuel
      (outcome_keptPiece_unpaired h (Bool.eq_false_iff.2 ht) hl
        (fun a' b' c' d' h' ps' => hps a' b' c' d' h' ps') rest)
  | case8 a b c d h ps n ht hl ih =>
    rcases List.exists_cons_of_length_pos (Nat.zero_lt_of_lt hfuel) with ⟨f, fuel, rfl⟩
    rw [inside_cons]
    have hp := outcome_keptPiece_code (a :: b :: c :: d :: (inside ps ++ rest))
    rw [outcome_codePoint_single h (Bool.eq_false_iff.2 ht) (Bool.eq_false_iff.2 hl)] at hp
    refine (outcome_pieces_ok f fuel hp).trans ?_
    exact step ps _ done fuel ih (Nat.lt_of_succ_lt_succ hfuel)

theorem length_lt_inside (ps : List Piece) (rest : Bytes) :
    ps.length < (0 :: (inside ps ++ rest)).length := by
  induction ps with
  | nil => simp
  | cons p ps ih =>
    rw [inside_cons]
    have hp : 0 < p.bytes.length := by cases p <;> simp [Piece.bytes]
    simp only [List.length_cons, List.length_append] at ih ⊢
    omega

/-- A kept literal is read as the text that its pieces denote. -/
theorem outcome_read (ps : List Piece) (rest : Bytes) :
    outcome read (inside ps ++ rest) = (text ps).map (·, rest) := by
  unfold read text
  rw [outcome_bind, outcome_withFuel, outcome_pieces_kept ps [] (length_lt_inside ps rest)]
  cases denoted ps with
  | error e => rfl
  | ok bs =>
    simp only [Except.map, bind, Except.bind, List.reverse_nil, List.nil_append]
    rcases Utf8.decode bs with ⟨s, _ | ⟨b, bad⟩⟩ <;> rfl

/-! ## 3. Literals that are skipped -/

/-- Behind a backslash, the next byte says which escape it is. -/
theorem outcome_skippedPiece_escape (rest : Bytes) :
    outcome skippedPiece (0x5C :: rest) = outcome (do
      match ← take? with
      | none => fail (.unfinished .string)
      | some 'u' => do
        let _ ← hex
        return some []
      | some c => if (letter? c).isSome then return some [] else fail (.malformed .escape)
      : Scan (Option Bytes)) rest := rfl

theorem outcome_skippedPiece_other {b : UInt8} (hquote : ascii b ≠ '"') (hslash : ascii b ≠ '\\')
    (rest : Bytes) :
    outcome skippedPiece (b :: rest) =
      if isControl b then .error (.malformed .controlCharacter) else .ok (some [], rest) := by
  simp only [outcome, skippedPiece, if_neg hquote, if_neg hslash]
  cases isControl b <;> rfl

theorem outcome_skippedPiece (p : Piece) (rest : Bytes) :
    outcome skippedPiece (p.bytes ++ rest) = .ok (some [], rest) := by
  cases p with
  | plain b hb =>
    rw [Piece.bytes, List.cons_append, List.nil_append, outcome_skippedPiece_other hb.2.1 hb.2.2, hb.1]
    rfl
  | letter b h =>
    rw [Piece.bytes, List.cons_append, List.cons_append, List.nil_append, outcome_skippedPiece_escape,
      outcome_seq (outcome_take b rest)]
    split
    · contradiction
    · next hu =>
      rw [Option.some.inj hu] at h
      exact absurd h (by decide)
    · next c _ hc =>
      rcases Option.some.inj hc with rfl
      rw [if_pos h, outcome_pure]
  | code a b c d h =>
    rw [Piece.bytes, List.cons_append, List.cons_append, outcome_skippedPiece_escape, outcome_bind,
      outcome_take]
    show outcome (hex >>= _) (a :: b :: c :: d :: rest) = _
    rw [outcome_bind, outcome_hex h]
    rfl

theorem outcome_pieces_skipped (ps : List Piece) {fuel : Bytes} (hfuel : ps.length < fuel.length)
    (rest : Bytes) :
    outcome (pieces skippedPiece [] fuel) (inside ps ++ rest) = .ok ([], rest) := by
  -- Each piece is passed over by itself, so the halves of a pair need not meet.
  induction ps generalizing fuel with
  | nil =>
    rcases List.exists_cons_of_length_pos hfuel with ⟨f, fuel, rfl⟩
    exact outcome_pieces_end f fuel rfl
  | cons p ps ih =>
    rcases List.exists_cons_of_length_pos (Nat.zero_lt_of_lt hfuel) with ⟨f, fuel, rfl⟩
    rw [inside_cons, outcome_pieces_ok f fuel (outcome_skippedPiece p (inside ps ++ rest))]
    exact ih (Nat.lt_of_succ_lt_succ hfuel)

/-- A skipped literal is passed over whatever it denotes. -/
theorem outcome_skip (ps : List Piece) (rest : Bytes) :
    outcome skip (inside ps ++ rest) = .ok ((), rest) := by
  unfold skip
  rw [outcome_bind, outcome_withFuel, outcome_pieces_skipped ps (length_lt_inside ps rest)]
  rfl

end MetricCatalog.Json.Literal
