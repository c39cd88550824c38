import MetricCatalog.Proofs.Json.Outcome

/-!
# Loops — reading items and members

If the step of a loop reads the tokens of each item, the loop reads the tokens of the whole array, and its
result is the fold of the steps' results. The same holds for the members of an object. Fuel is never the
reason for a failure: each round reads at least one byte.
-/

namespace MetricCatalog.Json

open Scan Json.Tree

variable {α σ : Type}

/-! ## 1. First bytes -/

theorem digit?_digitByte {d : Nat} (h : d < 10) : Numeral.digit? (ascii (digitByte d)) = some d := by
  revert h d
  decide

namespace Numeral

/-- A numeral starts with a minus sign or a digit. -/
theorem Token.bytes_eq_cons (t : Token) :
    ∃ b bs, t.bytes = b :: bs ∧ (b = 0x2D ∨ ∃ d < 10, b = digitByte d) := by
  -- Without a sign the numeral starts with its whole part, which is never empty.
  by_cases hneg : t.numeral.negative
  · refine ⟨0x2D, t.numeral.whole.map digitByte ++ (t.numeral.pointBytes ++
      (t.mark ++ t.numeral.exponentDigits.map digitByte)), ?_, .inl rfl⟩
    rw [Token.bytes, signBytes, if_pos hneg, List.append_assoc, List.append_assoc, List.append_assoc]
    rfl
  · obtain ⟨d, ds, hd⟩ : ∃ d ds, t.numeral.whole = d :: ds := by
      rcases t.wellFormed.whole with h | ⟨d, ds, h, -⟩
      · exact ⟨_, _, h⟩
      · exact ⟨d, ds, h⟩
    have hlt : d < 10 := t.wellFormed.digits_lt d (by simp [hd])
    refine ⟨digitByte d, ds.map digitByte ++ (t.numeral.pointBytes ++
      (t.mark ++ t.numeral.exponentDigits.map digitByte)), ?_, .inr ⟨d, hlt, rfl⟩⟩
    rw [Token.bytes, signBytes, if_neg hneg, hd, List.map_cons, List.nil_append, List.append_assoc,
      List.append_assoc, List.cons_append]

/-- By its first character a numeral is told from every other value. -/
theorem Token.bytes_head (t : Token) :
    ∃ b bs, t.bytes = b :: bs ∧ isBlank b = false ∧
      (ascii b = '-' ∨ (digit? (ascii b)).isSome = true) := by
  rcases t.bytes_eq_cons with ⟨b, bs, h, hb⟩
  refine ⟨b, bs, h, ?_⟩
  have hdigit : ∀ d < 10, isBlank (digitByte d) = false ∧
      (digit? (ascii (digitByte d))).isSome = true := by decide
  rcases hb with rfl | ⟨d, hd, rfl⟩
  · decide
  · exact ⟨(hdigit d hd).1, .inr (hdigit d hd).2⟩

end Numeral

namespace Tree

theorem opens_digitByte {d : Nat} (h : d < 10) : Opens (digitByte d) := by
  revert h d
  unfold Opens
  decide

/-- A value starts with a byte that neither separates nor closes. -/
theorem tokens_eq_cons (t : Tree) : ∃ b bs more, t.tokens = (b :: bs) :: more ∧ Opens b := by
  cases t with
  | null => exact ⟨_, _, _, rfl, by unfold Opens; decide⟩
  | boolean b =>
    cases b
    · exact ⟨_, _, _, rfl, by unfold Opens; decide⟩
    · exact ⟨_, _, _, rfl, by unfold Opens; decide⟩
  | number n =>
    rcases n.bytes_eq_cons with ⟨b, bs, h, hb⟩
    refine ⟨b, bs, [], by rw [tokens, h], ?_⟩
    rcases hb with rfl | ⟨d, hd, rfl⟩
    · unfold Opens
      decide
    · exact opens_digitByte hd
  | string l => exact ⟨_, _, _, rfl, by unfold Opens; decide⟩
  | array ts => exact ⟨_, _, _, by rw [tokens], by unfold Opens; decide⟩
  | object ms => exact ⟨_, _, _, by rw [tokens], by unfold Opens; decide⟩

theorem tokens_nonempty (t : Tree) : t.tokens ≠ [] := by
  obtain ⟨b, bs, more, htokens, -⟩ := t.tokens_eq_cons
  rw [htokens]
  exact List.cons_ne_nil _ _

end Tree

/-! ## 2. Arrays -/

theorem outcome_firstItem_closing {front : Bytes} (h : Laid [[0x5D]] front) (rest : Bytes) :
    outcome firstItem (front ++ rest) = .ok (false, rest) := by
  rcases h.next rfl rest with ⟨front', hnext, hrest⟩
  unfold firstItem
  rw [outcome_bind, hnext, hrest.nil_inv]
  rfl

theorem outcome_firstItem_value {t : Tree} {tokens : List Bytes} {front : Bytes}
    (h : Laid (t.tokens ++ tokens) front) (rest : Bytes) :
    ∃ front', outcome firstItem (front ++ rest) = .ok (true, front' ++ rest) ∧
      Laid (t.tokens ++ tokens) front' := by
  rcases t.tokens_eq_cons with ⟨b, bs, more, ht, hb, -, hclose, -⟩
  rw [ht, List.cons_append] at h ⊢
  rcases h.next hb rest with ⟨front', hnext, hrest⟩
  refine ⟨b :: bs ++ front', ?_, .cons blank_nil hrest⟩
  unfold firstItem
  rw [outcome_seq hnext]
  split
  · contradiction
  · next h => exact absurd (Option.some.inj h) hclose
  · rw [outcome_pure, List.cons_append, List.cons_append, List.append_assoc]

theorem outcome_nextItem_closing {front : Bytes} (h : Laid [[0x5D]] front) (rest : Bytes) :
    outcome nextItem (front ++ rest) = .ok (false, rest) := by
  rcases h.next rfl rest with ⟨front', hnext, hrest⟩
  unfold nextItem
  rw [outcome_bind, hnext, hrest.nil_inv]
  rfl

theorem outcome_nextItem_value {t : Tree} {tokens : List Bytes} {front : Bytes}
    (h : Laid ([0x2C] :: (t.tokens ++ tokens)) front) (rest : Bytes) :
    ∃ front', outcome nextItem (front ++ rest) = .ok (true, front' ++ rest) ∧
      Laid (t.tokens ++ tokens) front' := by
  rcases h.next rfl rest with ⟨front₁, hcomma, h₁⟩
  rcases t.tokens_eq_cons with ⟨b, bs, more, ht, hb, -, hclose, -⟩
  rw [ht, List.cons_append] at h₁ ⊢
  rcases h₁.next hb rest with ⟨front₂, hnext, h₂⟩
  -- The blanks before the value have been read, the value itself has not.
  refine ⟨b :: bs ++ front₂, ?_, .cons blank_nil h₂⟩
  unfold nextItem
  rw [outcome_seq hcomma]
  refine (outcome_seq (outcome_advance _ _) _).trans ?_
  rw [List.nil_append, outcome_seq hnext]
  split
  · contradiction
  · next h => exact absurd (Option.some.inj h) hclose
  · rw [outcome_pure, List.cons_append, List.cons_append, List.append_assoc]

/-- A piece that stands before further ones is followed by a comma or the closing bracket. -/
theorem Laid.delimited_continued {closing : UInt8} {ps : List (List Bytes)} {front : Bytes}
    (h : Laid (continued closing ps) front) (hc : closing = 0x5D ∨ closing = 0x7D) (rest : Bytes) :
    Delimited (front ++ rest) := by
  cases ps with
  | nil => exact Laid.delimited (b := closing) h (.inr hc) rest
  | cons p ps => exact Laid.delimited (b := 0x2C) h (.inl rfl) rest

theorem continued_cons (closing : UInt8) (p : List Bytes) (ps : List (List Bytes)) :
    continued closing (p :: ps) = [0x2C] :: (p ++ continued closing ps) := by
  simp only [continued, List.flatMap_cons, List.cons_append, List.append_assoc]

/-- There are more bytes than pieces, since a comma stands before each of them. -/
theorem Laid.length_lt_of_continued {closing : UInt8} {ps : List (List Bytes)} {front : Bytes}
    (h : Laid (continued closing ps) front) : ps.length < front.length := by
  induction ps generalizing front with
  | nil =>
    rcases h.cons_inv with ⟨gap, front', rfl, -, -⟩
    simp only [List.length_append, List.length_cons, List.length_nil]
    omega
  | cons p ps ih =>
    rw [continued_cons] at h
    rcases h.cons_inv with ⟨gap, front', rfl, -, h'⟩
    rcases h'.append_inv with ⟨a, b, rfl, -, hb⟩
    have := ih hb
    simp only [List.length_append, List.length_cons, List.length_nil]
    omega

/-- All items from here on. -/
theorem outcome_foldItems {step : σ → Scan σ} {g : σ → Tree → Except Fault σ} {ts : List Tree}
    {t : Tree} (hstep : ∀ s, ∀ u ∈ t :: ts, Reads (step s) u.tokens (g s u)) {fuel : Bytes}
    (hfuel : ts.length < fuel.length) (s : σ) {front : Bytes}
    (h : Laid (t.tokens ++ continued 0x5D (ts.map tokens)) front) (rest : Bytes) :
    outcome (foldItems step fuel s) (front ++ rest) = ((t :: ts).foldlM g s).map (·, rest) := by
  -- One item has always been announced when a round starts; those behind it are fewer than the fuel.
  induction fuel generalizing t ts s front with
  | nil => exact absurd hfuel (Nat.not_lt_zero _)
  | cons f fuel ih =>
    rcases h.append_inv with ⟨a, b, rfl, ha, hb⟩
    rw [foldItems, outcome_bind, List.append_assoc,
      hstep s t List.mem_cons_self a (b ++ rest) ha (hb.delimited_continued (.inl rfl) rest),
        List.foldlM_cons]
    cases g s t with
    | error e => rfl
    | ok s' =>
      show outcome (nextItem >>= _) (b ++ rest) = _
      cases ts with
      | nil =>
        rw [outcome_bind, outcome_nextItem_closing hb]
        rfl
      | cons u ts =>
        rw [List.map_cons, continued_cons] at hb
        rcases outcome_nextItem_value hb rest with ⟨front', hnext, h'⟩
        rw [outcome_bind, hnext]
        exact ih (fun s v hv => hstep s v (List.mem_cons_of_mem _ hv))
          (Nat.lt_of_succ_lt_succ hfuel) s' h'

/-- The loop over items gathers them in reverse, each in front of those found before. -/
theorem Reads.gathered {item : Scan α} {tokens : List Bytes} {r : Except Fault α}
    (h : Reads item tokens r) (found : List α) :
    Reads (return (← item) :: found) tokens ((· :: found) <$> r) := by
  intro front rest hfront hrest
  rw [outcome_bind, h front rest hfront hrest]
  cases r <;> rfl

/-- The items of an array, read behind its opening bracket. -/
theorem outcome_items {item : Scan α} {f : Tree → Except Fault α} {ts : List Tree}
    (hitem : ∀ t ∈ ts, Reads item t.tokens (f t)) {front : Bytes}
    (h : Laid (listed 0x5D (ts.map tokens)) front) (rest : Bytes) :
    outcome (items item) (front ++ rest) = (ts.mapM f).map (·, rest) := by
  cases ts with
  | nil =>
    unfold items
    rw [outcome_bind, outcome_firstItem_closing h]
    rfl
  | cons t ts =>
    rcases outcome_firstItem_value h rest with ⟨front', hfirst, h'⟩
    -- Fuel is handed out once, for all the bytes that are left.
    have hfuel : ts.length < (0 :: (front' ++ rest)).length := by
      rcases h'.append_inv with ⟨a, b, rfl, -, hb⟩
      have := hb.length_lt_of_continued
      simp only [List.length_map] at this
      simp only [List.length_append, List.length_cons]
      omega
    have hstep : ∀ found, ∀ u ∈ t :: ts,
        Reads (return (← item) :: found) u.tokens ((· :: found) <$> f u) :=
      fun found u hu => (hitem u hu).gathered found
    unfold items
    rw [outcome_bind, hfirst]
    show outcome (withFuel _ >>= _) (front' ++ rest) = _
    rw [outcome_bind, outcome_withFuel, outcome_foldItems hstep hfuel [] h' rest,
      List.mapM_eq_reverse_foldlM_cons]
    cases (t :: ts).foldlM (fun found u => (· :: found) <$> f u) [] <;> rfl

/-! ## 3. Objects

The step of a loop over members starts inside the member's key.
-/

/-- The scan reads exactly this member, from behind the quote that opens its key, with this result. -/
def ReadsMember (scan : Scan α) (m : List Literal.Piece × Tree) (result : Except Fault α) : Prop :=
  ∀ front rest, Laid ([0x3A] :: m.2.tokens) front → Delimited rest →
    outcome scan (Literal.inside m.1 ++ (front ++ rest)) = result.map (·, rest)

theorem outcome_firstMember_closing {front : Bytes} (h : Laid [[0x7D]] front) (rest : Bytes) :
    outcome firstMember (front ++ rest) = .ok (false, rest) := by
  rcases h.next rfl rest with ⟨front', hnext, hrest⟩
  unfold firstMember
  rw [outcome_bind, hnext, hrest.nil_inv]
  rfl

theorem outcome_firstMember_key {k : List Literal.Piece} {tokens : List Bytes} {front : Bytes}
    (h : Laid (Literal.bytes k :: tokens) front) (rest : Bytes) :
    ∃ front', outcome firstMember (front ++ rest) = .ok (true, Literal.inside k ++ (front' ++ rest)) ∧
      Laid tokens front' := by
  rcases Laid.next (b := 0x22) h rfl rest with ⟨front', hnext, hrest⟩
  refine ⟨front', ?_, hrest⟩
  unfold firstMember
  rw [outcome_bind, hnext]
  rfl

theorem outcome_nextMember_closing {front : Bytes} (h : Laid [[0x7D]] front) (rest : Bytes) :
    outcome nextMember (front ++ rest) = .ok (false, rest) := by
  rcases h.next rfl rest with ⟨front', hnext, hrest⟩
  unfold nextMember
  rw [outcome_bind, hnext, hrest.nil_inv]
  rfl

theorem outcome_nextMember_key {k : List Literal.Piece} {tokens : List Bytes} {front : Bytes}
    (h : Laid ([0x2C] :: Literal.bytes k :: tokens) front) (rest : Bytes) :
    ∃ front', outcome nextMember (front ++ rest) = .ok (true, Literal.inside k ++ (front' ++ rest)) ∧
      Laid tokens front' := by
  rcases h.next rfl rest with ⟨front₁, hcomma, h₁⟩
  rcases Laid.next (b := 0x22) h₁ rfl rest with ⟨front₂, hnext, h₂⟩
  refine ⟨front₂, ?_, h₂⟩
  unfold nextMember
  rw [outcome_bind, hcomma]
  show outcome (advance >>= _) _ = _
  rw [outcome_seq (outcome_advance _ _), List.nil_append]
  rw [outcome_bind, hnext]
  rfl

/-- All members from here on. -/
theorem outcome_foldMembers {step : σ → Scan σ} {g : σ → List Literal.Piece × Tree → Except Fault σ}
    {ms : List (List Literal.Piece × Tree)} {m : List Literal.Piece × Tree}
    (hstep : ∀ s, ∀ n ∈ m :: ms, ReadsMember (step s) n (g s n)) {fuel : Bytes}
    (hfuel : ms.length < fuel.length) (s : σ) {front : Bytes}
    (h : Laid ([0x3A] :: (m.2.tokens ++ continued 0x7D (ms.map memberTokens))) front) (rest : Bytes) :
    outcome (foldMembers step fuel s) (Literal.inside m.1 ++ (front ++ rest)) =
      ((m :: ms).foldlM g s).map (·, rest) := by
  -- As for items, but the quote of the first key has been read as well.
  induction fuel generalizing m ms s front with
  | nil => exact absurd hfuel (Nat.not_lt_zero _)
  | cons f fuel ih =>
    rcases Laid.append_inv (a := [0x3A] :: m.2.tokens) h with ⟨a, b, rfl, ha, hb⟩
    rw [foldMembers, outcome_bind, List.append_assoc,
      hstep s m List.mem_cons_self a (b ++ rest) ha (hb.delimited_continued (.inr rfl) rest),
        List.foldlM_cons]
    cases g s m with
    | error e => rfl
    | ok s' =>
      show outcome (nextMember >>= _) (b ++ rest) = _
      cases ms with
      | nil =>
        rw [outcome_bind, outcome_nextMember_closing hb]
        rfl
      | cons n ms =>
        rw [List.map_cons, continued_cons] at hb
        rcases outcome_nextMember_key hb rest with ⟨front', hnext, h'⟩
        rw [outcome_bind, hnext]
        exact ih (fun s n hn => hstep s n (List.mem_cons_of_mem _ hn))
          (Nat.lt_of_succ_lt_succ hfuel) s' h'

/-- The members of an object, read behind its opening brace. -/
theorem outcome_members {step : σ → Scan σ} {g : σ → List Literal.Piece × Tree → Except Fault σ}
    {ms : List (List Literal.Piece × Tree)} (hstep : ∀ s, ∀ m ∈ ms, ReadsMember (step s) m (g s m))
    (start : σ) {front : Bytes} (h : Laid (listed 0x7D (ms.map memberTokens)) front) (rest : Bytes) :
    outcome (members step start) (front ++ rest) = (ms.foldlM g start).map (·, rest) := by
  cases ms with
  | nil =>
    unfold members
    rw [outcome_bind, outcome_firstMember_closing h]
    rfl
  | cons m ms =>
    rcases outcome_firstMember_key h rest with ⟨front', hfirst, h'⟩
    have hfuel : ms.length < (0 :: (Literal.inside m.1 ++ (front' ++ rest))).length := by
      rcases Laid.append_inv (a := [0x3A] :: m.2.tokens) h' with ⟨a, b, rfl, -, hb⟩
      have := hb.length_lt_of_continued
      simp only [List.length_map] at this
      simp only [List.length_append, List.length_cons]
      omega
    unfold members
    rw [outcome_bind, hfirst]
    show outcome (withFuel fun fuel => foldMembers step fuel start) _ = _
    rw [outcome_withFuel, outcome_foldMembers hstep hfuel start h' rest]

end MetricCatalog.Json
