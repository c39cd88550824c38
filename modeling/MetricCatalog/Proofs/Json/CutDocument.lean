import MetricCatalog.Proofs.Json.Cut

/-!
# Cut documents — where a document without doubles is cut off

A cut integer is read as a smaller one and then nothing is left, so it depends on what comes behind the
number whether the cut is noticed. Between brackets it always is: the loop over items or members asks
for what comes next.
-/

namespace MetricCatalog.Json

open Scan Json.Tree

variable {α β σ : Type}

/-! ## 1. Integers -/

namespace Numeral

theorem ofDigits_le_append (ds ds' : List Nat) : ofDigits ds ≤ ofDigits (ds ++ ds') := by
  induction ds' generalizing ds with
  | nil => exact Nat.le_of_eq (congrArg ofDigits (List.append_nil ds).symm)
  | cons d ds' ih =>
    have hone : ofDigits ds ≤ ofDigits (ds ++ [d]) := by
      rw [ofDigits_concat]
      omega
    have hmore := ih (ds ++ [d])
    rw [List.append_assoc] at hmore
    exact Nat.le_trans hone hmore

theorem ofDigits_pos {d : Nat} (hd : d ≠ 0) (ds : List Nat) : 0 < ofDigits (d :: ds) := by
  have hle : ofDigits [d] ≤ ofDigits ([d] ++ ds) := ofDigits_le_append [d] ds
  have hd' : ofDigits [d] = d := by
    simp only [ofDigits, List.foldl_cons, List.foldl_nil, Nat.zero_mul, Nat.zero_add]
  rw [hd'] at hle
  exact Nat.lt_of_lt_of_le (Nat.pos_of_ne_zero hd) hle

/-- A numeral that writes an integer has neither point nor exponent. -/
theorem number_int_inv {n : Numeral} {i : Integer} (h : n.number = .ok (.int i)) :
    n.fraction = [] ∧ n.exponent = none ∧
      i.val = (if n.negative then -(ofDigits n.whole : Int) else ofDigits n.whole) ∧
      (n.negative = true → ofDigits n.whole ≠ 0) := by
  have hinteger : n.integer? = some i := by
    rw [number, value?] at h
    cases hn : n.integer? with
    | some j =>
      rw [hn] at h
      cases h
      rfl
    | none =>
      rw [hn] at h
      cases hx : n.double? with
      | none =>
        rw [hx] at h
        cases h
      | some x =>
        rw [hx] at h
        cases h
  rw [integer?] at hinteger
  by_cases hplain : n.fraction = [] ∧ n.exponent = none
  · rw [if_pos hplain] at hinteger
    refine ⟨hplain.1, hplain.2, ?_⟩
    by_cases hneg : n.negative = true
    · by_cases hzero : ofDigits n.whole = 0
      · simp only [if_pos hneg, if_pos hzero] at hinteger
        cases hinteger
      · simp only [if_pos hneg, if_neg hzero] at hinteger
        rw [if_pos hneg]
        exact ⟨IntBetween.ofInt?_eq_some_iff.1 hinteger, fun _ => hzero⟩
    · simp only [if_neg hneg] at hinteger
      rw [if_neg hneg]
      exact ⟨IntBetween.ofInt?_eq_some_iff.1 hinteger, fun h => absurd h hneg⟩
  · rw [if_neg hplain] at hinteger
    cases hinteger

end Numeral

/-- The first integer lies between zero and the second one. -/
def Integer.Within (i' i : Integer) : Prop :=
  (0 ≤ i'.val ∧ i'.val ≤ i.val) ∨ (i.val ≤ i'.val ∧ i'.val ≤ 0)

theorem Numeral.number_of_val {n : Numeral} {i : Integer} (hfraction : n.fraction = [])
    (hexponent : n.exponent = none)
    (hval : i.val = (if n.negative then -(ofDigits n.whole : Int) else ofDigits n.whole))
    (hzero : n.negative = true → ofDigits n.whole ≠ 0) : n.number = .ok (.int i) := by
  have hinteger : n.integer? = some i := by
    rw [integer?, if_pos ⟨hfraction, hexponent⟩]
    by_cases hneg : n.negative = true
    · rw [if_pos hneg] at hval ⊢
      rw [if_neg (hzero hneg)]
      exact IntBetween.ofInt?_eq_some_iff.2 hval
    · rw [if_neg hneg] at hval ⊢
      exact IntBetween.ofInt?_eq_some_iff.2 hval
  rw [number, value?, hinteger]

/-- Some of the digits of an integer are those of one that lies between it and zero. -/
theorem Numeral.exists_within {n : Numeral} {i : Integer} (h : n.number = .ok (.int i)) {d : Nat}
    {ds ds' : List Nat} (hwhole : n.whole = (d :: ds) ++ ds') (hd : d ≠ 0) :
    ∃ i' : Integer, (⟨n.negative, d :: ds, [], none⟩ : Numeral).number = .ok (.int i') ∧ i'.Within i := by
  obtain ⟨-, -, hval, -⟩ := number_int_inv h
  have hle : ofDigits (d :: ds) ≤ ofDigits n.whole := by
    rw [hwhole]
    exact ofDigits_le_append _ _
  have hpos : 0 < ofDigits (d :: ds) := ofDigits_pos hd ds
  have hlo := i.lo_le
  have hhi := i.lt_hi
  by_cases hneg : n.negative = true
  · rw [if_pos hneg] at hval
    refine ⟨⟨-(ofDigits (d :: ds) : Int), by omega, by omega⟩, ?_, .inr ?_⟩
    · exact number_of_val rfl rfl (if_pos hneg).symm fun _ => Nat.ne_of_gt hpos
    · change i.val ≤ -(ofDigits (d :: ds) : Int) ∧ -(ofDigits (d :: ds) : Int) ≤ 0
      omega
  · rw [if_neg hneg] at hval
    refine ⟨⟨(ofDigits (d :: ds) : Int), by omega, by omega⟩, ?_, .inl ?_⟩
    · exact number_of_val rfl rfl (if_neg hneg).symm fun hneg' => absurd hneg' hneg
    · change 0 ≤ (ofDigits (d :: ds) : Int) ∧ (ofDigits (d :: ds) : Int) ≤ i.val
      omega

/-- An integer is written with a sign and digits alone. -/
theorem Numeral.Token.bytes_of_integer {t : Token} {i : Integer} (h : t.numeral.number = .ok (.int i)) :
    t.bytes = t.numeral.signBytes ++ t.numeral.whole.map digitByte := by
  obtain ⟨hfraction, hexponent, -, -⟩ := number_int_inv h
  have hmark : t.mark = [] := by
    have hmem := t.isMark
    rw [hexponent] at hmem
    exact List.mem_singleton.1 hmem
  rw [bytes, hmark, pointBytes, if_pos hfraction, exponentDigits, hexponent]
  simp only [Option.map_none, Option.getD_none, List.map_nil, List.append_nil]

/-- A digit that is followed by others is the first of them only if it is not zero. -/
theorem Numeral.WellFormed.lead_ne_zero {n : Numeral} (h : n.WellFormed) {d : Nat} {ds ds' : List Nat}
    (hwhole : n.whole = (d :: ds) ++ ds') (hds' : ds' ≠ []) : d ≠ 0 := by
  obtain hzero | ⟨d', more, hlead, hd'⟩ := h.whole
  · rw [hwhole] at hzero
    exact absurd (List.append_eq_nil_iff.1 (List.cons.inj hzero).2).2 hds'
  · rw [hwhole] at hlead
    rw [(List.cons.inj hlead).1]
    exact hd'

/-- The first digits of a numeral make one by themselves. -/
theorem Numeral.WellFormed.front {n : Numeral} (h : n.WellFormed) {d : Nat} {ds ds' : List Nat}
    (hwhole : n.whole = (d :: ds) ++ ds') (hd : d ≠ 0) :
    WellFormed ⟨n.negative, d :: ds, [], none⟩ where
  digits_lt := by
    intro e he
    have he' : e ∈ d :: ds := by simpa [exponentDigits] using he
    have hmem : e ∈ n.whole := by
      rw [hwhole]
      exact List.mem_append_left _ he'
    exact h.digits_lt e (List.mem_append_left _ (List.mem_append_left _ hmem))
  whole := .inr ⟨d, ds, rfl, hd⟩
  exponent := by
    intro e he
    cases he

/-- A cut integer is no number yet, or one that lies between it and zero. -/
theorem Number.cut {t : Numeral.Token} {i : Integer} (h : t.numeral.number = .ok (.int i)) {q s : Bytes}
    (ht : t.bytes = q ++ s) (hs : s ≠ []) :
    Ended (outcome Number.read q) ∨
      ∃ i' : Integer, outcome Number.read q = .ok (.int i', []) ∧ i'.Within i := by
  have hbytes : q ++ s = t.numeral.signBytes ++ t.numeral.whole.map digitByte := by
    rw [← ht, Numeral.Token.bytes_of_integer h]
  -- Without a digit nothing has been read; otherwise the digits that are left are those of a number.
  have hsign : Ended (outcome Number.read t.numeral.signBytes) := by
    rw [Numeral.signBytes]
    cases t.numeral.negative <;> exact ⟨_, rfl⟩
  obtain ⟨a', ha', hsplit⟩ | ⟨q', rfl, hdigits⟩ := cut_append hbytes
  · have hq : q = [] := by
      rw [Numeral.signBytes] at hsplit
      cases hneg : t.numeral.negative with
      | false =>
        rw [hneg] at hsplit
        exact (List.append_eq_nil_iff.1 hsplit.symm).1
      | true =>
        rw [hneg] at hsplit
        cases q with
        | nil => rfl
        | cons b q => exact absurd (List.append_eq_nil_iff.1 (List.cons.inj hsplit).2.symm).2 ha'
    rw [hq]
    exact .inl ⟨_, rfl⟩
  · obtain ⟨ds, ds', hwhole, rfl, rfl⟩ := List.map_eq_append_iff.1 hdigits.symm
    cases ds with
    | nil =>
      rw [List.map_nil, List.append_nil]
      exact .inl hsign
    | cons d ds =>
      have hd : d ≠ 0 := t.wellFormed.lead_ne_zero hwhole fun hnil => hs (by rw [hnil, List.map_nil])
      obtain ⟨i', hi', hwithin⟩ := Numeral.exists_within h hwhole hd
      have hread := Number.outcome_read
        ⟨_, t.wellFormed.front hwhole hd, [], List.mem_singleton_self _⟩ (delimited_blank blank_nil)
      rw [hi', List.append_nil] at hread
      refine .inr ⟨i', Eq.trans ?_ hread, hwithin⟩
      rw [Numeral.Token.bytes_of_integer hi', Numeral.signBytes, Numeral.signBytes]

/-! ## 2. The front of a value -/

/-- The rest of a name is waited for. -/
theorem ended_name {cs : List Char} {letters q' s' : Bytes} (hletters : letters.map ascii = cs)
    (h : letters = q' ++ s') (hs : s' ≠ []) (a : α) (b : UInt8) :
    Ended (outcome (advance >>= fun _ => identifier cs >>= fun _ => pure a) (b :: q')) := by
  have hwhole : outcome (identifier cs) (q' ++ s') = .ok ((), []) := by
    have hread := outcome_identifier cs letters [] hletters
    rwa [List.append_nil, h] at hread
  rw [outcome_seq (outcome_advance b q')]
  obtain hended | ⟨rest', hrest, -⟩ := awaits_identifier cs q' s' () [] hwhole
  · exact hended.bind _
  · exact absurd (List.append_eq_nil_iff.1 hrest.symm).2 hs

/-- A cut scalar is none yet, unless it is an integer. -/
theorem cut_head {t : Tree} (ht : t.IsScalar) {found : Head} (h : t.head = .ok found)
    (hfloat : ∀ x, found ≠ .number (.float x)) {q s : Bytes} (hq : Laid t.tokens (q ++ s)) (hs : s ≠ []) :
    Ended (outcome Scan.head q) ∨
      ∃ i i' : Integer, found = .number (.int i) ∧ outcome Scan.head q = .ok (.number (.int i'), []) ∧
        i'.Within i := by
  have hnothing : outcome next? q = .ok (none, []) → Ended (outcome Scan.head q) :=
    fun hnone => ended_next hnone ⟨_, rfl⟩
  have hname : ∀ {b : UInt8} {letters : Bytes} {cs : List Char} (name : Head),
      Laid [b :: letters] (q ++ s) → isBlank b = false → letters.map ascii = cs →
      (∀ q', outcome next? q = .ok (some (ascii b), b :: q') →
        outcome Scan.head q =
          outcome (advance >>= fun _ => identifier cs >>= fun _ => pure name) (b :: q')) →
      Ended (outcome Scan.head q) := by
    intro b letters cs name hlaid hb hletters hhead
    obtain hnone | ⟨q', s', hnext, hcut, hs'⟩ := hlaid.cut_last hs hb
    · exact hnothing hnone
    · rw [hhead q' hnext]
      exact ended_name hletters hcut hs' name b
  cases t with
  | null =>
    refine .inl (hname .null hq rfl rfl fun q' hnext => ?_)
    rw [Scan.head, outcome_seq hnext]
    rfl
  | boolean b =>
    cases b with
    | true =>
      refine .inl (hname (.boolean true) hq rfl rfl fun q' hnext => ?_)
      rw [Scan.head, outcome_seq hnext]
      rfl
    | false =>
      refine .inl (hname (.boolean false) hq rfl rfl fun q' hnext => ?_)
      rw [Scan.head, outcome_seq hnext]
      rfl
  | string l =>
    obtain hnone | ⟨q', s', hnext, hinside, hs'⟩ := Laid.cut_last (b := 0x22) hq hs rfl
    · exact .inl (hnothing hnone)
    · obtain ⟨text, htext, -⟩ := ok_of_map h
      refine .inl ?_
      rw [Scan.head, outcome_seq hnext]
      change Ended (outcome (Literal.read >>= fun s => pure (Head.string s)) q')
      have hended := Literal.ended_read htext hinside hs'
      exact hended.bind _
  | number n =>
    obtain ⟨x, hx, rfl⟩ := ok_of_map h
    cases x with
    | float x => exact absurd rfl (hfloat x)
    | int i =>
      obtain ⟨b, bs, hbytes, hblank, hb⟩ := n.bytes_head
      rw [Tree.tokens, hbytes] at hq
      obtain hnone | ⟨q', s', hnext, hdigits, hs'⟩ := hq.cut_last hs hblank
      · exact .inl (hnothing hnone)
      · have hcut : n.bytes = (b :: q') ++ s' := by rw [hbytes, hdigits, List.cons_append]
        rw [outcome_head_number hb hnext]
        obtain hended | ⟨i', hread, hwithin⟩ := Number.cut hx hcut hs'
        · exact .inl (hended.bind _)
        · refine .inr ⟨i, i', rfl, ?_, hwithin⟩
          rw [outcome_seq hread]
          rfl
  | array ts => exact ht.elim
  | object ms => exact ht.elim

/-- A cut bracket is not seen, or what it encloses is cut. -/
theorem cutsShort_head_bind {b : UInt8} {found : Head} {tokens : List Bytes} {f : Head → Scan α}
    {body : Scan α} (hb : isBlank b = false)
    (hhead : ∀ q q', outcome next? q = .ok (some (ascii b), b :: q') →
      outcome Scan.head q = .ok (found, b :: q'))
    (hbody : CutsShort body tokens) (hf : ∀ q, outcome (f found) (b :: q) = outcome body q) :
    CutsShort (Scan.head >>= f) ([b] :: tokens) := by
  intro q s h hs
  obtain hnone | ⟨q', front, hnext, heq, hfront⟩ := h.cut_next hb
  · have hended : Ended (outcome Scan.head q) := ended_next hnone ⟨_, rfl⟩
    exact hended.bind f
  · rw [outcome_seq (hhead q q' hnext), hf]
    exact hbody q' s (heq ▸ hfront) hs

theorem cutsShort_array {f : Head → Scan α} {body : Scan α} {ts : List Tree}
    (hbody : CutsShort body (listed 0x5D (ts.map tokens)))
    (hf : ∀ q, outcome (f .array) (0x5B :: q) = outcome body q) :
    CutsShort (Scan.head >>= f) (Tree.array ts).tokens := by
  rw [Tree.tokens, tokensOfItems_eq_map]
  refine cutsShort_head_bind rfl (fun q q' hnext => ?_) hbody hf
  rw [Scan.head, outcome_seq hnext]
  rfl

theorem cutsShort_object {f : Head → Scan α} {body : Scan α} {ms : List (List Literal.Piece × Tree)}
    (hbody : CutsShort body (listed 0x7D (ms.map memberTokens)))
    (hf : ∀ q, outcome (f .object) (0x7B :: q) = outcome body q) :
    CutsShort (Scan.head >>= f) (Tree.object ms).tokens := by
  rw [Tree.tokens, tokensOfMembers_eq_map]
  refine cutsShort_head_bind rfl (fun q q' hnext => ?_) hbody hf
  rw [Scan.head, outcome_seq hnext]
  rfl

/-! ## 3. Items of an array -/

theorem cutsShort_firstItem_closing : CutsShort firstItem [[0x5D]] := cutsShort_single rfl ⟨_, rfl⟩

theorem cutsShort_nextItem_closing : CutsShort nextItem [[0x5D]] := cutsShort_single rfl ⟨_, rfl⟩

/-- Either nothing is seen of the value, or it comes next with what is left of its tokens. -/
theorem Laid.cut_value {t : Tree} {tokens : List Bytes} {q s : Bytes}
    (h : Laid (t.tokens ++ tokens) (q ++ s)) :
    outcome next? q = .ok (none, []) ∨
      ∃ b q', outcome next? q = .ok (some (ascii b), b :: q') ∧ Opens b ∧
        Laid (t.tokens ++ tokens) ((b :: q') ++ s) := by
  obtain ⟨b, bs, more, ht, hb⟩ := t.tokens_eq_cons
  rw [ht, List.cons_append] at h ⊢
  obtain hnone | ⟨q', front, hnext, heq, hfront⟩ := h.cut_next hb.1
  · exact .inl hnone
  · refine .inr ⟨b, q', hnext, hb, ?_⟩
    rw [List.cons_append, heq, ← List.cons_append]
    exact .cons blank_nil hfront

theorem Laid.cut_firstItem {t : Tree} {tokens : List Bytes} {q s : Bytes}
    (h : Laid (t.tokens ++ tokens) (q ++ s)) :
    Ended (outcome firstItem q) ∨
      ∃ q', outcome firstItem q = .ok (true, q') ∧ Laid (t.tokens ++ tokens) (q' ++ s) := by
  obtain hnone | ⟨b, q', hnext, ⟨-, -, hclose, -⟩, hlaid⟩ := h.cut_value
  · exact .inl (ended_next hnone ⟨_, rfl⟩)
  · refine .inr ⟨b :: q', ?_, hlaid⟩
    rw [firstItem, outcome_seq hnext]
    split
    · contradiction
    · next h => exact absurd (Option.some.inj h) hclose
    · rfl

theorem Laid.cut_nextItem {t : Tree} {tokens : List Bytes} {q s : Bytes}
    (h : Laid ([0x2C] :: (t.tokens ++ tokens)) (q ++ s)) :
    Ended (outcome nextItem q) ∨
      ∃ q', outcome nextItem q = .ok (true, q') ∧ Laid (t.tokens ++ tokens) (q' ++ s) := by
  obtain hnone | ⟨q₁, front, hcomma, heq, hfront⟩ := h.cut_next rfl
  · exact .inl (ended_next hnone ⟨_, rfl⟩)
  · have hstep : ∀ more : Option Char → Scan Bool,
        outcome (advance >>= fun _ => next? >>= more) (0x2C :: q₁) = outcome (next? >>= more) q₁ :=
      fun more => outcome_seq (outcome_advance 0x2C q₁) _
    have hrest : Laid (t.tokens ++ tokens) (q₁ ++ s) := heq ▸ hfront
    obtain hnone | ⟨b, q', hnext, ⟨-, -, hclose, -⟩, hlaid⟩ := hrest.cut_value
    · refine .inl ?_
      rw [nextItem, outcome_seq hcomma]
      refine ⟨.value, (hstep _).trans ?_⟩
      rw [outcome_seq hnone]
      rfl
    · refine .inr ⟨b :: q', ?_, hlaid⟩
      rw [nextItem, outcome_seq hcomma]
      refine (hstep _).trans ?_
      rw [outcome_seq hnext]
      split
      · contradiction
      · next h => exact absurd (Option.some.inj h) hclose
      · rfl

/-- A cut row of items is noticed: in an item, or where the loop asks for the next one. -/
theorem ended_foldItems {step : σ → Scan σ} {g : σ → Tree → Except Fault σ} {ts : List Tree} {t : Tree}
    (hreads : ∀ s, ∀ u ∈ t :: ts, Reads (step s) u.tokens (g s u))
    (hcuts : ∀ s s', ∀ u ∈ t :: ts, g s u = .ok s' → Cuts (step s) u.tokens) {state final : σ}
    (hfold : (t :: ts).foldlM g state = .ok final) (fuel : Bytes) {q s : Bytes}
    (h : Laid (t.tokens ++ continued 0x5D (ts.map tokens)) (q ++ s)) (hs : s ≠ []) :
    Ended (outcome (foldItems step fuel state) q) := by
  -- Fuel that gives out counts as an ended text as well.
  induction fuel generalizing t ts state q with
  | nil => exact ⟨_, rfl⟩
  | cons f fuel ih =>
    obtain ⟨state', hstate', hmore⟩ := ok_of_bind hfold
    rw [foldItems]
    obtain ⟨s', hs', hcut⟩ | ⟨front, q', rfl, hfront, hrest⟩ := h.cut_append
    · have hstops := hcuts state state' t List.mem_cons_self hstate' q s' hcut hs'
      exact hstops.ended_bind fun _ => ⟨_, rfl⟩
    · have hdelimited : Delimited q' :=
        (List.append_nil (q' ++ s) ▸ hrest.delimited_continued (.inl rfl) []).of_append
      have hread := hreads state t List.mem_cons_self front q' hfront hdelimited
      rw [hstate'] at hread
      rw [outcome_seq hread]
      cases ts with
      | nil => exact (cutsShort_nextItem_closing q' s hrest hs).bind _
      | cons u ts =>
        rw [List.map_cons, continued_cons] at hrest
        obtain hended | ⟨q'', hnext, hlaid⟩ := hrest.cut_nextItem
        · exact hended.bind _
        · rw [outcome_seq hnext]
          exact ih (fun s v hv => hreads s v (List.mem_cons_of_mem _ hv))
            (fun s s' v hv => hcuts s s' v (List.mem_cons_of_mem _ hv)) hmore hlaid

/-- A cut array is noticed, if its items stop where they are cut. -/
theorem cutsShort_items {item : Scan α} {f : Tree → Except Fault α} {ts : List Tree} {as : List α}
    (hreads : ∀ t ∈ ts, Reads item t.tokens (f t))
    (hcuts : ∀ t ∈ ts, ∀ a, f t = .ok a → Cuts item t.tokens) (hvalues : ts.mapM f = .ok as) :
    CutsShort (items item) (listed 0x5D (ts.map tokens)) := by
  intro q s h hs
  cases ts with
  | nil =>
    rw [items]
    exact (cutsShort_firstItem_closing q s h hs).bind _
  | cons t ts =>
    rw [items]
    have hfront : Laid (t.tokens ++ continued 0x5D (ts.map tokens)) (q ++ s) := h
    obtain hended | ⟨q', hfirst, hlaid⟩ := hfront.cut_firstItem
    · exact hended.bind _
    · have hsteps : ∀ found, ∀ u ∈ t :: ts,
          Reads (return (← item) :: found) u.tokens ((· :: found) <$> f u) :=
        fun found u hu => (hreads u hu).gathered found
      have hstops : ∀ found found', ∀ u ∈ t :: ts, (· :: found) <$> f u = .ok found' →
          Cuts (return (← item) :: found) u.tokens := by
        intro found found' u hu hvalue q s hq hs
        obtain ⟨a, ha, -⟩ := ok_of_map (f := (· :: found)) hvalue
        exact (hcuts u hu a ha q s hq hs).bind fun _ => .inr ⟨_, rfl⟩
      rw [List.mapM_eq_reverse_foldlM_cons] at hvalues
      obtain ⟨found, hfold, -⟩ := ok_of_map (f := List.reverse) hvalues
      rw [outcome_seq hfirst]
      have hended := ended_foldItems hsteps hstops hfold (0 :: q') hlaid hs
      exact Ended.bind
        (x := withFuel fun fuel => foldItems (fun found => return (← item) :: found) fuel []) hended _

/-! ## 4. Members of an object -/

/-- Wherever a member is cut behind the quote that opens its key, the scan stops at the end of the text. -/
def CutsMember (scan : Scan α) (m : List Literal.Piece × Tree) : Prop :=
  ∀ q s front, q ++ s = Literal.inside m.1 ++ front → Laid ([0x3A] :: m.2.tokens) front → s ≠ [] →
    Stops (outcome scan q)

theorem cutsShort_firstMember_closing : CutsShort firstMember [[0x7D]] := cutsShort_single rfl ⟨_, rfl⟩

theorem cutsShort_nextMember_closing : CutsShort nextMember [[0x7D]] := cutsShort_single rfl ⟨_, rfl⟩

theorem Laid.cut_firstMember {k : List Literal.Piece} {tokens : List Bytes} {q s : Bytes}
    (h : Laid (Literal.bytes k :: tokens) (q ++ s)) :
    Ended (outcome firstMember q) ∨
      ∃ q' front, outcome firstMember q = .ok (true, q') ∧ q' ++ s = Literal.inside k ++ front ∧
        Laid tokens front := by
  obtain hnone | ⟨q', front, hnext, heq, hfront⟩ := Laid.cut_next (b := 0x22) h rfl
  · exact .inl (ended_next hnone ⟨_, rfl⟩)
  · refine .inr ⟨q', front, ?_, heq, hfront⟩
    rw [firstMember, outcome_seq hnext]
    rfl

theorem Laid.cut_nextMember {k : List Literal.Piece} {tokens : List Bytes} {q s : Bytes}
    (h : Laid ([0x2C] :: Literal.bytes k :: tokens) (q ++ s)) :
    Ended (outcome nextMember q) ∨
      ∃ q' front, outcome nextMember q = .ok (true, q') ∧ q' ++ s = Literal.inside k ++ front ∧
        Laid tokens front := by
  obtain hnone | ⟨q₁, front₁, hcomma, heq₁, hfront₁⟩ := h.cut_next rfl
  · exact .inl (ended_next hnone ⟨_, rfl⟩)
  · have hstep : ∀ more : Option Char → Scan Bool,
        outcome (advance >>= fun _ => next? >>= more) (0x2C :: q₁) = outcome (next? >>= more) q₁ :=
      fun more => outcome_seq (outcome_advance 0x2C q₁) _
    have hrest : Laid (Literal.bytes k :: tokens) (q₁ ++ s) := heq₁ ▸ hfront₁
    obtain hnone | ⟨q', front, hnext, heq, hfront⟩ := Laid.cut_next (b := 0x22) hrest rfl
    · refine .inl ?_
      rw [nextMember, outcome_seq hcomma]
      refine ⟨.value, (hstep _).trans ?_⟩
      rw [outcome_seq hnone]
      rfl
    · refine .inr ⟨q', front, ?_, heq, hfront⟩
      rw [nextMember, outcome_seq hcomma]
      refine (hstep _).trans ?_
      rw [outcome_seq hnext]
      rfl

/-- A cut row of members is noticed: in a member, or where the loop asks for the next one. -/
theorem ended_foldMembers {step : σ → Scan σ} {g : σ → List Literal.Piece × Tree → Except Fault σ}
    {ms : List (List Literal.Piece × Tree)} {m : List Literal.Piece × Tree}
    (hreads : ∀ s, ∀ n ∈ m :: ms, ReadsMember (step s) n (g s n))
    (hcuts : ∀ s s', ∀ n ∈ m :: ms, g s n = .ok s' → CutsMember (step s) n) {state final : σ}
    (hfold : (m :: ms).foldlM g state = .ok final) (fuel : Bytes) {q s front : Bytes}
    (hq : q ++ s = Literal.inside m.1 ++ front)
    (h : Laid ([0x3A] :: (m.2.tokens ++ continued 0x7D (ms.map memberTokens))) front) (hs : s ≠ []) :
    Ended (outcome (foldMembers step fuel state) q) := by
  induction fuel generalizing m ms state q front with
  | nil => exact ⟨_, rfl⟩
  | cons f fuel ih =>
    obtain ⟨state', hstate', hmore⟩ := ok_of_bind hfold
    obtain ⟨a, b, rfl, ha, hb⟩ := Laid.append_inv (a := [0x3A] :: m.2.tokens) h
    rw [← List.append_assoc] at hq
    rw [foldMembers]
    obtain ⟨s', hs', hcut⟩ | ⟨q', rfl, rfl⟩ := cut_append hq
    · have hstops := hcuts state state' m List.mem_cons_self hstate' q s' a hcut.symm ha hs'
      exact hstops.ended_bind fun _ => ⟨_, rfl⟩
    · have hdelimited : Delimited q' :=
        (List.append_nil (q' ++ s) ▸ hb.delimited_continued (.inr rfl) []).of_append
      have hread := hreads state m List.mem_cons_self a q' ha hdelimited
      rw [hstate'] at hread
      rw [List.append_assoc, outcome_seq hread]
      cases ms with
      | nil => exact (cutsShort_nextMember_closing q' s hb hs).bind _
      | cons n ms =>
        rw [List.map_cons, continued_cons] at hb
        obtain hended | ⟨q'', front, hnext, heq, hlaid⟩ := hb.cut_nextMember
        · exact hended.bind _
        · rw [outcome_seq hnext]
          exact ih (fun s v hv => hreads s v (List.mem_cons_of_mem _ hv))
            (fun s s' v hv => hcuts s s' v (List.mem_cons_of_mem _ hv)) hmore heq hlaid

/-- A cut object is noticed, if its members stop where they are cut. -/
theorem cutsShort_members {step : σ → Scan σ} {g : σ → List Literal.Piece × Tree → Except Fault σ}
    {ms : List (List Literal.Piece × Tree)} (hreads : ∀ s, ∀ m ∈ ms, ReadsMember (step s) m (g s m))
    (hcuts : ∀ s s', ∀ m ∈ ms, g s m = .ok s' → CutsMember (step s) m) {start final : σ}
    (hfold : ms.foldlM g start = .ok final) :
    CutsShort (members step start) (listed 0x7D (ms.map memberTokens)) := by
  intro q s h hs
  cases ms with
  | nil =>
    rw [members]
    exact (cutsShort_firstMember_closing q s h hs).bind _
  | cons m ms =>
    rw [members]
    obtain hended | ⟨q', front, hfirst, heq, hlaid⟩ := Laid.cut_firstMember h
    · exact hended.bind _
    · rw [outcome_seq hfirst]
      exact ended_foldMembers hreads hcuts hfold (0 :: q') heq hlaid hs

/-- A cut member whose key denotes a text: the key is cut, or what stands behind it. -/
theorem cutsMember_literal {f : String → Scan α} {m : List Literal.Piece × Tree} {key : String}
    (hkey : Literal.text m.1 = .ok key) (hf : Cuts (f key) ([0x3A] :: m.2.tokens)) :
    CutsMember (Literal.read >>= f) m := by
  intro q s front hq hfront hs
  obtain ⟨s', hs', hcut⟩ | ⟨q', rfl, rfl⟩ := cut_append hq
  · exact .inl ((Literal.ended_read hkey hcut hs').bind f)
  · have hread := Literal.outcome_read m.1 q'
    rw [hkey] at hread
    rw [outcome_seq hread]
    exact hf q' s hfront hs

/-- Behind a key the colon is cut, or the value. -/
theorem cuts_colon {scan : Scan α} {tokens : List Bytes} (h : Cuts scan tokens) :
    Cuts (colon >>= fun _ => scan) ([0x3A] :: tokens) := by
  intro q s hq hs
  obtain hended | ⟨q', hcolon, hlaid⟩ := hq.cut_colon
  · exact .inl (hended.bind _)
  · rw [outcome_seq hcolon]
    exact h q' s hlaid hs

/-! ## 5. Whole documents -/

theorem FloatFreeItems.forall {js : List Json} (h : FloatFreeItems js) : ∀ j ∈ js, j.FloatFree := by
  induction js with
  | nil => exact nofun
  | cons j js ih => exact List.forall_mem_cons.2 ⟨h.1, ih h.2⟩

theorem FloatFreeMembers.forall {ms : List (String × Json)} (h : FloatFreeMembers ms) :
    ∀ m ∈ ms, m.2.FloatFree := by
  induction ms with
  | nil => exact nofun
  | cons m ms ih => exact List.forall_mem_cons.2 ⟨h.1, ih h.2⟩

theorem cuts_read_scalar {t : Tree} (ht : t.IsScalar) {room : Nat} {doc : Json}
    (h : t.document room = .ok doc) (hfloat : doc.FloatFree) : Cuts (Json.read room) t.tokens := by
  intro q s hq hs
  obtain ⟨inner, hinner⟩ := read_eq_readLevel room
  -- A scalar tree and its document show the same at the front.
  have hhead : ∃ found, t.head = .ok found ∧ ∀ x, found ≠ .number (.float x) := by
    cases t with
    | null => exact ⟨.null, rfl, fun _ => Head.noConfusion⟩
    | boolean b => exact ⟨.boolean b, rfl, fun _ => Head.noConfusion⟩
    | number n =>
      obtain ⟨x, hx, rfl⟩ := ok_of_map h
      refine ⟨.number x, by rw [Tree.head, hx]; rfl, fun y hy => ?_⟩
      cases hy
      exact hfloat
    | string l =>
      obtain ⟨text, htext, rfl⟩ := ok_of_map h
      exact ⟨.string text, by rw [Tree.head, htext]; rfl, fun _ => Head.noConfusion⟩
    | array ts => exact ht.elim
    | object ms => exact ht.elim
  obtain ⟨found, hfound, hnofloat⟩ := hhead
  rw [hinner]
  unfold readLevel
  obtain hended | ⟨i, i', rfl, hread, -⟩ := cut_head ht hfound hnofloat hq hs
  · exact .inl (hended.bind _)
  · rw [outcome_seq hread]
    exact .inr ⟨_, rfl⟩

/-- Wherever a document without doubles is cut, its reader stops at the end of the text. -/
theorem cuts_read (t : Tree) {room : Nat} {doc : Json} (h : t.document room = .ok doc)
    (hfloat : doc.FloatFree) : Cuts (Json.read room) t.tokens := by
  induction t generalizing room doc with
  | null => exact cuts_read_scalar (t := .null) trivial h hfloat
  | boolean b => exact cuts_read_scalar (t := .boolean b) trivial h hfloat
  | number n => exact cuts_read_scalar (t := .number n) trivial h hfloat
  | string l => exact cuts_read_scalar (t := .string l) trivial h hfloat
  | array ts ih =>
    cases room with
    | zero => cases h
    | succ room =>
      rw [Tree.document, documents_eq_mapM] at h
      obtain ⟨js, hjs, rfl⟩ := ok_of_map h
      have hcuts : ∀ t ∈ ts, ∀ j, t.document room = .ok j → Cuts (Json.read room) t.tokens := by
        intro t ht _ _
        obtain ⟨j, hj, hdoc⟩ := exists_mem_of_mapM hjs t ht
        exact ih t ht hdoc (FloatFreeItems.forall hfloat j hj)
      have hitems := cutsShort_items (fun t _ => reads_read t room) hcuts hjs
      exact (cutsShort_array (hitems.bind fun js => pure (Json.array js)) fun q => rfl).cuts
  | object ms ih =>
    cases room with
    | zero => cases h
    | succ room =>
      rw [Tree.document, memberDocuments_eq_mapM] at h
      obtain ⟨js, hjs, rfl⟩ := ok_of_map h
      have hcuts : ∀ (found found' : List (String × Json)), ∀ m ∈ ms,
          (· :: found) <$> memberDocument room m = .ok found' → CutsMember (do
            let key ← Literal.read
            colon
            return (key, ← Json.read room) :: found) m := by
        intro found found' m hm _
        obtain ⟨j, hj, hmember⟩ := exists_mem_of_mapM hjs m hm
        obtain ⟨key, hkey, hvalue⟩ := ok_of_bind hmember
        obtain ⟨doc, hdoc, hpair⟩ := ok_of_bind hvalue
        cases hpair
        have hread := ih m hm hdoc (FloatFreeMembers.forall hfloat _ hj)
        exact cutsMember_literal hkey (cuts_colon (hread.map fun doc => (key, doc) :: found))
      rw [List.mapM_eq_reverse_foldlM_cons] at hjs
      obtain ⟨found, hfold, -⟩ := ok_of_map (f := List.reverse) hjs
      have hmembers := cutsShort_members
        (fun found m _ => readsMember_document (reads_read m.2 room) found) hcuts hfold
      exact (cutsShort_object (hmembers.bind fun found => pure (Json.object found.reverse)) fun q => rfl).cuts

end MetricCatalog.Json
