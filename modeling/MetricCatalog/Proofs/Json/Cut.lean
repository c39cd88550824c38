import MetricCatalog.Proofs.Json.Accepted
import MetricCatalog.Proofs.Json.Rendered

/-!
# Cut texts — what a scan answers where its text has been cut off

A text may be cut anywhere: between tokens, inside an escape, behind a sign. A scan that is cut short
either finds that the text has ended too early, or it has read everything that is left, as it does with a
number whose last digits are missing. `Cuts` says this of a scan and the tokens that it reads.
-/

namespace MetricCatalog.Json

open Scan Json.Tree

variable {α β σ : Type}

/-! ## 1. The end of the text -/

/-- The text has ended too early. -/
def Ended (r : Except Fault α) : Prop := ∃ what, r = .error (.unfinished what)

/-- Either the text has ended too early, or all that is left of it has been read. -/
def Stops (r : Except Fault (α × Bytes)) : Prop := Ended r ∨ ∃ a, r = .ok (a, [])

theorem Ended.bind {x : Scan α} {bs : Bytes} (h : Ended (outcome x bs)) (f : α → Scan β) :
    Ended (outcome (x >>= f) bs) := by
  obtain ⟨what, hwhat⟩ := h
  refine ⟨what, ?_⟩
  rw [outcome_bind, hwhat]
  rfl

theorem Stops.bind {x : Scan α} {bs : Bytes} (h : Stops (outcome x bs)) {f : α → Scan β}
    (hf : ∀ a, Stops (outcome (f a) [])) : Stops (outcome (x >>= f) bs) := by
  obtain hended | ⟨a, ha⟩ := h
  · exact .inl (hended.bind f)
  · rw [outcome_seq ha]
    exact hf a

theorem Stops.ended_bind {x : Scan α} {bs : Bytes} (h : Stops (outcome x bs)) {f : α → Scan β}
    (hf : ∀ a, Ended (outcome (f a) [])) : Ended (outcome (x >>= f) bs) := by
  obtain hended | ⟨a, ha⟩ := h
  · exact hended.bind f
  · rw [outcome_seq ha]
    exact hf a

/-! ## 2. Scans that wait for what they need

A literal or a name is read without looking at what follows it, so where it is cut short the scan finds
the text ended.
-/

/-- Where the scan succeeds on a text, it finds any shorter text ended too early, unless that still holds
everything that has been read. -/
def Awaits (x : Scan α) : Prop :=
  ∀ q s a rest, outcome x (q ++ s) = .ok (a, rest) →
    Ended (outcome x q) ∨ ∃ rest', rest = rest' ++ s ∧ outcome x q = .ok (a, rest')

theorem awaits_pure (a : α) : Awaits (pure a : Scan α) := by
  intro q s b rest h
  cases h
  exact .inr ⟨q, rfl, rfl⟩

theorem awaits_fail (fault : Fault) : Awaits (fail fault : Scan α) := by
  intro q s a rest h
  cases h

theorem Awaits.bind {x : Scan α} {f : α → Scan β} (hx : Awaits x) (hf : ∀ a, Awaits (f a)) :
    Awaits (x >>= f) := by
  intro q s b rest h
  obtain ⟨a, mid, ha, hb⟩ := bind_eq_ok.1 h
  obtain hended | ⟨mid', rfl, ha'⟩ := hx q s a mid ha
  · exact .inl (hended.bind f)
  · rw [outcome_seq ha']
    exact hf a mid' s b rest hb

/-- At the end of the text there must be no way on. -/
theorem awaits_take {f : Option Char → Scan α} (hnone : Ended (outcome (f none) []))
    (hsome : ∀ c, Awaits (f (some c))) : Awaits (take? >>= f) := by
  intro q s a rest h
  cases q with
  | nil => exact .inl hnone
  | cons b q =>
    rw [List.cons_append, outcome_seq (outcome_take b (q ++ s))] at h
    rw [outcome_seq (outcome_take b q)]
    exact hsome (ascii b) q s a rest h

theorem awaits_identifier (cs : List Char) : Awaits (identifier cs) := by
  induction cs with
  | nil => exact awaits_pure ()
  | cons c cs ih =>
    rw [identifier]
    refine awaits_take ⟨_, rfl⟩ fun d => ?_
    by_cases hd : d = c
    · simp only [if_pos hd]
      exact ih
    · simp only [if_neg hd]
      exact awaits_fail _

namespace Literal

theorem awaits_hex : Awaits hex := by
  intro q s n rest h
  obtain ⟨a, b, c, d, hbytes, hhex⟩ := hex_inv h
  -- Fewer than four bytes are always too few.
  rcases q with _ | ⟨a', _ | ⟨b', _ | ⟨c', _ | ⟨d', q⟩⟩⟩⟩
  case cons.cons.cons.cons =>
    cases hbytes
    have hlong := h.symm.trans (outcome_hex hhex (q ++ s))
    cases hlong
    exact .inr ⟨q, rfl, outcome_hex hhex q⟩
  all_goals exact .inl ⟨_, rfl⟩

theorem awaits_pairGoesOn (c : Char) : Awaits (pairGoesOn c) := by
  rw [pairGoesOn]
  refine awaits_take ⟨_, rfl⟩ fun d => ?_
  by_cases hd : d = c
  · simp only [if_pos hd]
    exact awaits_pure ()
  · simp only [if_neg hd]
    exact awaits_fail _

theorem awaits_codePoint : Awaits codePoint := by
  rw [codePoint]
  refine awaits_hex.bind fun n => ?_
  by_cases htrailing : isTrailing n = true
  · simp only [if_pos htrailing]
    exact awaits_fail _
  · simp only [if_neg htrailing]
    by_cases hleading : isLeading n = true
    · simp only [if_pos hleading]
      refine (awaits_pairGoesOn _).bind fun _ => (awaits_pairGoesOn _).bind fun _ =>
        awaits_hex.bind fun m => ?_
      by_cases hm : isTrailing m = true
      · simp only [if_pos hm]
        exact awaits_pure _
      · simp only [if_neg hm]
        exact awaits_fail _
    · simp only [if_neg hleading]
      exact awaits_pure _

/-- What stands behind a backslash is waited for. -/
theorem awaits_escape : Awaits (do
    match ← take? with
    | none => fail (.unfinished .string)
    | some 'u' => return some (String.utf8EncodeChar (Char.ofNat (← codePoint)))
    | some c =>
      match letter? c with
      | some b => return some [b]
      | none => fail (.malformed .escape) : Scan (Option Bytes)) := by
  refine awaits_take ⟨_, rfl⟩ fun c => ?_
  split
  · contradiction
  · exact awaits_codePoint.bind fun n => awaits_pure _
  · next c' _ _ =>
    cases letter? c' with
    | none => exact awaits_fail _
    | some b => exact awaits_pure _

theorem awaits_keptPiece : Awaits keptPiece := by
  intro q s more rest h
  cases q with
  | nil => exact .inl ⟨_, rfl⟩
  | cons b q =>
    rw [List.cons_append] at h
    by_cases hquote : ascii b = '"'
    · cases ascii_inj (c := 0x22) hquote
      cases h
      exact .inr ⟨q, rfl, rfl⟩
    · by_cases hslash : ascii b = '\\'
      · cases ascii_inj (c := 0x5C) hslash
        rw [outcome_keptPiece_escape] at h ⊢
        exact awaits_escape q s more rest h
      · rw [outcome_keptPiece_other hquote hslash] at h ⊢
        by_cases hcontrol : isControl b = true
        · rw [if_pos hcontrol] at h
          cases h
        · rw [if_neg hcontrol] at h ⊢
          cases h
          exact .inr ⟨q, rfl, rfl⟩

/-- The closing quote is waited for, whatever fuel there is. -/
theorem cut_pieces {piece : Scan (Option Bytes)} (hpiece : Awaits piece) {done fuel q s text rest : Bytes}
    (h : outcome (pieces piece done fuel) (q ++ s) = .ok (text, rest)) (fuel' : Bytes) :
    Ended (outcome (pieces piece done fuel') q) ∨ ∃ rest', rest = rest' ++ s := by
  induction fuel generalizing done q fuel' with
  | nil => cases h
  | cons f fuel ih =>
    cases fuel' with
    | nil => exact .inl ⟨_, rfl⟩
    | cons f' fuel' =>
      cases hread : outcome piece (q ++ s) with
      | error e =>
        rw [outcome_pieces_error f fuel hread] at h
        cases h
      | ok r =>
        obtain ⟨more, mid⟩ := r
        obtain ⟨what, hended⟩ | ⟨mid', rfl, hread'⟩ := hpiece q s more mid hread
        · exact .inl ⟨what, outcome_pieces_error f' fuel' hended⟩
        · cases more with
          | none =>
            rw [outcome_pieces_end f fuel hread] at h
            cases h
            exact .inr ⟨mid', rfl⟩
          | some bytes =>
            rw [outcome_pieces_ok f fuel hread] at h
            rw [outcome_pieces_ok f' fuel' hread']
            exact ih h fuel'

/-- A literal without its closing quote has ended too early. -/
theorem ended_read {k : List Piece} {text : String} (htext : Literal.text k = .ok text) {q s : Bytes}
    (hk : inside k = q ++ s) (hs : s ≠ []) : Ended (outcome read q) := by
  obtain ⟨bytes, hdenoted, -⟩ := ok_of_bind htext
  have hwhole : outcome (pieces keptPiece [] (0 :: (inside k ++ []))) (q ++ s) = .ok (bytes, []) := by
    have hpieces := outcome_pieces_kept k [] (length_lt_inside k []) []
    rw [hdenoted, List.append_nil, hk] at hpieces
    rw [List.append_nil, hk]
    exact hpieces
  obtain hended | ⟨rest', hrest⟩ := cut_pieces awaits_keptPiece hwhole (0 :: q)
  · rw [read]
    exact Ended.bind (x := withFuel (pieces keptPiece [])) hended _
  · exact absurd (List.append_eq_nil_iff.1 hrest.symm).2 hs

end Literal

/-! ## 3. Cut tokens -/

/-- Two bytes strings put together are cut in the first one or behind it. -/
theorem cut_append {q s a b : Bytes} (h : q ++ s = a ++ b) :
    (∃ a', a' ≠ [] ∧ a = q ++ a') ∨ ∃ q', q = a ++ q' ∧ q' ++ s = b := by
  obtain ⟨a', rfl, rfl⟩ | ⟨q', rfl, rfl⟩ := List.append_eq_append_iff.1 h
  · cases a' with
    | nil => exact .inr ⟨[], by simp only [List.append_nil], rfl⟩
    | cons c a' => exact .inl ⟨c :: a', List.cons_ne_nil c a', rfl⟩
  · exact .inr ⟨q', rfl, rfl⟩

theorem Laid.cut_append {ts us : List Bytes} {q s : Bytes} (h : Laid (ts ++ us) (q ++ s)) :
    (∃ s', s' ≠ [] ∧ Laid ts (q ++ s')) ∨
      ∃ front q', q = front ++ q' ∧ Laid ts front ∧ Laid us (q' ++ s) := by
  obtain ⟨x, y, hxy, hx, hy⟩ := h.append_inv
  obtain ⟨s', hs', rfl⟩ | ⟨q', rfl, rfl⟩ := Json.cut_append hxy
  · exact .inl ⟨s', hs', hx⟩
  · exact .inr ⟨x, q', rfl, hx, hy⟩

/-- Where only blanks are left, the scan goes on at the end of the text. -/
theorem ended_next {f : Option Char → Scan α} {q : Bytes} (hq : outcome next? q = .ok (none, []))
    (hf : Ended (outcome (f none) [])) : Ended (outcome (next? >>= f) q) := by
  rw [outcome_seq hq]
  exact hf

/-- Either only blanks are left, or the first token has begun. -/
theorem Laid.cut_next {b : UInt8} {bs q s : Bytes} {tokens : List Bytes}
    (h : Laid ((b :: bs) :: tokens) (q ++ s)) (hb : isBlank b = false) :
    outcome next? q = .ok (none, []) ∨
      ∃ q' front, outcome next? q = .ok (some (ascii b), b :: q') ∧ q' ++ s = bs ++ front ∧
        Laid tokens front := by
  obtain ⟨gap, front, heq, hgap, hfront⟩ := h.cons_inv
  obtain ⟨gap', -, rfl⟩ | ⟨q', rfl, hq'⟩ := Json.cut_append heq
  · exact .inl (outcome_next_nil fun c hc => hgap c (List.mem_append_left _ hc))
  · cases q' with
    | nil =>
      rw [List.append_nil]
      exact .inl (outcome_next_nil hgap)
    | cons c q' =>
      obtain ⟨rfl, hbs⟩ := List.cons.inj hq'
      exact .inr ⟨q', front, outcome_next hgap hb q', hbs, hfront⟩

/-- The last token has not been finished. -/
theorem Laid.cut_last {b : UInt8} {bs q s : Bytes} (h : Laid [b :: bs] (q ++ s)) (hs : s ≠ [])
    (hb : isBlank b = false) :
    outcome next? q = .ok (none, []) ∨
      ∃ q' s', outcome next? q = .ok (some (ascii b), b :: q') ∧ bs = q' ++ s' ∧ s' ≠ [] := by
  obtain hnone | ⟨q', front, hnext, heq, hfront⟩ := h.cut_next hb
  · exact .inl hnone
  · rw [hfront.nil_inv, List.append_nil] at heq
    exact .inr ⟨q', s, hnext, heq.symm, hs⟩

theorem Delimited.of_append {q s : Bytes} (h : Delimited (q ++ s)) : Delimited q := by
  intro b hb
  cases q with
  | nil => cases hb
  | cons c q => exact h b hb

/-- Wherever the tokens are cut, the scan stops at the end of the text. -/
def Cuts (scan : Scan α) (tokens : List Bytes) : Prop :=
  ∀ q s, Laid tokens (q ++ s) → s ≠ [] → Stops (outcome scan q)

/-- Wherever the tokens are cut, the scan finds that the text has ended too early. -/
def CutsShort (scan : Scan α) (tokens : List Bytes) : Prop :=
  ∀ q s, Laid tokens (q ++ s) → s ≠ [] → Ended (outcome scan q)

theorem CutsShort.cuts {scan : Scan α} {tokens : List Bytes} (h : CutsShort scan tokens) :
    Cuts scan tokens :=
  fun q s hq hs => .inl (h q s hq hs)

theorem CutsShort.bind {scan : Scan α} {tokens : List Bytes} (h : CutsShort scan tokens) (f : α → Scan β) :
    CutsShort (scan >>= f) tokens :=
  fun q s hq hs => (h q s hq hs).bind f

theorem Cuts.map {scan : Scan α} {tokens : List Bytes} (h : Cuts scan tokens) (f : α → β) :
    Cuts (scan >>= fun a => pure (f a)) tokens :=
  fun q s hq hs => (h q s hq hs).bind fun _ => .inr ⟨_, rfl⟩

/-- A token of one byte cannot be cut but before it. -/
theorem cutsShort_single {b : UInt8} {f : Option Char → Scan α} (hb : isBlank b = false)
    (hf : Ended (outcome (f none) [])) : CutsShort (next? >>= f) [[b]] := by
  intro q s h hs
  obtain hnone | ⟨q', s', -, hempty, hs'⟩ := h.cut_last hs hb
  · exact ended_next hnone hf
  · exact absurd (List.append_eq_nil_iff.1 hempty.symm).2 hs'

/-- Behind a colon that is still there the rest of the tokens is cut. -/
theorem Laid.cut_colon {tokens : List Bytes} {q s : Bytes} (h : Laid ([0x3A] :: tokens) (q ++ s)) :
    Ended (outcome colon q) ∨ ∃ q', outcome colon q = .ok ((), q') ∧ Laid tokens (q' ++ s) := by
  obtain hnone | ⟨q', front, hnext, heq, hfront⟩ := h.cut_next rfl
  · exact .inl (ended_next hnone ⟨_, rfl⟩)
  · refine .inr ⟨q', ?_, heq ▸ hfront⟩
    rw [colon, outcome_seq hnext]
    rfl

end MetricCatalog.Json
