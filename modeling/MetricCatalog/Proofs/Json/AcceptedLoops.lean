import MetricCatalog.Proofs.Json.Document

/-!
# Accepted loops — what has been read item by item

The converse of `outcome_items` and `outcome_members`: where a loop succeeds, the bytes that it has read
are the tokens of trees, if that is so for each of its steps.
-/

namespace MetricCatalog.Json

open Scan Json.Tree

variable {α β σ : Type}

namespace Scan

/-! ## 1. Steps that have succeeded -/

theorem bind_eq_ok {x : Scan α} {f : α → Scan β} {bs : Bytes} {r : β × Bytes} :
    outcome (x >>= f) bs = .ok r ↔ ∃ a mid, outcome x bs = .ok (a, mid) ∧
      outcome (f a) mid = .ok r := by
  rw [outcome_bind]
  cases outcome x bs with
  | error e =>
    constructor
    · intro h
      cases h
    · rintro ⟨a, mid, h, -⟩
      cases h
  | ok s =>
    constructor
    · intro h
      exact ⟨s.1, s.2, rfl, h⟩
    · rintro ⟨a, mid, h, h'⟩
      cases h
      exact h'

theorem toNat_ascii (b : UInt8) : (ascii b).toNat = b.toNat := by
  have hb : b.toNat.isValidChar := .inl (by have := b.toNat_lt; omega)
  show (Char.ofNat b.toNat).val.toNat = b.toNat
  rw [Char.ofNat, dif_pos hb]
  rfl

theorem ascii_inj {b c : UInt8} (h : ascii b = ascii c) : b = c := by
  have hnat : b.toNat = c.toNat := by rw [← toNat_ascii b, ← toNat_ascii c, h]
  exact UInt8.toNat_inj.1 hnat

/-- A byte is told from its character. -/
theorem cons_of_head {bs : Bytes} {b : UInt8} (h : some (ascii b) = bs.head?.map ascii) :
    ∃ rest, bs = b :: rest := by
  cases bs with
  | nil => cases h
  | cons c rest => exact ⟨rest, by rw [ascii_inj (Option.some.inj h)]⟩

/-- What comes next stands behind blanks. -/
theorem next_inv {bs rest : Bytes} {c : Option Char} (h : outcome next? bs = .ok (c, rest)) :
    ∃ gap, Blank gap ∧ bs = gap ++ rest ∧ c = rest.head?.map ascii := by
  have hnext : outcome next? bs =
      .ok ((bs.dropWhile isBlank).head?.map ascii, bs.dropWhile isBlank) := rfl
  rw [hnext] at h
  cases h
  exact ⟨bs.takeWhile isBlank, fun b hb => List.all_eq_true.1 List.all_takeWhile b hb,
    List.takeWhile_append_dropWhile.symm, rfl⟩

theorem identifier_inv {cs : List Char} {letters : Bytes} (hletters : letters.map ascii = cs)
    {bs rest : Bytes} {u : Unit} (h : outcome (identifier cs) bs = .ok (u, rest)) :
    bs = letters ++ rest := by
  -- Bytes with the same characters are the same, so the letters are those that were asked for.
  induction cs generalizing letters bs with
  | nil =>
    cases h
    rw [List.map_eq_nil_iff.1 hletters]
    rfl
  | cons c cs ih =>
    rcases List.map_eq_cons_iff.1 hletters with ⟨b, letters, rfl, rfl, hmore⟩
    cases bs with
    | nil => cases h
    | cons d bs =>
      rw [identifier, outcome_bind, outcome_take] at h
      have h' : outcome (if ascii d = ascii b then identifier cs
          else fail (.malformed .identifierWanted)) bs = .ok (u, rest) := h
      by_cases hd : ascii d = ascii b
      · rw [if_pos hd] at h'
        rw [ascii_inj hd, ih hmore h', List.cons_append]
      · rw [if_neg hd] at h'
        cases h'

end Scan

theorem blank_append {gap gap' : Bytes} (h : Blank gap) (h' : Blank gap') : Blank (gap ++ gap') := by
  intro b hb
  rcases List.mem_append.1 hb with hb | hb
  · exact h b hb
  · exact h' b hb

/-- Blanks may come before the first token. -/
theorem Laid.blank_append {gap front : Bytes} {tokens : List Bytes} (hgap : Blank gap)
    (h : Laid tokens front) (hne : tokens ≠ []) : Laid tokens (gap ++ front) := by
  cases h with
  | nil => exact absurd rfl hne
  | cons hgap' hrest =>
    rw [← List.append_assoc]
    exact .cons (Json.blank_append hgap hgap') hrest

theorem laid_single {gap : Bytes} (hgap : Blank gap) (token : Bytes) : Laid [token] (gap ++ token) := by
  have h : Laid [token] (gap ++ (token ++ [])) := .cons hgap .nil
  rwa [List.append_nil] at h

theorem colon_inv {bs rest : Bytes} {u : Unit} (h : outcome colon bs = .ok (u, rest)) :
    ∃ front, bs = front ++ rest ∧ Laid [[0x3A]] front := by
  rcases bind_eq_ok.1 h with ⟨c, mid, hnext, hmatch⟩
  rcases next_inv hnext with ⟨gap, hgap, rfl, hc⟩
  split at hmatch
  · cases hmatch
  · rcases cons_of_head (b := 0x3A) hc with ⟨rest', rfl⟩
    cases hmatch
    exact ⟨gap ++ [0x3A], by rw [List.append_assoc]; rfl, laid_single hgap _⟩
  · cases hmatch

/-! ## 2. Loops that have succeeded -/

/-- Whatever the scan reads is spelled by a tree, from which `f` gives the same. -/
def Finds (scan : Scan α) (f : Tree → Except Fault α) : Prop :=
  ∀ bs a rest, outcome scan bs = .ok (a, rest) → ∃ t front, bs = front ++ rest ∧ Laid t.tokens front ∧
    f t = .ok a

theorem firstItem_inv {bs rest : Bytes} {b : Bool} (h : outcome firstItem bs = .ok (b, rest)) :
    (b = false ∧ ∃ front, bs = front ++ rest ∧ Laid [[0x5D]] front) ∨
      (b = true ∧ ∃ gap, bs = gap ++ rest ∧ Blank gap) := by
  rcases bind_eq_ok.1 h with ⟨c, mid, hnext, h⟩
  rcases next_inv hnext with ⟨gap, hgap, rfl, rfl⟩
  cases mid with
  | nil => cases h
  | cons d mid =>
    rw [List.head?_cons, Option.map_some] at h
    split at h
    · contradiction
    · next hd =>
      cases ascii_inj (c := 0x5D) (Option.some.inj hd)
      cases h
      exact .inl ⟨rfl, gap ++ [0x5D], by rw [List.append_assoc]; rfl, laid_single hgap _⟩
    · cases h
      exact .inr ⟨rfl, gap, rfl, hgap⟩

theorem nextItem_inv {bs rest : Bytes} {b : Bool} (h : outcome nextItem bs = .ok (b, rest)) :
    (b = false ∧ ∃ front, bs = front ++ rest ∧ Laid [[0x5D]] front) ∨
      (b = true ∧ ∃ front gap, bs = front ++ (gap ++ rest) ∧ Laid [[0x2C]] front ∧ Blank gap) := by
  rcases bind_eq_ok.1 h with ⟨c, mid, hnext, h⟩
  rcases next_inv hnext with ⟨gap, hgap, rfl, rfl⟩
  cases mid with
  | nil => cases h
  | cons d mid =>
    rw [List.head?_cons, Option.map_some] at h
    split at h
    · contradiction
    · next hd =>
      cases ascii_inj (c := 0x5D) (Option.some.inj hd)
      cases h
      exact .inl ⟨rfl, gap ++ [0x5D], by rw [List.append_assoc]; rfl, laid_single hgap _⟩
    · next hd =>
      cases ascii_inj (c := 0x2C) (Option.some.inj hd)
      rcases bind_eq_ok.1 h with ⟨_, _, hcomma, hbehind⟩
      cases hcomma
      -- The blanks behind the comma have been read as well.
      rcases bind_eq_ok.1 hbehind with ⟨c, mid', hnext', hc⟩
      rcases next_inv hnext' with ⟨gap', hgap', rfl, -⟩
      split at hc
      · cases hc
      · cases hc
      · cases hc
        exact .inr ⟨rfl, gap ++ [0x2C], gap', by rw [List.append_assoc]; rfl, laid_single hgap _, hgap'⟩
    · cases h

theorem append_continued_ne_nil (p : List Bytes) (closing : UInt8) (ps : List (List Bytes)) :
    p ++ continued closing ps ≠ [] :=
  List.append_ne_nil_of_right_ne_nil _ (List.append_ne_nil_of_right_ne_nil _ (List.cons_ne_nil _ _))

/-- The items from here on. -/
theorem foldItems_inv {step : σ → Scan σ} {g : σ → Tree → Except Fault σ}
    (hstep : ∀ s, Finds (step s) (g s)) {fuel : Bytes} {s s' : σ} {bs rest : Bytes}
    (h : outcome (foldItems step fuel s) bs = .ok (s', rest)) :
    ∃ t ts front, bs = front ++ rest ∧ Laid (t.tokens ++ continued 0x5D (ts.map tokens)) front ∧
      (t :: ts).foldlM g s = .ok s' := by
  -- Each round takes one byte of the fuel, whatever it reads.
  induction fuel generalizing s bs with
  | nil => cases h
  | cons f fuel ih =>
    rcases bind_eq_ok.1 h with ⟨s₁, mid, hfirst, hmore⟩
    rcases hstep s bs s₁ mid hfirst with ⟨t, front, rfl, hfront, hvalue⟩
    rcases bind_eq_ok.1 hmore with ⟨b, mid', hnext, hlast⟩
    rcases nextItem_inv hnext with ⟨rfl, front', rfl, hfront'⟩ | ⟨rfl, front', gap, rfl, hfront', hgap⟩
    · -- The bracket closes behind the item that has just been read.
      cases hlast
      refine ⟨t, [], front ++ front', (List.append_assoc _ _ _).symm, hfront.append hfront', ?_⟩
      rw [List.foldlM_cons, hvalue]
      rfl
    · rcases ih hlast with ⟨u, us, more, rfl, hus, hvalues⟩
      refine ⟨t, u :: us, front ++ (front' ++ (gap ++ more)), by simp only [List.append_assoc], ?_, ?_⟩
      · have hus' : Laid (u.tokens ++ continued 0x5D (us.map tokens)) (gap ++ more) :=
          hus.blank_append hgap (append_continued_ne_nil _ _ _)
        rw [List.map_cons, continued_cons]
        exact hfront.append (hfront'.append hus')
      · rw [List.foldlM_cons, hvalue]
        exact hvalues

/-- The items of an array that have been read behind its opening bracket. -/
theorem items_inv {item : Scan α} {f : Tree → Except Fault α} (hitem : Finds item f) {bs rest : Bytes}
    {as : List α} (h : outcome (items item) bs = .ok (as, rest)) :
    ∃ (ts : List Tree) (front : Bytes), bs = front ++ rest ∧ Laid (listed 0x5D (ts.map tokens)) front ∧
      ts.mapM f = .ok as := by
  rcases bind_eq_ok.1 h with ⟨b, mid, hfirst, hmore⟩
  rcases firstItem_inv hfirst with ⟨rfl, front, rfl, hfront⟩ | ⟨rfl, gap, rfl, hgap⟩
  · cases hmore
    exact ⟨[], front, rfl, hfront, rfl⟩
  · rcases bind_eq_ok.1 hmore with ⟨found, mid', hfold, hlast⟩
    cases hlast
    -- The loop gathers the items in reverse, so its step puts each in front of those found before.
    have hstep : ∀ found : List α, Finds (do return (← item) :: found) fun t =>
        (· :: found) <$> f t := by
      intro found bs as rest h
      rcases bind_eq_ok.1 h with ⟨a, mid, ha, hpure⟩
      cases hpure
      rcases hitem bs a _ ha with ⟨t, front, rfl, hfront, hvalue⟩
      exact ⟨t, front, rfl, hfront, congrArg ((· :: found) <$> ·) hvalue⟩
    rcases foldItems_inv hstep hfold with ⟨t, ts, front, rfl, hfront, hvalues⟩
    refine ⟨t :: ts, gap ++ front, (List.append_assoc _ _ _).symm, ?_, ?_⟩
    · exact hfront.blank_append hgap (append_continued_ne_nil _ _ _)
    · rw [List.mapM_eq_reverse_foldlM_cons, hvalues]
      rfl

/-! The members of an object are read in the same way, but for the key in front of each. -/

/-- Whatever the scan reads from behind the quote that opens a key is spelled by a member. -/
def FindsMember (scan : Scan α) (f : List Literal.Piece × Tree → Except Fault α) : Prop :=
  ∀ bs a rest, outcome scan bs = .ok (a, rest) →
    ∃ m front, bs = Literal.inside m.1 ++ (front ++ rest) ∧ Laid ([0x3A] :: m.2.tokens) front ∧
      f m = .ok a

theorem firstMember_inv {bs rest : Bytes} {b : Bool} (h : outcome firstMember bs = .ok (b, rest)) :
    (b = false ∧ ∃ front, bs = front ++ rest ∧ Laid [[0x7D]] front) ∨
      (b = true ∧ ∃ gap, bs = gap ++ 0x22 :: rest ∧ Blank gap) := by
  rcases bind_eq_ok.1 h with ⟨c, mid, hnext, h⟩
  rcases next_inv hnext with ⟨gap, hgap, rfl, rfl⟩
  cases mid with
  | nil => cases h
  | cons d mid =>
    rw [List.head?_cons, Option.map_some] at h
    split at h
    · contradiction
    · next hd =>
      cases ascii_inj (c := 0x7D) (Option.some.inj hd)
      cases h
      exact .inl ⟨rfl, gap ++ [0x7D], by rw [List.append_assoc]; rfl, laid_single hgap _⟩
    · next hd =>
      cases ascii_inj (c := 0x22) (Option.some.inj hd)
      cases h
      exact .inr ⟨rfl, gap, rfl, hgap⟩
    · cases h

theorem nextMember_inv {bs rest : Bytes} {b : Bool} (h : outcome nextMember bs = .ok (b, rest)) :
    (b = false ∧ ∃ front, bs = front ++ rest ∧ Laid [[0x7D]] front) ∨
      (b = true ∧ ∃ front gap, bs = front ++ (gap ++ 0x22 :: rest) ∧ Laid [[0x2C]] front ∧
        Blank gap) := by
  rcases bind_eq_ok.1 h with ⟨c, mid, hnext, h⟩
  rcases next_inv hnext with ⟨gap, hgap, rfl, rfl⟩
  cases mid with
  | nil => cases h
  | cons d mid =>
    rw [List.head?_cons, Option.map_some] at h
    split at h
    · contradiction
    · next hd =>
      cases ascii_inj (c := 0x7D) (Option.some.inj hd)
      cases h
      exact .inl ⟨rfl, gap ++ [0x7D], by rw [List.append_assoc]; rfl, laid_single hgap _⟩
    · next hd =>
      cases ascii_inj (c := 0x2C) (Option.some.inj hd)
      rcases bind_eq_ok.1 h with ⟨_, _, hcomma, hbehind⟩
      cases hcomma
      rcases bind_eq_ok.1 hbehind with ⟨c, mid', hnext', hc⟩
      rcases next_inv hnext' with ⟨gap', hgap', rfl, hhead⟩
      split at hc
      · cases hc
      · rcases cons_of_head (b := 0x22) hhead with ⟨rest', rfl⟩
        cases hc
        exact .inr ⟨rfl, gap ++ [0x2C], gap', by rw [List.append_assoc]; rfl,
          laid_single hgap _, hgap'⟩
      · cases hc
      · cases hc
    · cases h

/-- The members from here on. -/
theorem foldMembers_inv {step : σ → Scan σ} {g : σ → List Literal.Piece × Tree → Except Fault σ}
    (hstep : ∀ s, FindsMember (step s) (g s)) {fuel : Bytes} {s s' : σ} {bs rest : Bytes}
    (h : outcome (foldMembers step fuel s) bs = .ok (s', rest)) :
    ∃ m ms front, bs = Literal.inside m.1 ++ (front ++ rest) ∧
      Laid ([0x3A] :: (m.2.tokens ++ continued 0x7D (ms.map memberTokens))) front ∧
        (m :: ms).foldlM g s = .ok s' := by
  -- The key has been read up to its quote, so a member is told by what stands behind that.
  induction fuel generalizing s bs with
  | nil => cases h
  | cons f fuel ih =>
    rcases bind_eq_ok.1 h with ⟨s₁, mid, hfirst, hmore⟩
    rcases hstep s bs s₁ mid hfirst with ⟨m, front, rfl, hfront, hvalue⟩
    rcases bind_eq_ok.1 hmore with ⟨b, mid', hnext, hlast⟩
    rcases nextMember_inv hnext with ⟨rfl, front', rfl, hfront'⟩ |
      ⟨rfl, front', gap, rfl, hfront', hgap⟩
    · -- The brace closes behind the member that has just been read.
      cases hlast
      refine ⟨m, [], front ++ front', by rw [List.append_assoc], hfront.append hfront', ?_⟩
      rw [List.foldlM_cons, hvalue]
      rfl
    · rcases ih hlast with ⟨n, ns, more, rfl, hns, hvalues⟩
      refine ⟨m, n :: ns, front ++ (front' ++ (gap ++ (Literal.bytes n.1 ++ more))), ?_, ?_, ?_⟩
      · simp only [List.append_assoc, Literal.bytes, List.cons_append]
      · rw [List.map_cons, continued_cons]
        exact hfront.append (hfront'.append (.cons hgap hns))
      · rw [List.foldlM_cons, hvalue]
        exact hvalues

/-- The members of an object that have been read behind its opening brace. -/
theorem members_inv {step : σ → Scan σ} {g : σ → List Literal.Piece × Tree → Except Fault σ}
    (hstep : ∀ s, FindsMember (step s) (g s)) {start s' : σ} {bs rest : Bytes}
    (h : outcome (members step start) bs = .ok (s', rest)) :
    ∃ (ms : List (List Literal.Piece × Tree)) (front : Bytes), bs = front ++ rest ∧
      Laid (listed 0x7D (ms.map memberTokens)) front ∧ ms.foldlM g start = .ok s' := by
  rcases bind_eq_ok.1 h with ⟨b, mid, hfirst, hmore⟩
  rcases firstMember_inv hfirst with ⟨rfl, front, rfl, hfront⟩ | ⟨rfl, gap, rfl, hgap⟩
  · cases hmore
    exact ⟨[], front, rfl, hfront, rfl⟩
  · rcases foldMembers_inv hstep hmore with ⟨m, ms, front, rfl, hfront, hvalues⟩
    refine ⟨m :: ms, gap ++ (Literal.bytes m.1 ++ front), ?_, .cons hgap hfront, hvalues⟩
    simp only [List.append_assoc, Literal.bytes, List.cons_append]

end MetricCatalog.Json
