import MetricCatalog.Proofs.Json.AcceptedSkip
import MetricCatalog.Proofs.Json.Unchecked
import MetricCatalog.Proofs.Json.WellFormed

/-!
# Checks — a text is never refused for bytes that are not UTF-8

A literal that is read is checked for being UTF-8 from behind one ASCII byte, the opening quote, to another
one, so the check cannot fail on well-formed bytes. What has been read of well-formed bytes leaves
well-formed bytes, up to the end of the text.
-/

namespace MetricCatalog.Json

open Scan Utf8

variable {α σ : Type}

/-! ## 1. Scans of well-formed bytes -/

theorem wellFormed_behind {front rest : Bytes} (hfront : Ascii front) (h : WellFormed (front ++ rest)) :
    WellFormed rest := by
  cases front with
  | nil => exact h
  | cons b front =>
    have haround : WellFormed ([] ++ ((b :: front) ++ rest)) := h
    exact ((wellFormed_around_ascii hfront (List.cons_ne_nil _ _)).1 haround).2

/-- Whatever stands in front of it, the last byte tells that a character ends. -/
theorem wellFormed_behind_last {front rest : Bytes} {b : UInt8} (hb : b.toNat < 0x80)
    (h : WellFormed (front ++ ([b] ++ rest))) : WellFormed rest :=
  ((wellFormed_around_ascii (ascii_singleton hb) (List.cons_ne_nil _ _)).1 h).2

/-- A scan that checks nothing keeps bytes well-formed if it ends behind a character. -/
theorem Keeps.wellFormed {scan : Scan α} (hscan : Unchecked scan)
    (h : ∀ bs a rest, outcome scan bs = .ok (a, rest) → WellFormed bs → WellFormed rest) :
    Keeps WellFormed scan := by
  intro bs hbs
  have hsound := hscan bs trivial
  cases hread : outcome scan bs with
  | error fault =>
    rw [hread] at hsound
    exact hsound
  | ok r => exact h bs r.1 r.2 hread hbs

/-- The same of a scan that goes on where this is what comes next. -/
def KeepsAt (c : Option Char) (scan : Scan α) : Prop :=
  ∀ bs, c = bs.head?.map ascii → WellFormed bs → Sound WellFormed (outcome scan bs)

theorem keepsAt_failAtNext {c : Option Char} {fault : Fault} (h : fault ≠ .malformed .codePoint) :
    KeepsAt c (failAtNext fault : Scan α) :=
  fun _ _ _ => h

theorem keepsAt_fail {c : Option Char} {fault : Fault} (h : fault ≠ .malformed .codePoint) :
    KeepsAt c (fail fault : Scan α) :=
  fun _ _ _ => h

theorem Keeps.at {scan : Scan α} (h : Keeps WellFormed scan) (c : Option Char) : KeepsAt c scan :=
  fun bs _ hbs => h bs hbs

theorem keepsAt_advance {c : Char} (hc : c.toNat < 0x80) {f : Unit → Scan α}
    (h : Keeps WellFormed (f ())) : KeepsAt (some c) (advance >>= f) := by
  intro bs hhead hbs
  cases bs with
  | nil => cases hhead
  | cons b bs =>
    rw [outcome_seq (outcome_advance b bs)]
    rw [Option.some.inj hhead, toNat_ascii] at hc
    exact h bs (wellFormed_behind (ascii_singleton hc) hbs)

theorem keeps_next {f : Option Char → Scan α} (h : ∀ c, KeepsAt c (f c)) :
    Keeps WellFormed (next? >>= f) := by
  intro bs hbs
  have hnext : outcome next? bs =
      .ok ((bs.dropWhile isBlank).head?.map ascii, bs.dropWhile isBlank) := rfl
  obtain ⟨gap, hgap, hsplit, -⟩ := next_inv hnext
  rw [outcome_seq hnext]
  exact h _ _ rfl (wellFormed_behind (ascii_blank hgap) (hsplit ▸ hbs))

theorem Laid.ascii {tokens : List Bytes} {front : Bytes} (h : Laid tokens front)
    (htokens : ∀ token ∈ tokens, Ascii token) : Ascii front := by
  induction h with
  | nil => exact nofun
  | cons hgap _ ih =>
    obtain ⟨htoken, hmore⟩ := List.forall_mem_cons.1 htokens
    exact List.forall_mem_append.2 ⟨ascii_blank hgap, List.forall_mem_append.2 ⟨htoken, ih hmore⟩⟩

theorem keeps_identifier {cs : List Char} {letters : Bytes} (hletters : letters.map ascii = cs)
    (h : Ascii letters) : Keeps WellFormed (identifier cs) := by
  refine Keeps.wellFormed (unchecked_identifier cs) fun bs _ rest hread hbs => ?_
  obtain rfl := identifier_inv hletters hread
  exact wellFormed_behind h hbs

theorem keeps_colon : Keeps WellFormed colon := by
  refine Keeps.wellFormed unchecked_colon fun bs _ rest hread hbs => ?_
  obtain ⟨front, rfl, hfront⟩ := colon_inv hread
  exact wellFormed_behind (hfront.ascii (by decide)) hbs

theorem Number.keeps_read : Keeps WellFormed Number.read := by
  refine Keeps.wellFormed Number.unchecked_read fun bs _ rest hread hbs => ?_
  obtain ⟨n, rfl, -⟩ := Number.read_inv hread
  exact wellFormed_behind n.ascii_bytes hbs

namespace Literal

theorem denoted_ne (ps : List Piece) : denoted ps ≠ .error (.malformed .codePoint) := by
  have hmap : ∀ {r : Except Fault Bytes} (f : Bytes → Bytes), r ≠ .error (.malformed .codePoint) →
      r.map f ≠ .error (.malformed .codePoint) := by
    intro r f h
    cases r with
    | error e => exact h
    | ok bs => rintro ⟨⟩
  fun_induction denoted ps with
  | case1 => rintro ⟨⟩
  | case2 b hb ps ih => exact hmap _ ih
  | case3 b hb ps ih => exact hmap _ ih
  | case4 => rintro ⟨⟩
  | case5 =>
    rename_i ih
    exact hmap _ ih
  | case6 => rintro ⟨⟩
  | case7 => rintro ⟨⟩
  | case8 =>
    rename_i ih
    exact hmap _ ih

/-- The check of a literal does not fail if the literal is part of a text. -/
theorem sound_text {ps : List Piece} (h : WellFormed (ps.flatMap Piece.bytes)) :
    text ps ≠ .error (.malformed .codePoint) := by
  unfold text
  cases hdenoted : denoted ps with
  | error e =>
    intro he
    cases Except.error.inj he
    exact denoted_ne ps hdenoted
  | ok d =>
    obtain ⟨s, rfl⟩ := (wellFormed_denoted hdenoted []).2 h
    simp only [bind, Except.bind, Utf8.decode_encode]
    exact nofun

theorem keeps_read : Keeps WellFormed read := by
  intro bs hbs
  cases hpieces : outcome (withFuel (pieces keptPiece [])) bs with
  | error fault =>
    -- The literal has not come to its end, so nothing has been checked.
    have hne : Sound _ _ := keeps_withFuel (unchecked_pieces unchecked_keptPiece []) bs trivial
    rw [hpieces] at hne
    unfold read
    rw [outcome_bind, hpieces]
    exact hne
  | ok r =>
    obtain ⟨ps, rfl⟩ := pieces_inv (fun _ _ _ => keptPiece_inv) hpieces
    rw [inside, List.append_assoc, wellFormed_around_ascii (by decide) (List.cons_ne_nil _ _)] at hbs
    rw [outcome_read]
    cases htext : text ps with
    | error fault =>
      intro he
      cases he
      exact sound_text hbs.1 htext
    | ok s => exact hbs.2

end Literal

/-! ## 2. Values that are passed over -/

namespace Tree

/-- The last byte of a value is a character of its own. -/
theorem exists_last (t : Tree) :
    ∃ tokens token b, t.tokens = tokens ++ [token ++ [b]] ∧ b.toNat < 0x80 := by
  -- Brackets are closed by a token of their own, so what stands between them does not matter.
  have hlisted : ∀ opening closing ps, ∃ tokens token b,
      [opening] :: listed closing ps = tokens ++ [token ++ [b]] ∧ b = closing := by
    intro opening closing ps
    cases ps with
    | nil => exact ⟨[[opening]], [], closing, rfl, rfl⟩
    | cons p ps =>
      refine ⟨[opening] :: (p ++ ps.flatMap ([0x2C] :: ·)), [], closing, ?_, rfl⟩
      rw [listed, continued, List.cons_append, List.append_assoc]
      rfl
  cases t with
  | null => exact ⟨[], [0x6E, 0x75, 0x6C], 0x6C, rfl, by decide⟩
  | boolean b =>
    cases b with
    | true => exact ⟨[], [0x74, 0x72, 0x75], 0x65, rfl, by decide⟩
    | false => exact ⟨[], [0x66, 0x61, 0x6C, 0x73], 0x65, rfl, by decide⟩
  | number n =>
    obtain ⟨b, bs, hbytes, -⟩ := n.bytes_head
    have hne : n.bytes ≠ [] := hbytes ▸ List.cons_ne_nil b bs
    refine ⟨[], n.bytes.dropLast, n.bytes.getLast hne, ?_, n.ascii_bytes _ (List.getLast_mem hne)⟩
    rw [List.dropLast_append_getLast, List.nil_append, tokens]
  | string l => exact ⟨[], 0x22 :: l.flatMap Literal.Piece.bytes, 0x22, rfl, by decide⟩
  | array ts =>
    obtain ⟨tokens, token, b, htokens, rfl⟩ := hlisted 0x5B 0x5D (tokensOfItems ts)
    exact ⟨tokens, token, _, htokens, by decide⟩
  | object ms =>
    obtain ⟨tokens, token, b, htokens, rfl⟩ := hlisted 0x7B 0x7D (tokensOfMembers ms)
    exact ⟨tokens, token, _, htokens, by decide⟩

end Tree

theorem Laid.wellFormed_behind {t : Tree} {front rest : Bytes} (h : Laid t.tokens front)
    (hbytes : WellFormed (front ++ rest)) : WellFormed rest := by
  obtain ⟨tokens, token, b, htokens, hb⟩ := t.exists_last
  rw [htokens] at h
  -- All that has been read but the last byte is regrouped into one front.
  obtain ⟨x, y, rfl, -, hy⟩ := h.append_inv
  obtain ⟨gap, front, rfl, -, hnil⟩ := hy.cons_inv
  rw [hnil.nil_inv, List.append_nil, ← List.append_assoc gap, ← List.append_assoc x,
    List.append_assoc _ [b]] at hbytes
  exact wellFormed_behind_last hb hbytes

theorem keeps_skip : Keeps WellFormed skip := by
  refine Keeps.wellFormed unchecked_skip fun bs u rest hread hbs => ?_
  obtain ⟨t, front, rfl, hfront, -⟩ := finds_skip bs u rest hread
  exact hfront.wellFormed_behind hbs

/-! ## 3. Fronts, items and members -/

namespace Scan

/-- A name whose first letter has been seen. -/
theorem keepsAt_name {c : Char} (hc : c.toNat < 0x80) {cs : List Char} (letters : Bytes)
    (hletters : letters.map ascii = cs) (h : Ascii letters) (a : α) :
    KeepsAt (some c) (advance >>= fun _ => identifier cs >>= fun _ => pure a) :=
  keepsAt_advance hc ((keeps_identifier hletters h).bind fun _ => keeps_pure a)

theorem keeps_head : Keeps WellFormed head := by
  refine keeps_next fun c => ?_
  split
  · exact keepsAt_failAtNext nofun
  · exact keepsAt_name (by decide) [0x75, 0x6C, 0x6C] rfl (by decide) _
  · exact keepsAt_name (by decide) [0x72, 0x75, 0x65] rfl (by decide) _
  · exact keepsAt_name (by decide) [0x61, 0x6C, 0x73, 0x65] rfl (by decide) _
  · exact keepsAt_advance (by decide) (Literal.keeps_read.bind fun s => keeps_pure _)
  · exact (keeps_pure _).at _
  · exact (keeps_pure _).at _
  · split
    · exact (Number.keeps_read.bind fun x => keeps_pure _).at _
    · exact keepsAt_failAtNext nofun

theorem keeps_orNull {scan : Scan α} (h : Keeps WellFormed scan) : Keeps WellFormed (orNull scan) := by
  refine keeps_next fun c => ?_
  split
  · next hc =>
    subst hc
    exact keepsAt_name (by decide) [0x75, 0x6C, 0x6C] rfl (by decide) _
  · exact (h.bind fun a => keeps_pure _).at _

theorem keeps_firstItem : Keeps WellFormed firstItem := by
  refine keeps_next fun c => ?_
  split
  · exact keepsAt_failAtNext nofun
  · exact keepsAt_advance (by decide) (keeps_pure false)
  · exact (keeps_pure true).at _

theorem keeps_nextItem : Keeps WellFormed nextItem := by
  refine keeps_next fun c => ?_
  split
  · exact keepsAt_failAtNext nofun
  · exact keepsAt_advance (by decide) (keeps_pure false)
  · refine keepsAt_advance (by decide) (keeps_next fun c => ?_)
    split
    · exact keepsAt_failAtNext nofun
    · exact keepsAt_failAtNext nofun
    · exact (keeps_pure true).at _
  · exact keepsAt_failAtNext nofun

theorem keeps_noMoreItems : Keeps WellFormed noMoreItems := by
  refine keeps_next fun c => ?_
  split
  · exact keepsAt_failAtNext nofun
  · exact keepsAt_advance (by decide) (keeps_pure ())
  · refine keepsAt_advance (by decide) (keeps_next fun c => ?_)
    split
    · exact keepsAt_failAtNext nofun
    · exact keepsAt_failAtNext nofun
  · exact keepsAt_failAtNext nofun

theorem keeps_firstMember : Keeps WellFormed firstMember := by
  refine keeps_next fun c => ?_
  split
  · exact keepsAt_failAtNext nofun
  · exact keepsAt_advance (by decide) (keeps_pure false)
  · exact keepsAt_advance (by decide) (keeps_pure true)
  · exact keepsAt_failAtNext nofun

theorem keeps_nextMember : Keeps WellFormed nextMember := by
  refine keeps_next fun c => ?_
  split
  · exact keepsAt_failAtNext nofun
  · exact keepsAt_advance (by decide) (keeps_pure false)
  · refine keepsAt_advance (by decide) (keeps_next fun c => ?_)
    split
    · exact keepsAt_failAtNext nofun
    · exact keepsAt_advance (by decide) (keeps_pure true)
    · exact keepsAt_failAtNext nofun
    · exact keepsAt_failAtNext nofun
  · exact keepsAt_failAtNext nofun

theorem keeps_failClosing {fault : Fault} (h : fault ≠ .malformed .codePoint) :
    Keeps WellFormed (failClosing fault : Scan α) := by
  refine keeps_next fun c => ?_
  split
  · next hc =>
    subst hc
    exact keepsAt_advance (by decide) (keeps_fail h)
  · exact keepsAt_fail h

theorem keeps_foldItems {step : σ → Scan σ} (h : ∀ s, Keeps WellFormed (step s)) (fuel : Bytes) (s : σ) :
    Keeps WellFormed (foldItems step fuel s) := by
  induction fuel generalizing s with
  | nil => exact keeps_fail nofun
  | cons f fuel ih =>
    refine (h s).bind fun s => keeps_nextItem.bind fun more => ?_
    split
    · exact ih s
    · exact keeps_pure s

theorem keeps_items {item : Scan α} (h : Keeps WellFormed item) : Keeps WellFormed (items item) := by
  refine keeps_firstItem.bind fun more => ?_
  split
  · refine Keeps.bind (keeps_withFuel fun fuel => keeps_foldItems (fun found => ?_) fuel []) fun found =>
      keeps_pure _
    exact h.bind fun a => keeps_pure _
  · exact keeps_pure []

theorem keeps_foldMembers {step : σ → Scan σ} (h : ∀ s, Keeps WellFormed (step s)) (fuel : Bytes) (s : σ) :
    Keeps WellFormed (foldMembers step fuel s) := by
  induction fuel generalizing s with
  | nil => exact keeps_fail nofun
  | cons f fuel ih =>
    refine (h s).bind fun s => keeps_nextMember.bind fun more => ?_
    split
    · exact ih s
    · exact keeps_pure s

theorem keeps_members {step : σ → Scan σ} (h : ∀ s, Keeps WellFormed (step s)) (start : σ) :
    Keeps WellFormed (members step start) := by
  refine keeps_firstMember.bind fun more => ?_
  split
  · exact keeps_withFuel fun fuel => keeps_foldMembers h fuel start
  · exact keeps_pure start

theorem keepsAt_enclosed {c : Char} (hc : c.toNat < 0x80) {body : Nat → Scan α}
    (h : ∀ room, Keeps WellFormed (body room)) (room : Nat) : KeepsAt (some c) (enclosed room body) := by
  cases room with
  | zero => exact keepsAt_failAtNext nofun
  | succ room => exact keepsAt_advance hc (h room)

theorem keeps_whole {scan : Scan α} (h : Keeps WellFormed scan) : Keeps WellFormed scan.whole := by
  refine h.bind fun a => keeps_next fun c => ?_
  split
  · exact (keeps_pure a).at _
  · exact keepsAt_failAtNext nofun

end Scan

end MetricCatalog.Json
