import Mathlib.Data.List.Forall2
import MetricCatalog.Proofs.Json.Parse
import MetricCatalog.Proofs.Text.WellFormed

/-!
# Well-formed tokens — where a text may hold bytes that are not UTF-8

A literal that is read has been checked to denote UTF-8, and then it is UTF-8 itself. All other tokens are
ASCII. So bytes that are not UTF-8 can only stand in literals that have been passed over, and emptying
those makes a text of the bytes.
-/

namespace MetricCatalog.Json

open Scan Utf8

/-! ## 1. Literals -/

namespace Literal

theorem toNat_lt_of_hexValue? {b : UInt8} (h : (hexValue? (ascii b)).isSome) : b.toNat < 0x80 := by
  have hle : ∀ d : Char, d.toNat < 0x80 → ascii b ≤ d → b.toNat < 0x80 := by
    intro d hd hbd
    have hnat : (ascii b).toNat ≤ d.toNat := UInt32.le_iff_toNat_le.1 hbd
    rw [toNat_ascii] at hnat
    omega
  unfold hexValue? at h
  split at h
  · next hb => exact hle '9' (by decide) hb.2
  · split at h
    · next hb => exact hle 'f' (by decide) hb.2
    · split at h
      · next hb => exact hle 'F' (by decide) hb.2
      · cases h

theorem ascii_letter {b : UInt8} (h : (letter? (ascii b)).isSome) :
    Ascii (Piece.letter b h).bytes ∧ Ascii [(letter? (ascii b)).get h] := by
  have hletter : ∀ c : Char, ∀ v ∈ letter? c, c.toNat < 0x80 ∧ v.toNat < 0x80 := by
    intro c v hv
    unfold letter? at hv
    split at hv
    case h_9 => cases hv
    all_goals
      obtain rfl := Option.some.inj hv
      decide
  obtain ⟨hb, hv⟩ := hletter (ascii b) _ (Option.get_mem h)
  rw [toNat_ascii] at hb
  simp only [Ascii, Piece.bytes, List.forall_mem_cons]
  exact ⟨⟨by decide, hb, List.forall_mem_nil _⟩, hv, List.forall_mem_nil _⟩

theorem ascii_code {a b c d : UInt8} (h : (hex? a b c d).isSome) : Ascii (Piece.code a b c d h).bytes := by
  obtain ⟨n, hn⟩ := Option.isSome_iff_exists.1 h
  obtain ⟨k, hk, hmore⟩ := Option.bind_eq_some_iff.1 hn
  obtain ⟨l, hl, hmore⟩ := Option.bind_eq_some_iff.1 hmore
  obtain ⟨m, hm, hmore⟩ := Option.bind_eq_some_iff.1 hmore
  obtain ⟨n, hn, -⟩ := Option.bind_eq_some_iff.1 hmore
  have hdigit : ∀ {b : UInt8} {n : Nat}, hexValue? (ascii b) = some n → b.toNat < 0x80 :=
    fun h => toNat_lt_of_hexValue? (by rw [h]; rfl)
  simp only [Ascii, Piece.bytes, List.forall_mem_cons]
  exact ⟨by decide, by decide, hdigit hk, hdigit hl, hdigit hm, hdigit hn, List.forall_mem_nil _⟩

/-- Pieces are well-formed exactly if the bytes that they denote are, be it in the middle of a character. -/
theorem wellFormed_denoted {ps : List Piece} {d : Bytes} (h : denoted ps = .ok d) (front : Bytes) :
    WellFormed (front ++ d) ↔ WellFormed (front ++ ps.flatMap Piece.bytes) := by
  fun_induction denoted ps generalizing d front with
  | case1 =>
    cases h
    rfl
  | case2 b hb ps ih =>
    obtain ⟨d, hd, rfl⟩ := ok_of_map h
    -- A plain byte may be a part of a character, so it is put to what stands in front.
    have hplain := ih hd (front ++ [b])
    rwa [List.append_assoc, List.append_assoc] at hplain
  | case3 b hb ps ih =>
    obtain ⟨d, hd, rfl⟩ := ok_of_map h
    have hrest : WellFormed d ↔ WellFormed (ps.flatMap Piece.bytes) := ih hd []
    obtain ⟨hbytes, hvalue⟩ := ascii_letter hb
    rw [← List.singleton_append, wellFormed_around_ascii hvalue (List.cons_ne_nil _ _), hrest,
      List.flatMap_cons, wellFormed_around_ascii hbytes (List.cons_ne_nil _ _)]
  | case4 => cases h
  | case5 _ _ _ _ hcode _ _ _ _ _ _ _ hcode' ps =>
    rename_i ih
    obtain ⟨d, hd, rfl⟩ := ok_of_map h
    have hrest : WellFormed d ↔ WellFormed (ps.flatMap Piece.bytes) := ih hd []
    have hpair : Ascii ((Piece.code _ _ _ _ hcode).bytes ++ (Piece.code _ _ _ _ hcode').bytes) :=
      List.forall_mem_append.2 ⟨ascii_code hcode, ascii_code hcode'⟩
    rw [wellFormed_around, hrest, List.flatMap_cons, List.flatMap_cons, ← List.append_assoc (Piece.bytes _),
      wellFormed_around_ascii hpair (List.cons_ne_nil _ _)]
  | case6 => cases h
  | case7 => cases h
  | case8 _ _ _ _ hcode ps =>
    rename_i ih
    obtain ⟨d, hd, rfl⟩ := ok_of_map h
    have hrest : WellFormed d ↔ WellFormed (ps.flatMap Piece.bytes) := ih hd []
    rw [wellFormed_around, hrest, List.flatMap_cons,
      wellFormed_around_ascii (ascii_code hcode) (List.cons_ne_nil _ _)]

/-- A literal that denotes a text is UTF-8 itself. -/
theorem wellFormed_bytes {l : List Piece} {s : String} (h : text l = .ok s) : WellFormed (bytes l) := by
  obtain ⟨d, hd, htext⟩ := ok_of_bind h
  have hdenoted : WellFormed d := by
    split at htext
    · next hdecode => exact ⟨_, encode_of_decode hdecode⟩
    · cases htext
  have hpieces : WellFormed (l.flatMap Piece.bytes) := (wellFormed_denoted hd []).1 hdenoted
  have hquote : WellFormed [0x22] := Ascii.wellFormed (by decide)
  exact hquote.append (hpieces.append hquote)

end Literal

/-! ## 2. Tokens -/

theorem Numeral.ascii_map_digitByte {ds : List Nat} (h : ∀ d ∈ ds, d < 10) : Ascii (ds.map digitByte) := by
  intro b hb
  obtain ⟨d, hd, rfl⟩ := List.mem_map.1 hb
  have hlt := h d hd
  rw [digitByte, UInt8.toNat_ofNat']
  omega

theorem Numeral.Token.ascii_bytes (t : Token) : Ascii t.bytes := by
  obtain ⟨n, h, mark, hmark⟩ := t
  have hdigits : Ascii ((n.whole ++ n.fraction ++ n.exponentDigits).map digitByte) :=
    ascii_map_digitByte h.digits_lt
  rw [List.map_append, List.map_append, Ascii, List.forall_mem_append, List.forall_mem_append] at hdigits
  obtain ⟨⟨hwhole, hfraction⟩, hexponent⟩ := hdigits
  have hsign : Ascii n.signBytes := by
    unfold signBytes
    split <;> decide
  have hpoint : Ascii n.pointBytes := by
    unfold pointBytes
    split
    · decide
    · exact List.forall_mem_cons.2 ⟨by decide, hfraction⟩
  have hmark : Ascii mark := by
    have hmarks : ∀ e : Option Exponent, ∀ mark ∈ marks e, Ascii mark := by
      rintro (_ | ⟨_ | _, _⟩)
      · show ∀ mark ∈ [[]], Ascii mark
        decide
      · show ∀ mark ∈ [[0x65], [0x45], [0x65, 0x2B], [0x45, 0x2B]], Ascii mark
        decide
      · show ∀ mark ∈ [[0x65, 0x2D], [0x45, 0x2D]], Ascii mark
        decide
    exact hmarks _ mark hmark
  unfold bytes
  simp only [Ascii, List.forall_mem_append]
  exact ⟨⟨⟨⟨hsign, hwhole⟩, hpoint⟩, hmark⟩, hexponent⟩

/-- A token is well-formed and kept as it is, or it is a literal and emptied. -/
def KeptOrEmptied (token token' : Bytes) : Prop :=
  token' = token ∧ WellFormed token ∨ token' = Literal.bytes [] ∧ ∃ l, token = Literal.bytes l

theorem KeptOrEmptied.wellFormed {token token' : Bytes} (h : KeptOrEmptied token token') :
    WellFormed token' := by
  obtain ⟨rfl, hkept⟩ | ⟨rfl, -⟩ := h
  · exact hkept
  · exact Ascii.wellFormed (by decide)

theorem kept_ascii {token : Bytes} (h : Ascii token) : KeptOrEmptied token token :=
  .inl ⟨rfl, h.wellFormed⟩

theorem kept_literal {l : List Literal.Piece} {s : String} (h : Literal.text l = .ok s) :
    KeptOrEmptied (Literal.bytes l) (Literal.bytes l) :=
  .inl ⟨rfl, Literal.wellFormed_bytes h⟩

theorem emptied_literal (l : List Literal.Piece) : KeptOrEmptied (Literal.bytes l) (Literal.bytes []) :=
  .inr ⟨rfl, l, rfl⟩

namespace Tree

/-- The trees have the same tokens but for literals that are emptied, and all that are kept are
well-formed. -/
def EmptiedTo (t t' : Tree) : Prop := List.Forall₂ KeptOrEmptied t.tokens t'.tokens

/-- A scalar that is no literal is kept, and so is a literal that denotes a text. -/
theorem emptiedTo_scalar {t : Tree} (ht : t.IsScalar)
    (htext : ∀ l, t = .string l → ∃ s, Literal.text l = .ok s) : t.EmptiedTo t := by
  cases t with
  | null => exact .cons (kept_ascii (by decide)) .nil
  | boolean b => cases b <;> exact .cons (kept_ascii (by decide)) .nil
  | number n => exact .cons (kept_ascii n.ascii_bytes) .nil
  | string l =>
    obtain ⟨s, hs⟩ := htext l rfl
    exact .cons (kept_literal hs) .nil
  | array ts => exact ht.elim
  | object ms => exact ht.elim

/-- What is between brackets is kept or emptied if each piece is. -/
theorem kept_listed {closing : UInt8} (hclosing : closing.toNat < 0x80) {ps ps' : List (List Bytes)}
    (h : List.Forall₂ (List.Forall₂ KeptOrEmptied) ps ps') :
    List.Forall₂ KeptOrEmptied (listed closing ps) (listed closing ps') := by
  have hlast : KeptOrEmptied [closing] [closing] := kept_ascii (ascii_singleton hclosing)
  have hcontinued : ∀ {ps ps' : List (List Bytes)}, List.Forall₂ (List.Forall₂ KeptOrEmptied) ps ps' →
      List.Forall₂ KeptOrEmptied (continued closing ps) (continued closing ps') := by
    intro ps ps' h
    induction h with
    | nil => exact .cons hlast .nil
    | cons hp _ ih =>
      rw [continued_cons, continued_cons]
      exact .cons (kept_ascii (by decide)) (List.rel_append hp ih)
  cases h with
  | nil => exact .cons hlast .nil
  | cons hp hps => exact List.rel_append hp (hcontinued hps)

theorem emptiedTo_array {ts ts' : List Tree}
    (h : List.Forall₂ EmptiedTo ts ts') : (Tree.array ts).EmptiedTo (.array ts') := by
  rw [EmptiedTo, tokens, tokens, tokensOfItems_eq_map, tokensOfItems_eq_map]
  refine .cons (kept_ascii (by decide)) (kept_listed (by decide) ?_)
  exact List.forall₂_map_left_iff.2 (List.forall₂_map_right_iff.2 h)

theorem emptiedTo_object {ms ms' : List (List Literal.Piece × Tree)}
    (h : List.Forall₂ (fun m m' => KeptOrEmptied (Literal.bytes m.1) (Literal.bytes m'.1) ∧
      m.2.EmptiedTo m'.2) ms ms') : (Tree.object ms).EmptiedTo (.object ms') := by
  rw [EmptiedTo, tokens, tokens, tokensOfMembers_eq_map, tokensOfMembers_eq_map]
  refine .cons (kept_ascii (by decide)) (kept_listed (by decide) ?_)
  refine List.forall₂_map_left_iff.2 (List.forall₂_map_right_iff.2 (h.imp ?_))
  intro m m' hm
  exact .cons hm.1 (.cons (kept_ascii (by decide)) hm.2)

end Tree

/-! ## 3. Trees -/

namespace Tree

mutual

/-- The tree with all literals emptied, those of the keys as well. -/
def emptied : Tree → Tree
  | .string _ => .string []
  | .array ts => .array (emptiedItems ts)
  | .object ms => .object (emptiedMembers ms)
  | t => t

def emptiedItems : List Tree → List Tree
  | [] => []
  | t :: ts => emptied t :: emptiedItems ts

def emptiedMembers : List (List Literal.Piece × Tree) → List (List Literal.Piece × Tree)
  | [] => []
  | (_, t) :: ms => ([], emptied t) :: emptiedMembers ms

end

theorem emptiedTo_emptied (t : Tree) : t.EmptiedTo t.emptied := by
  induction t with
  | null => exact emptiedTo_scalar trivial nofun
  | boolean b => exact emptiedTo_scalar trivial nofun
  | number n => exact emptiedTo_scalar trivial nofun
  | string l => exact .cons (emptied_literal l) .nil
  | array ts ih =>
    refine emptiedTo_array ?_
    induction ts with
    | nil => exact .nil
    | cons t ts ihs =>
      obtain ⟨ht, hts⟩ := List.forall_mem_cons.1 ih
      exact .cons ht (ihs hts)
  | object ms ih =>
    refine emptiedTo_object ?_
    induction ms with
    | nil => exact .nil
    | cons m ms ihs =>
      obtain ⟨hm, hms⟩ := List.forall_mem_cons.1 ih
      exact .cons ⟨emptied_literal m.1, hm⟩ (ihs hms)

/-- A tree that denotes a document is well-formed, token by token. -/
theorem emptiedTo_of_document (t : Tree) {room : Nat} {j : Json} (h : t.document room = .ok j) :
    t.EmptiedTo t := by
  induction t generalizing room j with
  | null => exact emptiedTo_scalar trivial nofun
  | boolean b => exact emptiedTo_scalar trivial nofun
  | number n => exact emptiedTo_scalar trivial nofun
  | string l =>
    obtain ⟨s, hs, -⟩ := ok_of_map h
    exact emptiedTo_scalar trivial fun l' hl => ⟨s, Tree.string.inj hl ▸ hs⟩
  | array ts ih =>
    cases room with
    | zero => cases h
    | succ room =>
      rw [document, documents_eq_mapM] at h
      obtain ⟨js, hjs, -⟩ := ok_of_map h
      refine emptiedTo_array (List.forall₂_same.2 fun t ht => ?_)
      obtain ⟨j, -, hj⟩ := exists_mem_of_mapM hjs t ht
      exact ih t ht hj
  | object ms ih =>
    cases room with
    | zero => cases h
    | succ room =>
      rw [document, memberDocuments_eq_mapM] at h
      obtain ⟨js, hjs, -⟩ := ok_of_map h
      refine emptiedTo_object (List.forall₂_same.2 fun m hm => ?_)
      obtain ⟨j, -, hj⟩ := exists_mem_of_mapM hjs m hm
      obtain ⟨key, hkey, hvalue⟩ := ok_of_bind hj
      obtain ⟨doc, hdoc, -⟩ := ok_of_bind hvalue
      exact ⟨kept_literal hkey, ih m hm hdoc⟩

end Tree

/-! ## 4. Gaps -/

/-- Tokens, each behind the blanks in front of it. -/
def spaced (gaps tokens : List Bytes) : Bytes := (List.zipWith (· ++ ·) gaps tokens).flatten

theorem Laid.exists_gaps {tokens : List Bytes} {front : Bytes} (h : Laid tokens front) :
    ∃ gaps, gaps.length = tokens.length ∧ (∀ gap ∈ gaps, Blank gap) ∧ front = spaced gaps tokens := by
  induction h with
  | nil => exact ⟨[], rfl, nofun, rfl⟩
  | @cons gap token front tokens hgap _ ih =>
    obtain ⟨gaps, hlength, hgaps, rfl⟩ := ih
    refine ⟨gap :: gaps, congrArg (· + 1) hlength, List.forall_mem_cons.2 ⟨hgap, hgaps⟩, ?_⟩
    rw [← List.append_assoc]
    rfl

theorem laid_spaced {gaps tokens : List Bytes} (hlength : gaps.length = tokens.length)
    (h : ∀ gap ∈ gaps, Blank gap) : Laid tokens (spaced gaps tokens) := by
  induction tokens generalizing gaps with
  | nil =>
    rw [List.eq_nil_of_length_eq_zero hlength]
    exact .nil
  | cons token tokens ih =>
    obtain ⟨gap, gaps, rfl⟩ := List.exists_cons_of_length_eq_add_one hlength
    obtain ⟨hgap, hgaps⟩ := List.forall_mem_cons.1 h
    have hrest := ih (Nat.succ_inj.1 hlength) hgaps
    have hlaid : Laid (token :: tokens) (gap ++ (token ++ spaced gaps tokens)) := .cons hgap hrest
    rw [← List.append_assoc] at hlaid
    exact hlaid

theorem ascii_blank {gap : Bytes} (h : Blank gap) : Ascii gap := by
  have hblank : ∀ b : UInt8, isBlank b = true → b.toNat < 0x80 := by
    intro b hb
    simp only [isBlank, Bool.or_eq_true, decide_eq_true_eq] at hb
    obtain ((rfl | rfl) | rfl) | rfl := hb <;> decide
  exact fun b hb => hblank b (h b hb)

/-- Well-formed tokens with blanks between them are well-formed. -/
theorem wellFormed_spaced {gaps tokens : List Bytes} (hgaps : ∀ gap ∈ gaps, Blank gap)
    (h : ∀ token ∈ tokens, WellFormed token) : WellFormed (spaced gaps tokens) := by
  induction gaps generalizing tokens with
  | nil => exact wellFormed_nil
  | cons gap gaps ih =>
    cases tokens with
    | nil => exact wellFormed_nil
    | cons token tokens =>
      obtain ⟨hgap, hgaps⟩ := List.forall_mem_cons.1 hgaps
      obtain ⟨htoken, htokens⟩ := List.forall_mem_cons.1 h
      exact ((ascii_blank hgap).wellFormed.append htoken).append (ih hgaps htokens)

end MetricCatalog.Json
