import MetricCatalog.Proofs.Json.Notation
import MetricCatalog.Proofs.Json.Parse
import MetricCatalog.Json.Render
import Mathlib.Data.List.Forall2

/-!
# Rendered documents — what is written is read again

A document is written as a spelling of a tree, in either layout. Without doubles the tree denotes the
document, so that parsing gives it back as it was. With doubles it need not: whether their decimal notation
is read as the same double is a question of arithmetic.
-/

namespace MetricCatalog.Json

open Scan Json.Tree

/-! ## 1. String literals -/

namespace Literal

theorem denoted_single {a b c d : UInt8} (h : (hex? a b c d).isSome)
    (ht : isTrailing ((hex? a b c d).get h) = false) (hl : isLeading ((hex? a b c d).get h) = false)
    (ps : List Piece) :
    denoted (.code a b c d h :: ps) =
      (denoted ps).map (String.utf8EncodeChar (Char.ofNat ((hex? a b c d).get h)) ++ ·) := by
  -- `denoted` looks at what follows before it looks at the code point.
  cases ps with
  | nil => exact (if_neg (Bool.eq_false_iff.1 ht)).trans (if_neg (Bool.eq_false_iff.1 hl))
  | cons p ps =>
    cases p <;> exact (if_neg (Bool.eq_false_iff.1 ht)).trans (if_neg (Bool.eq_false_iff.1 hl))

theorem denoted_plain {bs : Bytes} (h : ∀ b ∈ bs, isControl b = false ∧ ascii b ≠ '"' ∧ ascii b ≠ '\\')
    (ps : List Piece) :
    (bs.pmap Piece.plain h).flatMap Piece.bytes = bs ∧
      denoted (bs.pmap Piece.plain h ++ ps) = (denoted ps).map (bs ++ ·) := by
  induction bs with
  | nil =>
    refine ⟨rfl, ?_⟩
    show denoted ps = (denoted ps).map ([] ++ ·)
    cases denoted ps <;> rfl
  | cons b bs ih =>
    rcases ih fun c hc => h c (List.mem_cons_of_mem _ hc) with ⟨hbytes, hdenoted⟩
    constructor
    · rw [List.pmap_cons, List.flatMap_cons, hbytes]
      rfl
    · rw [List.pmap_cons, List.cons_append]
      show (denoted (bs.pmap Piece.plain _ ++ ps)).map (b :: ·) = _
      rw [hdenoted]
      cases denoted ps <;> rfl

theorem isPlain_of_mem {c : Char} (hcontrol : ¬ c.toNat < 0x20) (hquote : c ≠ '"') (hslash : c ≠ '\\')
    {b : UInt8} (hb : b ∈ String.utf8EncodeChar c) :
    isControl b = false ∧ ascii b ≠ '"' ∧ ascii b ≠ '\\' := by
  -- An ASCII character is its only byte; the bytes of any other are beyond all that are asked for.
  by_cases hascii : c.toNat < 0x80
  · rw [Utf8.utf8EncodeChar_of_lt hascii, List.mem_singleton] at hb
    subst hb
    have hnat : (UInt8.ofNat c.toNat).toNat = c.toNat := by
      rw [UInt8.toNat_ofNat']
      omega
    have hchar : ascii (UInt8.ofNat c.toNat) = c := by rw [ascii, hnat, Char.ofNat_toNat]
    rw [hchar, isControl, hnat]
    exact ⟨decide_eq_false hcontrol, hquote, hslash⟩
  · have hle := Utf8.le_of_mem_utf8EncodeChar (Nat.not_lt.1 hascii) hb
    have hchar : ∀ d : Char, d.toNat < 0x80 → ascii b ≠ d := by
      intro d hd h
      rw [← h, toNat_ascii] at hd
      omega
    exact ⟨decide_eq_false (by omega), hchar '"' (by decide), hchar '\\' (by decide)⟩

/-- The hexadecimal digits of a control character. -/
theorem hex?_control : ∀ n < 0x20,
    Utf8.encode ['\\', 'u', '0', '0', hexDigit (n / 16), hexDigit (n % 16)] =
      [0x5C, 0x75, 0x30, 0x30, UInt8.ofNat (hexDigit (n / 16)).toNat,
        UInt8.ofNat (hexDigit (n % 16)).toNat] ∧
    hex? 0x30 0x30 (UInt8.ofNat (hexDigit (n / 16)).toNat) (UInt8.ofNat (hexDigit (n % 16)).toNat) =
      some n := by
  decide

/-- An escaped character is spelled by pieces that denote the character. -/
theorem exists_pieces_escape (c : Char) :
    ∃ qs : List Piece, qs.flatMap Piece.bytes = Utf8.encode (escape c) ∧
      ∀ ps, denoted (qs ++ ps) = (denoted ps).map (String.utf8EncodeChar c ++ ·) := by
  unfold escape
  split
  · exact ⟨[.letter 0x22 rfl], rfl, fun ps => rfl⟩
  · exact ⟨[.letter 0x5C rfl], rfl, fun ps => rfl⟩
  · exact ⟨[.letter 0x62 rfl], rfl, fun ps => rfl⟩
  · exact ⟨[.letter 0x66 rfl], rfl, fun ps => rfl⟩
  · exact ⟨[.letter 0x6E rfl], rfl, fun ps => rfl⟩
  · exact ⟨[.letter 0x72 rfl], rfl, fun ps => rfl⟩
  · exact ⟨[.letter 0x74 rfl], rfl, fun ps => rfl⟩
  · next hquote hslash _ _ _ _ _ =>
    -- Other control characters are numeric escapes, and the rest stand for themselves.
    by_cases hcontrol : c.toNat < 0x20
    · rw [if_pos hcontrol]
      rcases hex?_control c.toNat hcontrol with ⟨hencode, hhex⟩
      have hsome : (hex? 0x30 0x30 (UInt8.ofNat (hexDigit (c.toNat / 16)).toNat)
          (UInt8.ofNat (hexDigit (c.toNat % 16)).toNat)).isSome := by
        rw [hhex]
        rfl
      refine ⟨[.code _ _ _ _ hsome], hencode.symm, fun ps => ?_⟩
      have hvalue : (hex? 0x30 0x30 (UInt8.ofNat (hexDigit (c.toNat / 16)).toNat)
          (UInt8.ofNat (hexDigit (c.toNat % 16)).toNat)).get hsome = c.toNat := by
        simp only [hhex, Option.get_some]
      have htrailing : isTrailing c.toNat = false := by
        simp only [isTrailing, Bool.and_eq_false_iff, decide_eq_false_iff_not]
        omega
      have hleading : isLeading c.toNat = false := by
        simp only [isLeading, Bool.and_eq_false_iff, decide_eq_false_iff_not]
        omega
      rw [List.singleton_append,
        denoted_single hsome (by rw [hvalue, htrailing]) (by rw [hvalue, hleading]), hvalue,
        Char.ofNat_toNat]
    · rw [if_neg hcontrol]
      have hplain : ∀ b ∈ String.utf8EncodeChar c,
          isControl b = false ∧ ascii b ≠ '"' ∧ ascii b ≠ '\\' :=
        fun b hb => isPlain_of_mem hcontrol hquote hslash hb
      refine ⟨(String.utf8EncodeChar c).pmap Piece.plain hplain, ?_,
        fun ps => (denoted_plain hplain ps).2⟩
      rw [(denoted_plain hplain []).1, Utf8.encode, List.flatMap_singleton]

/-- A text is written as a literal that denotes it. -/
theorem exists_pieces (s : String) :
    ∃ ps, Literal.bytes ps = Utf8.encode (literal s) ∧ text ps = .ok s := by
  have hpieces : ∀ cs : List Char, ∃ ps : List Piece,
      ps.flatMap Piece.bytes = Utf8.encode (cs.flatMap escape) ∧
      denoted ps = .ok (Utf8.encode cs) := by
    intro cs
    induction cs with
    | nil => exact ⟨[], rfl, rfl⟩
    | cons c cs ih =>
      rcases exists_pieces_escape c with ⟨qs, hbytes, hdenoted⟩
      rcases ih with ⟨ps, hbytes', hdenoted'⟩
      refine ⟨qs ++ ps, ?_, ?_⟩
      · rw [List.flatMap_append, hbytes, hbytes', List.flatMap_cons, Utf8.encode_append]
      · rw [hdenoted, hdenoted']
        rfl
  rcases hpieces s.toList with ⟨ps, hbytes, hdenoted⟩
  refine ⟨ps, ?_, ?_⟩
  · rw [literal, Utf8.encode_cons, Utf8.encode_append, ← hbytes]
    rfl
  · rw [text, hdenoted]
    simp only [bind, Except.bind, Utf8.decode_encode, String.ofList_toList]

end Literal

/-! ## 2. Documents -/

mutual

/-- The document holds no double. -/
def FloatFree : Json → Prop
  | .number (.float _) => False
  | .array items => FloatFreeItems items
  | .object members => FloatFreeMembers members
  | _ => True

/-- No item holds a double. -/
def FloatFreeItems : List Json → Prop
  | [] => True
  | x :: xs => FloatFree x ∧ FloatFreeItems xs

/-- No member's value holds a double. -/
def FloatFreeMembers : List (String × Json) → Prop
  | [] => True
  | (_, v) :: rest => FloatFree v ∧ FloatFreeMembers rest

end

mutual

/-- How many arrays and objects are open at once. -/
def depth : Json → Nat
  | .array items => depthOfItems items + 1
  | .object members => depthOfMembers members + 1
  | _ => 0

/-- The greatest depth of the items. -/
def depthOfItems : List Json → Nat
  | [] => 0
  | x :: xs => max (depth x) (depthOfItems xs)

/-- The greatest depth of the members' values. -/
def depthOfMembers : List (String × Json) → Nat
  | [] => 0
  | (_, v) :: rest => max (depth v) (depthOfMembers rest)

end

namespace Layout

/-- What a layout puts between the tokens is nothing but blanks. -/
structure IsBlank (l : Layout) : Prop where
  lineBreak (n : Nat) : Blank (Utf8.encode (l.lineBreak n))
  colon : ∃ gap, Utf8.encode l.colon = 0x3A :: gap ∧ Blank gap

theorem isBlank_compact : IsBlank compact where
  lineBreak _ := blank_nil
  colon := ⟨[], rfl, blank_nil⟩

theorem isBlank_pretty : IsBlank pretty where
  lineBreak n := by
    have hblanks : ∀ k, Blank (Utf8.encode (List.replicate k ' ')) := by
      intro k
      induction k with
      | zero => exact blank_nil
      | succ k ih => exact List.forall_mem_cons.2 ⟨rfl, ih⟩
    exact List.forall_mem_cons.2 ⟨rfl, hblanks (2 * n)⟩
  colon := ⟨[0x20], rfl, List.forall_mem_cons.2 ⟨rfl, blank_nil⟩⟩

variable {l : Layout} (hl : l.IsBlank)

include hl

/-- What is enclosed is laid out token by token, if its pieces are. -/
theorem laid_enclose {opening closing : Char} {first last : UInt8}
    (hopening : String.utf8EncodeChar opening = [first])
    (hclosing : String.utf8EncodeChar closing = [last]) (depth : Nat) {pieces : List (List Char)}
    {tokens : List (List Bytes)}
    (h : List.Forall₂ (fun piece ts => Laid ts (Utf8.encode piece) ∧ ts ≠ []) pieces tokens) :
    Laid ([first] :: listed last tokens) (Utf8.encode (l.enclose depth opening closing pieces)) := by
  have hlast : ∀ n, Laid [[last]] (Utf8.encode (l.lineBreak n) ++ [last]) :=
    fun n => laid_single (hl.lineBreak n) _
  cases h with
  | nil =>
    rw [enclose, Utf8.encode_cons, Utf8.encode_cons, hopening, hclosing]
    exact .cons blank_nil (.cons blank_nil .nil)
  | @cons piece ts pieces tokens h hmore =>
    -- A line break belongs to the token behind it, since blanks stand before tokens.
    have hcontinued : Laid (continued last tokens) (Utf8.encode
        (pieces.flatMap (fun q => ',' :: (l.lineBreak (depth + 1) ++ q))) ++
          (Utf8.encode (l.lineBreak depth) ++ [last])) := by
      induction hmore with
      | nil => exact hlast depth
      | @cons piece ts pieces tokens h hmore ih =>
        rw [continued_cons, List.flatMap_cons, List.cons_append, Utf8.encode_cons, Utf8.encode_append,
          Utf8.encode_append, List.append_assoc, List.append_assoc]
        have hcomma : Laid [[0x2C]] (String.utf8EncodeChar ',') := laid_single blank_nil _
        exact hcomma.append ((h.1.blank_append (hl.lineBreak _) h.2).append ih)
    have hencode : Utf8.encode (l.enclose depth opening closing (piece :: pieces)) =
        [first] ++ ((Utf8.encode (l.lineBreak (depth + 1)) ++ Utf8.encode piece) ++
          (Utf8.encode (pieces.flatMap (fun q => ',' :: (l.lineBreak (depth + 1) ++ q))) ++
            (Utf8.encode (l.lineBreak depth) ++ [last]))) := by
      simp only [enclose, Utf8.encode_cons, Utf8.encode_append, hopening, hclosing, List.append_assoc]
      rfl
    rw [hencode]
    exact @Laid.cons [] _ _ _ blank_nil ((h.1.blank_append (hl.lineBreak _) h.2).append hcontinued)

theorem IsBlank.laid_member {key : String} {k : List Literal.Piece}
    (hk : Literal.bytes k = Utf8.encode (literal key)) {t : Tree} {value : List Char}
    (h : Laid t.tokens (Utf8.encode value)) :
    Laid (memberTokens (k, t)) (Utf8.encode (literal key ++ l.colon ++ value)) := by
  obtain ⟨gap, hcolon, hgap⟩ := hl.colon
  -- What the layout puts behind the colon are the blanks before the value.
  have hencode : Utf8.encode (literal key ++ l.colon ++ value) =
      [] ++ (Literal.bytes k ++ ([] ++ ([0x3A] ++ (gap ++ Utf8.encode value)))) := by
    rw [Utf8.encode_append, Utf8.encode_append, ← hk, hcolon, List.append_assoc]
    rfl
  rw [hencode]
  exact .cons blank_nil (.cons blank_nil (h.blank_append hgap t.tokens_nonempty))

end Layout

section

variable {l : Layout}

mutual

/-- A document is laid out as a tree, which denotes it if there are no doubles. -/
theorem exists_tree (hl : l.IsBlank) : (j : Json) → (depth : Nat) →
    ∃ t : Tree, Laid t.tokens (Utf8.encode (l.render depth j)) ∧
      (j.FloatFree → ∀ room, j.depth ≤ room → t.document room = .ok j)
  | .null, _ => ⟨.null, laid_single blank_nil _, fun _ _ _ => rfl⟩
  | .boolean true, _ => ⟨.boolean true, laid_single blank_nil _, fun _ _ _ => rfl⟩
  | .boolean false, _ => ⟨.boolean false, laid_single blank_nil _, fun _ _ _ => rfl⟩
  | .number (.int i), _ => by
    rcases Numeral.exists_token i with ⟨t, hbytes, hvalue⟩
    refine ⟨.number t, ?_, fun _ _ _ => ?_⟩
    · rw [Tree.tokens, hbytes]
      exact laid_single blank_nil _
    · rw [Tree.document, hvalue]
      rfl
  | .number (.float x), _ => by
    rcases Numeral.exists_written_renderFloat x with ⟨n, hwf, hwritten⟩
    rcases Numeral.exists_token_written hwf with ⟨t, -, hbytes⟩
    refine ⟨.number t, ?_, False.elim⟩
    rw [Tree.tokens, hbytes, hwritten]
    exact laid_single blank_nil _
  | .string s, _ => by
    rcases Literal.exists_pieces s with ⟨ps, hbytes, htext⟩
    refine ⟨.string ps, ?_, fun _ _ _ => ?_⟩
    · rw [Tree.tokens, hbytes]
      exact laid_single blank_nil _
    · rw [Tree.document, htext]
      rfl
  | .array js, depth => by
    rcases exists_items hl js (depth + 1) with ⟨ts, hlaid, hvalues⟩
    refine ⟨.array ts, ?_, fun hfloat room hdepth => ?_⟩
    · rw [Tree.tokens, tokensOfItems_eq_map]
      exact Layout.laid_enclose hl rfl rfl depth hlaid
    · -- A bracket deepens the document by one, so there is room for it.
      cases room with
      | zero => exact absurd hdepth (Nat.not_succ_le_zero _)
      | succ room =>
        rw [Tree.document, documents_eq_mapM, hvalues hfloat room (Nat.le_of_succ_le_succ hdepth)]
        rfl
  | .object js, depth => by
    rcases exists_members hl js (depth + 1) with ⟨ms, hlaid, hvalues⟩
    refine ⟨.object ms, ?_, fun hfloat room hdepth => ?_⟩
    · rw [Tree.tokens, tokensOfMembers_eq_map]
      exact Layout.laid_enclose hl rfl rfl depth hlaid
    · cases room with
      | zero => exact absurd hdepth (Nat.not_succ_le_zero _)
      | succ room =>
        rw [Tree.document, memberDocuments_eq_mapM, hvalues hfloat room (Nat.le_of_succ_le_succ hdepth)]
        rfl

theorem exists_items (hl : l.IsBlank) : (js : List Json) → (depth : Nat) →
    ∃ ts : List Tree, List.Forall₂ (fun piece tokens => Laid tokens (Utf8.encode piece) ∧ tokens ≠ [])
      (l.renderItems depth js) (ts.map tokens) ∧
      (FloatFreeItems js → ∀ room, depthOfItems js ≤ room → ts.mapM (document room) = .ok js)
  | [], _ => ⟨[], .nil, fun _ _ _ => rfl⟩
  | j :: js, depth => by
    rcases exists_tree hl j depth with ⟨t, hlaid, hvalue⟩
    rcases exists_items hl js depth with ⟨ts, hmore, hvalues⟩
    refine ⟨t :: ts, .cons ⟨hlaid, t.tokens_nonempty⟩ hmore, fun hfloat room hdepth => ?_⟩
    rw [List.mapM_cons, hvalue hfloat.1 room (Nat.le_trans (Nat.le_max_left _ _) hdepth),
      hvalues hfloat.2 room (Nat.le_trans (Nat.le_max_right _ _) hdepth)]
    rfl

theorem exists_members (hl : l.IsBlank) : (js : List (String × Json)) → (depth : Nat) →
    ∃ ms : List (List Literal.Piece × Tree),
      List.Forall₂ (fun piece tokens => Laid tokens (Utf8.encode piece) ∧ tokens ≠ [])
        (l.renderMembers depth js) (ms.map memberTokens) ∧
      (FloatFreeMembers js → ∀ room, depthOfMembers js ≤ room → ms.mapM (memberDocument room) = .ok js)
  | [], _ => ⟨[], .nil, fun _ _ _ => rfl⟩
  | (k, j) :: js, depth => by
    rcases exists_tree hl j depth with ⟨t, hlaid, hvalue⟩
    rcases exists_members hl js depth with ⟨ms, hmore, hvalues⟩
    rcases Literal.exists_pieces k with ⟨ps, hbytes, htext⟩
    refine ⟨(ps, t) :: ms, .cons ⟨hl.laid_member hbytes hlaid, List.cons_ne_nil _ _⟩ hmore,
      fun hfloat room hdepth => ?_⟩
    have hmember : memberDocument room (ps, t) = .ok (k, j) := by
      rw [memberDocument, htext]
      show (t.document room >>= fun j => .ok (k, j)) = _
      rw [hvalue hfloat.1 room (Nat.le_trans (Nat.le_max_left _ _) hdepth)]
      rfl
    rw [List.mapM_cons, hmember, hvalues hfloat.2 room (Nat.le_trans (Nat.le_max_right _ _) hdepth)]
    rfl

end

end

/-- What is rendered without doubles and within the limit of depth is parsed again as it was. -/
theorem parse_render {l : Layout} (hl : l.IsBlank) {j : Json} (hfloat : j.FloatFree)
    (hdepth : j.depth ≤ depthLimit) :
    parse (String.ofList (l.render 0 j)) = .ok j := by
  rcases exists_tree hl j 0 with ⟨t, hlaid, hvalue⟩
  refine parse_eq_ok.2 ⟨t, ⟨_, [], ?_, hlaid, blank_nil⟩, hvalue hfloat depthLimit hdepth⟩
  rw [List.append_nil, String.toList_ofList]

/-- Documents without doubles, however deep, are rendered differently unless they are the same. -/
theorem render_inj {l : Layout} (hl : l.IsBlank) {j k : Json} (hj : j.FloatFree) (hk : k.FloatFree)
    (h : l.render 0 j = l.render 0 k) : j = k := by
  rcases exists_tree hl j 0 with ⟨t, htlaid, ht⟩
  rcases exists_tree hl k 0 with ⟨u, hulaid, hu⟩
  have htspells : t.Spells (Utf8.encode (l.render 0 j)) :=
    ⟨_, [], (List.append_nil _).symm, htlaid, blank_nil⟩
  have huspells : u.Spells (Utf8.encode (l.render 0 j)) :=
    ⟨_, [], by rw [List.append_nil, h], hulaid, blank_nil⟩
  -- With room for both, one text is read as either of them.
  let room := max j.depth k.depth
  have hreadj := (Scan.run_spells (reads_read t room) htspells).2 (ht hj room (Nat.le_max_left _ _))
  have hreadk := (Scan.run_spells (reads_read u room) huspells).2 (hu hk room (Nat.le_max_right _ _))
  rw [hreadj] at hreadk
  exact Except.ok.inj hreadk

theorem compact_inj {j k : Json} (hj : j.FloatFree) (hk : k.FloatFree) : j.compact = k.compact ↔ j = k :=
  ⟨fun h => render_inj Layout.isBlank_compact hj hk (String.ofList_injective h), congrArg compact⟩

theorem pretty_inj {j k : Json} (hj : j.FloatFree) (hk : k.FloatFree) : j.pretty = k.pretty ↔ j = k :=
  ⟨fun h => render_inj Layout.isBlank_pretty hj hk (String.ofList_injective h), congrArg pretty⟩

theorem parse_compact {j : Json} (hfloat : j.FloatFree) (hdepth : j.depth ≤ depthLimit) :
    parse j.compact = .ok j :=
  parse_render Layout.isBlank_compact hfloat hdepth

theorem parse_of_eq_compact {text : String} {j : Json} (htext : text = j.compact) (hfloat : j.FloatFree)
    (hdepth : j.depth ≤ depthLimit) : parse text = .ok j :=
  htext ▸ parse_compact hfloat hdepth

theorem parse_pretty {j : Json} (hfloat : j.FloatFree) (hdepth : j.depth ≤ depthLimit) :
    parse j.pretty = .ok j :=
  parse_render Layout.isBlank_pretty hfloat hdepth

end MetricCatalog.Json
