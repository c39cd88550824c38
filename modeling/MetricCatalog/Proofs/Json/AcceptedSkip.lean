import MetricCatalog.Proofs.Json.Accepted
import MetricCatalog.Proofs.Json.Skip

/-!
# Accepted skips — whatever is passed over is spelled by a tree

The converse of `reads_skip`. While a value is passed over, the brackets that are open stand on a stack.
`Closes` says what the text must still hold for such a stack, so one induction on the fuel settles
brackets of any depth.
-/

namespace MetricCatalog.Json

open Scan Json.Tree

/-! ## 1. Scalars and keys -/

theorem Literal.skippedPiece_inv {bs rest : Bytes} {more : Option Bytes}
    (h : outcome skippedPiece bs = .ok (more, rest)) :
    (more = none ∧ bs = 0x22 :: rest) ∨
      (more ≠ none ∧ ∃ ps : List Piece, bs = ps.flatMap Piece.bytes ++ rest) := by
  cases bs with
  | nil => cases h
  | cons b bs =>
    by_cases hquote : ascii b = '"'
    · cases ascii_inj (c := 0x22) hquote
      cases h
      exact .inl ⟨rfl, rfl⟩
    · by_cases hslash : ascii b = '\\'
      · cases ascii_inj (c := 0x5C) hslash
        cases bs with
        | nil => cases h
        | cons c bs =>
          rw [outcome_skippedPiece_escape, outcome_seq (outcome_take c bs)] at h
          split at h
          · contradiction
          · next hu =>
            cases ascii_inj (c := 0x75) (Option.some.inj hu)
            obtain ⟨n, mid, hhex, hlast⟩ := bind_eq_ok.1 h
            obtain ⟨x, y, z, w, rfl, hsome⟩ := hex_inv hhex
            cases hlast
            exact .inr ⟨Option.some_ne_none _, [.code x y z w hsome], rfl⟩
          · next c' _ hc =>
            cases Option.some.inj hc
            by_cases hletter : (letter? (ascii c)).isSome
            · rw [if_pos hletter] at h
              cases h
              exact .inr ⟨Option.some_ne_none _, [.letter c hletter], rfl⟩
            · rw [if_neg hletter] at h
              cases h
      · rw [outcome_skippedPiece_other hquote hslash] at h
        by_cases hcontrol : isControl b = true
        · rw [if_pos hcontrol] at h
          cases h
        · rw [if_neg hcontrol] at h
          cases h
          exact .inr ⟨Option.some_ne_none _,
            [.plain b ⟨Bool.eq_false_iff.2 hcontrol, hquote, hslash⟩], rfl⟩

theorem Literal.skip_inv {bs rest : Bytes} {u : Unit} (h : outcome skip bs = .ok (u, rest)) :
    ∃ ps, bs = inside ps ++ rest := by
  obtain ⟨bytes, mid, hpieces, hlast⟩ := bind_eq_ok.1 h
  cases hlast
  exact pieces_inv (fun _ _ _ => skippedPiece_inv) hpieces

/-- A scalar that has been passed over from its first character on. -/
theorem skipScalar_inv {c : Char} {bs rest : Bytes} {u : Unit}
    (hc : some c = bs.head?.map ascii) (h : outcome (skipScalar c) bs = .ok (u, rest)) :
    ∃ (t : Tree) (token : Bytes), t.tokens = [token] ∧ bs = token ++ rest := by
  unfold skipScalar at h
  -- A name is told by its first character, and the letters behind it are those that were asked for.
  have hname : ∀ (t : Tree) (b : UInt8) (letters : Bytes) (cs : List Char),
      some (ascii b) = bs.head?.map ascii → letters.map ascii = cs →
      t.tokens = [b :: letters] →
      outcome (advance >>= fun _ => identifier cs) bs = .ok (u, rest) →
      ∃ (t : Tree) (token : Bytes), t.tokens = [token] ∧ bs = token ++ rest := by
    intro t b letters cs hb hletters htokens h
    obtain ⟨mid, rfl⟩ := cons_of_head hb
    rw [outcome_seq (outcome_advance b mid)] at h
    have hmid : mid = letters ++ rest := identifier_inv hletters h
    exact ⟨t, b :: letters, htokens, by rw [hmid, List.cons_append]⟩
  split at h
  · exact hname .null 0x6E [0x75, 0x6C, 0x6C] _ hc rfl rfl h
  · exact hname (.boolean true) 0x74 [0x72, 0x75, 0x65] _ hc rfl rfl h
  · exact hname (.boolean false) 0x66 [0x61, 0x6C, 0x73, 0x65] _ hc rfl rfl h
  · obtain ⟨mid, rfl⟩ := cons_of_head (b := 0x22) hc
    rw [outcome_seq (outcome_advance 0x22 mid)] at h
    obtain ⟨ps, rfl⟩ := Literal.skip_inv h
    exact ⟨.string ps, Literal.bytes ps, rfl, rfl⟩
  · by_cases hdigit : c = '-' ∨ (Numeral.digit? c).isSome
    · rw [if_pos hdigit] at h
      obtain ⟨n, mid, hread, hlast⟩ := bind_eq_ok.1 h
      cases hlast
      obtain ⟨t, rfl, -⟩ := Numeral.read_inv hread
      exact ⟨.number t, t.bytes, rfl, rfl⟩
    · rw [if_neg hdigit] at h
      cases h

theorem skipKey_inv {bs rest : Bytes} {u : Unit} (h : outcome skipKey bs = .ok (u, rest)) :
    ∃ k front, bs = front ++ rest ∧ Laid (keyTokens (some k)) front := by
  obtain ⟨c, mid, hnext, hmatch⟩ := bind_eq_ok.1 h
  obtain ⟨gap, hgap, rfl, hc⟩ := next_inv hnext
  split at hmatch
  · cases hmatch
  · obtain ⟨mid, rfl⟩ := cons_of_head (b := 0x22) hc
    rw [outcome_seq (outcome_advance 0x22 mid)] at hmatch
    obtain ⟨_, mid', hskip, hcolon⟩ := bind_eq_ok.1 hmatch
    obtain ⟨k, rfl⟩ := Literal.skip_inv hskip
    obtain ⟨front, rfl, hfront⟩ := colon_inv hcolon
    refine ⟨k, gap ++ (Literal.bytes k ++ front), ?_, .cons hgap hfront⟩
    simp only [Literal.bytes, List.cons_append, List.append_assoc]
  · cases hmatch

/-! ## 2. Brackets -/

theorem Bracket.cons_of_closing (bracket : Bracket) {c : Char} {bs : Bytes} (hclosing : c = bracket.closing)
    (hc : some c = bs.head?.map ascii) : ∃ rest, bs = bracket.closingByte :: rest := by
  have hbyte : c = ascii bracket.closingByte := by
    cases bracket <;> exact hclosing
  exact cons_of_head (hbyte ▸ hc)

/-- Either the bracket has been closed at once, or the key of its first entry has been passed over. -/
theorem closedAtOnce_inv {bracket : Bracket} {bs rest : Bytes} {b : Bool}
    (h : outcome (closedAtOnce bracket) bs = .ok (b, rest)) :
    (b = true ∧ ∃ front, bs = front ++ rest ∧ Laid [[bracket.closingByte]] front) ∨
      (b = false ∧ ∃ key front gap, bracket.Fits key ∧ bs = front ++ (gap ++ rest) ∧
        Laid (keyTokens key) front ∧ Blank gap) := by
  obtain ⟨c, mid, hnext, hmatch⟩ := bind_eq_ok.1 h
  obtain ⟨gap, hgap, rfl, hc⟩ := next_inv hnext
  cases c with
  | none => cases hmatch
  | some c =>
    have hif : outcome (if c = bracket.closing then advance >>= fun _ => pure true
        else do
          if bracket = .object then skipKey
          return false) mid = .ok (b, rest) := hmatch
    by_cases hclosing : c = bracket.closing
    · rw [if_pos hclosing] at hif
      obtain ⟨mid, rfl⟩ := bracket.cons_of_closing hclosing hc
      cases hif
      refine .inl ⟨rfl, gap ++ [bracket.closingByte], ?_, laid_single hgap _⟩
      rw [List.append_assoc]
      rfl
    · rw [if_neg hclosing] at hif
      cases bracket with
      | array =>
        cases hif
        exact .inr ⟨rfl, none, [], gap, rfl, rfl, .nil, hgap⟩
      | object =>
        obtain ⟨_, mid', hkey, hlast⟩ := bind_eq_ok.1 hif
        cases hlast
        obtain ⟨k, front, rfl, hfront⟩ := skipKey_inv hkey
        refine .inr ⟨rfl, some k, gap ++ front, [], Option.some_ne_none k, ?_, ?_, blank_nil⟩
        · rw [List.append_assoc, List.nil_append]
        · exact hfront.blank_append hgap (List.cons_ne_nil _ _)

/-- Either the bracket has been closed behind an entry, or a comma and the next key have been passed over. -/
theorem closedNext_inv {bracket : Bracket} {bs rest : Bytes} {b : Bool}
    (h : outcome (closedNext bracket) bs = .ok (b, rest)) :
    (b = true ∧ ∃ front, bs = front ++ rest ∧ Laid [[bracket.closingByte]] front) ∨
      (b = false ∧ ∃ key front, bracket.Fits key ∧ bs = front ++ rest ∧
        Laid ([0x2C] :: keyTokens key) front) := by
  obtain ⟨c, mid, hnext, hmatch⟩ := bind_eq_ok.1 h
  obtain ⟨gap, hgap, rfl, hc⟩ := next_inv hnext
  cases c with
  | none => cases hmatch
  | some c =>
    have hif : outcome (if c = bracket.closing then advance >>= fun _ => pure true
        else if c = ',' then do
          advance
          if bracket = .object then skipKey
          return false
        else failAtNext bracket.separatorWanted) mid = .ok (b, rest) := hmatch
    by_cases hclosing : c = bracket.closing
    · rw [if_pos hclosing] at hif
      obtain ⟨mid, rfl⟩ := bracket.cons_of_closing hclosing hc
      cases hif
      refine .inl ⟨rfl, gap ++ [bracket.closingByte], ?_, laid_single hgap _⟩
      rw [List.append_assoc]
      rfl
    · rw [if_neg hclosing] at hif
      by_cases hcomma : c = ','
      · rw [if_pos hcomma] at hif
        obtain ⟨mid, rfl⟩ := cons_of_head (b := 0x2C) (hcomma ▸ hc)
        rw [outcome_seq (outcome_advance 0x2C mid)] at hif
        cases bracket with
        | array =>
          cases hif
          refine .inr ⟨rfl, none, gap ++ [0x2C], rfl, ?_, laid_single hgap _⟩
          rw [List.append_assoc, List.singleton_append]
        | object =>
          obtain ⟨_, mid', hkey, hlast⟩ := bind_eq_ok.1 hif
          cases hlast
          obtain ⟨k, front, rfl, hfront⟩ := skipKey_inv hkey
          refine .inr ⟨rfl, some k, gap ++ ([0x2C] ++ front), Option.some_ne_none k, ?_,
            .cons hgap hfront⟩
          simp only [List.append_assoc, List.cons_append, List.nil_append]
      · rw [if_neg hcomma] at hif
        cases hif

/-- What stands between two brackets makes a tree. -/
theorem Tree.exists_of_entries (bracket : Bracket) (es : List (Option (List Literal.Piece) × Tree))
    (hes : ∀ e ∈ es, bracket.Fits e.1) :
    ∃ t : Tree, t.tokens = [bracket.openingByte] :: listed bracket.closingByte (es.map entryTokens) := by
  cases bracket with
  | array =>
    refine ⟨.array (es.map Prod.snd), ?_⟩
    have hmap : (es.map Prod.snd).map tokens = es.map entryTokens := by
      rw [List.map_map]
      refine List.map_congr_left fun e he => ?_
      have hkey : e.1 = none := hes e he
      rw [entryTokens, hkey]
      rfl
    rw [tokens, tokensOfItems_eq_map, hmap]
    rfl
  | object =>
    refine ⟨.object (es.map fun e => (e.1.getD [], e.2)), ?_⟩
    have hmap : (es.map fun e => (e.1.getD [], e.2)).map memberTokens = es.map entryTokens := by
      rw [List.map_map]
      refine List.map_congr_left fun e he => ?_
      obtain ⟨k, hk⟩ := Option.ne_none_iff_exists'.1 (hes e he)
      rw [entryTokens, hk]
      show memberTokens (e.1.getD [], e.2) = _
      rw [hk]
      rfl
    rw [tokens, tokensOfMembers_eq_map, hmap]
    rfl

/-! ## 3. Values -/

/-- The text closes the open brackets one after the other, innermost first, perhaps behind further entries
in each of them. -/
inductive Closes : List Bracket → Bytes → Prop where
  | nil : Closes [] []
  | cons {bracket : Bracket} {stack : List Bracket} {es : List (Option (List Literal.Piece) × Tree)}
      {front front' : Bytes} (fits : ∀ e ∈ es, bracket.Fits e.1)
      (laid : Laid (continued bracket.closingByte (es.map entryTokens)) front)
      (rest : Closes stack front') :
      Closes (bracket :: stack) (front ++ front')

/-- A further entry may come before the brackets are closed. -/
theorem Closes.entry {bracket : Bracket} {stack : List Bracket} {key : Option (List Literal.Piece)}
    {t : Tree} {front value more : Bytes} (hkey : bracket.Fits key)
    (hfront : Laid ([0x2C] :: keyTokens key) front) (hvalue : Laid t.tokens value)
    (h : Closes (bracket :: stack) more) :
    Closes (bracket :: stack) (front ++ (value ++ more)) := by
  cases h with
  | @cons _ _ es a b fits laid rest =>
    have hlaid : Laid (continued bracket.closingByte (((key, t) :: es).map entryTokens))
        (front ++ (value ++ a)) := by
      rw [List.map_cons, continued_cons, entryTokens, List.append_assoc]
      exact hfront.append (hvalue.append laid)
    have hentry : Closes (bracket :: stack) ((front ++ (value ++ a)) ++ b) :=
      .cons (List.forall_mem_cons.2 ⟨hkey, fits⟩) hlaid rest
    simpa only [List.append_assoc] using hentry

/-- A value whose first entry has been passed over is a tree with the entries that its bracket is closed
behind. -/
theorem Closes.value {bracket : Bracket} {stack : List Bracket} {key : Option (List Literal.Piece)}
    {t : Tree} {gap front blanks value more : Bytes} (hgap : Blank gap) (hkey : bracket.Fits key)
    (hfront : Laid (keyTokens key) front) (hblanks : Blank blanks) (hvalue : Laid t.tokens value)
    (h : Closes (bracket :: stack) more) :
    ∃ (u : Tree) (whole behind : Bytes), Laid u.tokens whole ∧ Closes stack behind ∧
      gap ++ bracket.openingByte :: (front ++ (blanks ++ (value ++ more))) = whole ++ behind := by
  cases h with
  | @cons _ _ es a b fits laid rest =>
    obtain ⟨u, hu⟩ := Tree.exists_of_entries bracket
      ((key, t) :: es) (List.forall_mem_cons.2 ⟨hkey, fits⟩)
    have hvalue' : Laid t.tokens (blanks ++ value) :=
      hvalue.blank_append hblanks t.tokens_nonempty
    refine ⟨u, gap ++ ([bracket.openingByte] ++ (front ++ ((blanks ++ value) ++ a))), b, ?_, rest, ?_⟩
    · rw [hu, List.map_cons, listed, entryTokens, List.append_assoc]
      exact .cons hgap (hfront.append (hvalue'.append laid))
    · simp only [List.append_assoc, List.cons_append, List.nil_append]

/-- Passing over a value and closing the brackets behind it reads a tree and what closes them. -/
theorem skipValue_inv (fuel : Bytes) :
    (∀ (stack : List Bracket) (bs rest : Bytes) (u : Unit),
      outcome (skipValue fuel stack) bs = .ok (u, rest) →
      ∃ (t : Tree) (front behind : Bytes), bs = front ++ (behind ++ rest) ∧ Laid t.tokens front ∧
        Closes stack behind) ∧
    ∀ (stack : List Bracket) (bs rest : Bytes) (u : Unit),
      outcome (skipRest fuel stack) bs = .ok (u, rest) →
      ∃ behind, bs = behind ++ rest ∧ Closes stack behind := by
  induction fuel with
  | nil =>
    refine ⟨fun stack bs rest u h => (by cases h), fun stack bs rest u h => ?_⟩
    cases stack with
    | nil =>
      cases h
      exact ⟨[], rfl, .nil⟩
    | cons bracket stack => cases h
  | cons f fuel ih =>
    obtain ⟨hvalue, hrest⟩ := ih
    constructor
    · intro stack bs rest u h
      obtain ⟨c, mid, hnext, hmatch⟩ := bind_eq_ok.1 h
      obtain ⟨gap, hgap, rfl, hc⟩ := next_inv hnext
      -- Behind an opening bracket the rest of the value is read with the bracket on the stack.
      have hopen : ∀ bracket : Bracket, some (ascii bracket.openingByte) = mid.head?.map ascii →
          outcome (advance >>= fun _ => do
            if ← closedAtOnce bracket then skipRest fuel stack
            else skipValue fuel (bracket :: stack)) mid = .ok (u, rest) →
          ∃ (t : Tree) (front behind : Bytes), gap ++ mid = front ++ (behind ++ rest) ∧
            Laid t.tokens front ∧ Closes stack behind := by
        intro bracket hbyte hbehind
        obtain ⟨mid, rfl⟩ := cons_of_head hbyte
        rw [outcome_seq (outcome_advance _ mid)] at hbehind
        obtain ⟨b, mid', hclosed, hmore⟩ := bind_eq_ok.1 hbehind
        obtain ⟨rfl, front, rfl, hfront⟩ | ⟨rfl, key, front, blanks, hkey, rfl, hfront, hblanks⟩ :=
          closedAtOnce_inv hclosed
        · obtain ⟨behind, rfl, hcloses⟩ := hrest stack mid' rest u hmore
          obtain ⟨t, ht⟩ := Tree.exists_of_entries bracket [] nofun
          refine ⟨t, gap ++ ([bracket.openingByte] ++ front), behind, ?_, ?_, hcloses⟩
          · simp only [List.append_assoc, List.cons_append, List.nil_append]
          · rw [ht]
            exact .cons hgap hfront
        · obtain ⟨t, value, more, rfl, hlaid, hcloses⟩ := hvalue (bracket :: stack) mid' rest u hmore
          obtain ⟨t', whole, behind, hwhole, hbehind', heq⟩ :=
            Closes.value hgap hkey hfront hblanks hlaid hcloses
          refine ⟨t', whole, behind, ?_, hwhole, hbehind'⟩
          rw [← List.append_assoc whole, ← heq]
          simp only [List.append_assoc, List.cons_append]
      split at hmatch
      · cases hmatch
      · exact hopen .array hc hmatch
      · exact hopen .object hc hmatch
      · obtain ⟨_, mid', hscalar, hmore⟩ := bind_eq_ok.1 hmatch
        obtain ⟨t, token, htokens, rfl⟩ := skipScalar_inv hc hscalar
        obtain ⟨behind, rfl, hcloses⟩ := hrest stack mid' rest u hmore
        refine ⟨t, gap ++ token, behind, by rw [List.append_assoc], ?_, hcloses⟩
        rw [htokens]
        exact laid_single hgap token
    · intro stack bs rest u h
      cases stack with
      | nil =>
        cases h
        exact ⟨[], rfl, .nil⟩
      | cons bracket stack =>
        obtain ⟨b, mid, hclosed, hmore⟩ := bind_eq_ok.1 h
        obtain ⟨rfl, front, rfl, hfront⟩ | ⟨rfl, key, front, hkey, rfl, hfront⟩ :=
          closedNext_inv hclosed
        · obtain ⟨behind, rfl, hcloses⟩ := hrest stack mid rest u hmore
          refine ⟨front ++ behind, (List.append_assoc _ _ _).symm, ?_⟩
          exact @Closes.cons bracket stack [] _ _ nofun hfront hcloses
        · obtain ⟨t, value, more, rfl, hlaid, hcloses⟩ := hvalue (bracket :: stack) mid rest u hmore
          refine ⟨front ++ (value ++ more), ?_, hcloses.entry hkey hfront hlaid⟩
          simp only [List.append_assoc]

/-- Every value that is passed over is spelled by a tree. -/
theorem finds_skip : Finds skip fun _ => .ok () := by
  intro bs u rest h
  obtain ⟨t, front, behind, rfl, hfront, hcloses⟩ := (skipValue_inv (0 :: bs)).1 [] bs rest u h
  cases hcloses
  exact ⟨t, front, rfl, hfront, rfl⟩

end MetricCatalog.Json
