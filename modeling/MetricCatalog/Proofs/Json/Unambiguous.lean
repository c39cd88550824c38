import MetricCatalog.Proofs.Json.Numeral

/-!
# One tree for each text — the grammar is unambiguous

No text spells two trees. The first byte of a value tells of what kind it is, a literal ends at its first quote
that is not escaped, and a number ends where no byte that follows could belong to it.
-/

namespace MetricCatalog.Json

open Scan Json.Tree

variable {α : Type} {front front' rest rest' : Bytes}

/-! ## 1. Tokens -/

/-- The token starts with no blank, so it can be told from the blanks before it. -/
def Solid (token : Bytes) : Prop := ∃ b bs, token = b :: bs ∧ isBlank b = false

/-- Behind the blanks, two layouts of one text go on with the same bytes. -/
theorem Laid.first_eq {token token' : Bytes} {tokens tokens' : List Bytes} (h : Laid (token :: tokens) front)
    (h' : Laid (token' :: tokens') front') (ht : Solid token) (ht' : Solid token')
    (heq : front ++ rest = front' ++ rest') :
    ∃ tail tail', Laid tokens tail ∧ Laid tokens' tail' ∧
      token ++ (tail ++ rest) = token' ++ (tail' ++ rest') := by
  obtain ⟨b, bs, rfl, hb⟩ := ht
  obtain ⟨b', bs', rfl, hb'⟩ := ht'
  obtain ⟨tail, hnext, htail⟩ := h.next hb rest
  obtain ⟨tail', hnext', htail'⟩ := h'.next hb' rest'
  rw [heq, hnext'] at hnext
  refine ⟨tail, tail', htail, htail', ?_⟩
  exact (congrArg Prod.snd (Except.ok.inj hnext)).symm

theorem Laid.single_eq {token token' : Bytes} (h : Laid [token] front) (h' : Laid [token'] front')
    (ht : Solid token) (ht' : Solid token') (heq : front ++ rest = front' ++ rest') :
    token ++ rest = token' ++ rest' := by
  obtain ⟨tail, tail', htail, htail', hbytes⟩ := h.first_eq h' ht ht' heq
  rw [htail.nil_inv, htail'.nil_inv] at hbytes
  exact hbytes

/-! ## 2. Literals and numerals -/

namespace Literal

/-- No piece starts with the quote that ends a literal. -/
theorem Piece.bytes_ne_quote (p : Piece) (bs bs' : Bytes) : p.bytes ++ bs ≠ 0x22 :: bs' := by
  intro h
  cases p with
  | plain b hb =>
    obtain rfl : b = 0x22 := (List.cons.inj h).1
    exact hb.2.1 rfl
  | letter b hb => cases h
  | code a b c d hd => cases h

/-- Two pieces in front of one text are the same. -/
theorem Piece.eq_of_bytes {p q : Piece} {bs bs' : Bytes} (h : p.bytes ++ bs = q.bytes ++ bs') :
    p = q ∧ bs = bs' := by
  -- A byte that stands for itself is no backslash, and no escape of one letter starts like a numeric one.
  have hu : ¬ (letter? (ascii 0x75)).isSome := by decide
  cases p with
  | plain b hb =>
    cases q with
    | plain c hc =>
      cases h
      exact ⟨rfl, rfl⟩
    | letter c hc =>
      cases h
      exact absurd rfl hb.2.2
    | code a' b' c' d' hd' =>
      cases h
      exact absurd rfl hb.2.2
  | letter b hb =>
    cases q with
    | plain c hc =>
      cases h
      exact absurd rfl hc.2.2
    | letter c hc =>
      cases h
      exact ⟨rfl, rfl⟩
    | code a' b' c' d' hd' =>
      cases h
      exact absurd hb hu
  | code a b c d hd =>
    cases q with
    | plain c' hc =>
      cases h
      exact absurd rfl hc.2.2
    | letter c' hc =>
      cases h
      exact absurd hc hu
    | code a' b' c' d' hd' =>
      cases h
      exact ⟨rfl, rfl⟩

theorem inside_inj {ps qs : List Piece} (h : inside ps ++ rest = inside qs ++ rest') :
    ps = qs ∧ rest = rest' := by
  have hcons (p : Piece) (ps : List Piece) (rest : Bytes) :
      inside (p :: ps) ++ rest = p.bytes ++ (inside ps ++ rest) := by
    simp only [inside, List.flatMap_cons, List.append_assoc]
  induction ps generalizing qs with
  | nil =>
    cases qs with
    | nil => exact ⟨rfl, (List.cons.inj h).2⟩
    | cons q qs =>
      rw [hcons] at h
      exact absurd h.symm (q.bytes_ne_quote _ _)
  | cons p ps ih =>
    cases qs with
    | nil =>
      rw [hcons] at h
      exact absurd h (p.bytes_ne_quote _ _)
    | cons q qs =>
      rw [hcons, hcons] at h
      obtain ⟨rfl, hmore⟩ := Piece.eq_of_bytes h
      obtain ⟨rfl, hrest⟩ := ih hmore
      exact ⟨rfl, hrest⟩

theorem bytes_inj {ps qs : List Piece} (h : bytes ps ++ rest = bytes qs ++ rest') :
    ps = qs ∧ rest = rest' :=
  inside_inj (List.cons.inj h).2

end Literal

/-- The reader makes one numeral of the text, which leaves nothing open but the mark of the exponent. -/
theorem Numeral.Token.bytes_inj {n m : Numeral.Token} (hrest : Delimited rest) (hrest' : Delimited rest')
    (h : n.bytes ++ rest = m.bytes ++ rest') : n = m ∧ rest = rest' := by
  have hread := Numeral.outcome_read (.unfinished .value) n hrest
  rw [h, Numeral.outcome_read _ m hrest'] at hread
  obtain ⟨hnumeral, rfl⟩ := Prod.mk.inj (Except.ok.inj hread)
  have hbytes := List.append_cancel_right h
  obtain ⟨numeral, hwf, mark, hmark⟩ := n
  obtain ⟨numeral', hwf', mark', hmark'⟩ := m
  obtain rfl : numeral' = numeral := hnumeral
  obtain rfl : mark = mark' := by
    have hprefix := List.append_cancel_right hbytes
    exact List.append_cancel_left hprefix
  exact ⟨rfl, rfl⟩

/-! ## 3. Lists -/

/-- Two layouts of one text that start with such tokens start with the same ones. -/
def Determines (tokens : α → List Bytes) (a : α) : Prop :=
  ∀ a' front front' rest rest', Laid (tokens a) front → Laid (tokens a') front' → Delimited rest →
    Delimited rest' → front ++ rest = front' ++ rest' → a = a' ∧ rest = rest'

section

variable {f : α → List Bytes} {closing : UInt8} {as as' : List α}

theorem solid_closing (hc : closing = 0x5D ∨ closing = 0x7D) : Solid [closing] :=
  ⟨closing, [], rfl, by rcases hc with rfl | rfl <;> rfl⟩

theorem solid_comma : Solid [0x2C] := ⟨0x2C, [], rfl, rfl⟩

theorem closing_ne_comma (hc : closing = 0x5D ∨ closing = 0x7D) : closing ≠ 0x2C := by
  rcases hc with rfl | rfl <;> decide

/-- Behind the closing bracket both texts go on in the same way. -/
theorem Laid.closing_eq (hc : closing = 0x5D ∨ closing = 0x7D) (h : Laid [[closing]] front)
    (h' : Laid [[closing]] front') (heq : front ++ rest = front' ++ rest') : rest = rest' :=
  List.append_cancel_left (h.single_eq h' (solid_closing hc) (solid_closing hc) heq)

/-- The first of some elements is the same in both texts, which then go on in the same way. -/
theorem Laid.element_eq (hc : closing = 0x5D ∨ closing = 0x7D) {a a' : α} (ha : Determines f a)
    {ps ps' : List (List Bytes)} (h : Laid (f a ++ continued closing ps) front)
    (h' : Laid (f a' ++ continued closing ps') front') (heq : front ++ rest = front' ++ rest') :
    a = a' ∧ ∃ tail tail', Laid (continued closing ps) tail ∧ Laid (continued closing ps') tail' ∧
      tail ++ rest = tail' ++ rest' := by
  obtain ⟨x, tail, rfl, hx, htail⟩ := h.append_inv
  obtain ⟨x', tail', rfl, hx', htail'⟩ := h'.append_inv
  rw [List.append_assoc, List.append_assoc] at heq
  obtain ⟨rfl, hmore⟩ := ha a' x x' _ _ hx hx' (htail.delimited_continued hc rest)
    (htail'.delimited_continued hc rest') heq
  exact ⟨rfl, tail, tail', htail, htail', hmore⟩

theorem Laid.continued_inj (hc : closing = 0x5D ∨ closing = 0x7D) (has : ∀ a ∈ as, Determines f a)
    (h : Laid (continued closing (as.map f)) front) (h' : Laid (continued closing (as'.map f)) front')
    (heq : front ++ rest = front' ++ rest') : as = as' ∧ rest = rest' := by
  have hcomma := closing_ne_comma hc
  -- A comma announces one more element, and the bracket that there is none.
  induction as generalizing as' front front' with
  | nil =>
    cases as' with
    | nil => exact ⟨rfl, Laid.closing_eq hc h h' heq⟩
    | cons a' as' =>
      rw [List.map_cons, continued_cons] at h'
      obtain ⟨_, _, -, -, hbytes⟩ := Laid.first_eq h h' (solid_closing hc) solid_comma heq
      exact absurd (List.cons.inj hbytes).1 hcomma
  | cons a as ih =>
    rw [List.map_cons, continued_cons] at h
    cases as' with
    | nil =>
      obtain ⟨_, _, -, -, hbytes⟩ := Laid.first_eq h h' solid_comma (solid_closing hc) heq
      exact absurd (List.cons.inj hbytes).1.symm hcomma
    | cons a' as' =>
      rw [List.map_cons, continued_cons] at h'
      rw [List.forall_mem_cons] at has
      obtain ⟨_, _, hfirst, hfirst', hbytes⟩ := h.first_eq h' solid_comma solid_comma heq
      obtain ⟨rfl, _, _, htail, htail', hmore⟩ :=
        hfirst.element_eq hc has.1 hfirst' (List.cons.inj hbytes).2
      obtain ⟨rfl, hrest⟩ := ih has.2 htail htail' hmore
      exact ⟨rfl, hrest⟩

theorem Laid.listed_inj (hc : closing = 0x5D ∨ closing = 0x7D) (has : ∀ a ∈ as, Determines f a)
    (hopens : ∀ a, ∃ b bs more, f a = (b :: bs) :: more ∧ Opens b)
    (h : Laid (listed closing (as.map f)) front) (h' : Laid (listed closing (as'.map f)) front')
    (heq : front ++ rest = front' ++ rest') : as = as' ∧ rest = rest' := by
  -- No element starts with the bracket that would end the list.
  have hfirst : ∀ {a : α} {tokens : List Bytes} {front front' rest rest' : Bytes},
      Laid [[closing]] front → Laid (f a ++ tokens) front' → front ++ rest ≠ front' ++ rest' := by
    intro a tokens front front' rest rest' h h' heq
    obtain ⟨b, bs, more, hb, hblank, -, hbracket, hbrace⟩ := hopens a
    rw [hb, List.cons_append] at h'
    obtain ⟨_, _, -, -, hbytes⟩ := h.first_eq h' (solid_closing hc) ⟨b, bs, rfl, hblank⟩ heq
    obtain rfl : closing = b := (List.cons.inj hbytes).1
    rcases hc with rfl | rfl
    · exact hbracket rfl
    · exact hbrace rfl
  cases as with
  | nil =>
    cases as' with
    | nil => exact ⟨rfl, Laid.closing_eq hc h h' heq⟩
    | cons a' as' => exact absurd heq (hfirst h h')
  | cons a as =>
    cases as' with
    | nil => exact absurd heq.symm (hfirst h' h)
    | cons a' as' =>
      rw [List.forall_mem_cons] at has
      obtain ⟨rfl, _, _, htail, htail', hmore⟩ := Laid.element_eq hc has.1 h h' heq
      obtain ⟨rfl, hrest⟩ := htail.continued_inj hc has.2 htail' hmore
      exact ⟨rfl, hrest⟩

end

/-! ## 4. Trees -/

namespace Tree

/-- What the first byte of a value tells of it. -/
inductive Kind where
  | null
  | boolean (b : Bool)
  | number
  | string
  | array
  | object
deriving DecidableEq

def kind : Tree → Kind
  | .null => .null
  | .boolean b => .boolean b
  | .number _ => .number
  | .string _ => .string
  | .array _ => .array
  | .object _ => .object

/-- The kind of value that starts with a byte. -/
def kindOf (b : UInt8) : Kind :=
  if b = 0x6E then .null
  else if b = 0x74 then .boolean true
  else if b = 0x66 then .boolean false
  else if b = 0x22 then .string
  else if b = 0x5B then .array
  else if b = 0x7B then .object
  else .number

theorem kindOf_first (t : Tree) : ∃ b bs more, t.tokens = (b :: bs) :: more ∧ isBlank b = false ∧
    kindOf b = t.kind := by
  cases t with
  | null => exact ⟨_, _, _, rfl, rfl, rfl⟩
  | boolean b => cases b <;> exact ⟨_, _, _, rfl, rfl, rfl⟩
  | number n =>
    obtain ⟨b, bs, hbytes, hb⟩ := n.bytes_eq_cons
    refine ⟨b, bs, [], by rw [tokens, hbytes], ?_⟩
    have hdigit : ∀ d < 10, isBlank (digitByte d) = false ∧ kindOf (digitByte d) = .number := by decide
    rcases hb with rfl | ⟨d, hd, rfl⟩
    · exact ⟨rfl, rfl⟩
    · exact hdigit d hd
  | string l => exact ⟨_, _, _, rfl, rfl, rfl⟩
  | array ts => exact ⟨_, _, _, by rw [tokens], rfl, rfl⟩
  | object ms => exact ⟨_, _, _, by rw [tokens], rfl, rfl⟩

theorem determines_member {m : List Literal.Piece × Tree} (h : Determines tokens m.2) :
    Determines memberTokens m := by
  rintro ⟨k', u⟩ front front' rest rest' hfront hfront' hrest hrest' heq
  obtain ⟨k, t⟩ := m
  obtain ⟨tail, tail', htail, htail', hkey⟩ :=
    Laid.first_eq hfront hfront' ⟨0x22, _, rfl, rfl⟩ ⟨0x22, _, rfl, rfl⟩ heq
  obtain ⟨rfl, hcolon⟩ := Literal.bytes_inj hkey
  obtain ⟨value, value', hvalue, hvalue', hbytes⟩ :=
    htail.first_eq htail' ⟨0x3A, _, rfl, rfl⟩ ⟨0x3A, _, rfl, rfl⟩ hcolon
  obtain ⟨rfl, hrest⟩ := h u value value' rest rest' hvalue hvalue' hrest hrest' (List.cons.inj hbytes).2
  exact ⟨rfl, hrest⟩

theorem opens_member (m : List Literal.Piece × Tree) :
    ∃ b bs more, memberTokens m = (b :: bs) :: more ∧ Opens b :=
  ⟨_, _, _, rfl, by unfold Opens; decide⟩

theorem kind_eq {t u : Tree} (h : Laid t.tokens front) (h' : Laid u.tokens front')
    (heq : front ++ rest = front' ++ rest') : t.kind = u.kind := by
  obtain ⟨b, bs, more, ht, hb, hkind⟩ := t.kindOf_first
  obtain ⟨b', bs', more', hu, hb', hkind'⟩ := u.kindOf_first
  rw [ht] at h
  rw [hu] at h'
  obtain ⟨_, _, -, -, hbytes⟩ := h.first_eq h' ⟨b, bs, rfl, hb⟩ ⟨b', bs', rfl, hb'⟩ heq
  obtain rfl : b = b' := (List.cons.inj hbytes).1
  exact hkind.symm.trans hkind'

theorem solid_number (n : Numeral.Token) : Solid n.bytes := by
  obtain ⟨b, bs, hbytes, hb, -⟩ := n.bytes_head
  exact ⟨b, bs, hbytes, hb⟩

/-- One tree is laid out in front of a text, if any is. -/
theorem determines (t : Tree) : Determines tokens t := by
  induction t with
  | null =>
    intro u front front' rest rest' h h' _ _ heq
    cases u with
    | null => exact ⟨rfl, List.append_cancel_left (h.single_eq h' ⟨_, _, rfl, rfl⟩ ⟨_, _, rfl, rfl⟩ heq)⟩
    | _ => cases kind_eq h h' heq
  | boolean b =>
    intro u front front' rest rest' h h' _ _ heq
    cases u with
    | boolean b' =>
      cases kind_eq h h' heq
      cases b <;>
        exact ⟨rfl, List.append_cancel_left (h.single_eq h' ⟨_, _, rfl, rfl⟩ ⟨_, _, rfl, rfl⟩ heq)⟩
    | _ => cases kind_eq h h' heq
  | number n =>
    intro u front front' rest rest' h h' hrest hrest' heq
    cases u with
    | number m =>
      obtain ⟨rfl, hmore⟩ := Numeral.Token.bytes_inj hrest hrest'
        (h.single_eq h' (solid_number n) (solid_number m) heq)
      exact ⟨rfl, hmore⟩
    | _ => cases kind_eq h h' heq
  | string l =>
    intro u front front' rest rest' h h' _ _ heq
    cases u with
    | string l' =>
      obtain ⟨rfl, hmore⟩ := Literal.bytes_inj (h.single_eq h' ⟨0x22, _, rfl, rfl⟩ ⟨0x22, _, rfl, rfl⟩ heq)
      exact ⟨rfl, hmore⟩
    | _ => cases kind_eq h h' heq
  | array ts ih =>
    intro u front front' rest rest' h h' _ _ heq
    cases u with
    | array us =>
      rw [tokens, tokensOfItems_eq_map] at h h'
      obtain ⟨_, _, htail, htail', hbytes⟩ := h.first_eq h' ⟨0x5B, _, rfl, rfl⟩ ⟨0x5B, _, rfl, rfl⟩ heq
      obtain ⟨rfl, hmore⟩ := htail.listed_inj (.inl rfl) ih tokens_eq_cons htail' (List.cons.inj hbytes).2
      exact ⟨rfl, hmore⟩
    | _ => cases kind_eq h h' heq
  | object ms ih =>
    intro u front front' rest rest' h h' _ _ heq
    cases u with
    | object ns =>
      rw [tokens, tokensOfMembers_eq_map] at h h'
      obtain ⟨_, _, htail, htail', hbytes⟩ := h.first_eq h' ⟨0x7B, _, rfl, rfl⟩ ⟨0x7B, _, rfl, rfl⟩ heq
      obtain ⟨rfl, hmore⟩ := htail.listed_inj (.inr rfl) (fun m hm => determines_member (ih m hm))
        opens_member htail' (List.cons.inj hbytes).2
      exact ⟨rfl, hmore⟩
    | _ => cases kind_eq h h' heq

/-- No text spells two trees. -/
theorem Spells.unique {t u : Tree} {text : Bytes} (ht : t.Spells text) (hu : u.Spells text) : t = u := by
  obtain ⟨front, trail, rfl, hfront, htrail⟩ := ht
  obtain ⟨front', trail', heq, hfront', htrail'⟩ := hu
  exact (t.determines u front front' trail trail' hfront hfront' (delimited_blank htrail)
    (delimited_blank htrail') heq).1

end Tree

end MetricCatalog.Json
