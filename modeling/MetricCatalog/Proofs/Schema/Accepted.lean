import MetricCatalog.Proofs.Json.AcceptedSkip
import MetricCatalog.Proofs.Schema.Texts

/-!
# Accepted values — whatever is read as a value of a shape is spelled by a tree

The converse of `Shape.reads`: where `Shape.read` succeeds, the bytes that it has read are the tokens of a
tree, from which `Shape.ofTree` takes the same value. So a text is decoded if and only if it spells a tree
from which the shape takes a value (`decodeBytes_iff`).
-/

namespace MetricCatalog

open Json Json.Scan Json.Tree Shape

variable {α β : Type}

/-! ## 1. The front of a value -/

theorem Json.Scan.head_array_inv {bs rest : Bytes} (h : outcome Scan.head bs = .ok (.array, rest)) :
    ∃ gap rest', Blank gap ∧ rest = 0x5B :: rest' ∧ bs = gap ++ rest := by
  obtain ⟨t, front, ht, rfl, -, hfound⟩ | ⟨-, harray⟩ | ⟨hfound, -⟩ := head_inv h
  · obtain ⟨ts, rfl⟩ := head_eq_array hfound
    exact ht.elim
  · exact harray
  · cases hfound

theorem Json.Scan.head_object_inv {bs rest : Bytes} (h : outcome Scan.head bs = .ok (.object, rest)) :
    ∃ gap rest', Blank gap ∧ rest = 0x7B :: rest' ∧ bs = gap ++ rest := by
  obtain ⟨t, front, ht, rfl, -, hfound⟩ | ⟨hfound, -⟩ | ⟨-, hobject⟩ := head_inv h
  · obtain ⟨ms, rfl⟩ := head_eq_object hfound
    exact ht.elim
  · cases hfound
  · exact hobject

theorem enclosed_inv {room : Nat} {body : Nat → Scan α} {b : UInt8} {bs rest : Bytes} {a : α}
    (h : outcome (enclosed room body) (b :: bs) = .ok (a, rest)) :
    ∃ less, room = less + 1 ∧ outcome (body less) bs = .ok (a, rest) := by
  rw [outcome_enclosed] at h
  cases room with
  | zero => cases h
  | succ less => exact ⟨less, rfl, h⟩

/-- An array has been opened and its inside been read. -/
theorem array_inv {room : Nat} {body : Nat → Scan α} {bs mid rest : Bytes} {a : α}
    (hhead : outcome Scan.head bs = .ok (.array, mid))
    (h : outcome (enclosed room body) mid = .ok (a, rest)) :
    ∃ gap inside less, Blank gap ∧ bs = gap ++ 0x5B :: inside ∧ room = less + 1 ∧
      outcome (body less) inside = .ok (a, rest) := by
  obtain ⟨gap, inside, hgap, rfl, rfl⟩ := head_array_inv hhead
  obtain ⟨less, rfl, hbody⟩ := enclosed_inv h
  exact ⟨gap, inside, less, hgap, rfl, rfl, hbody⟩

theorem object_inv {room : Nat} {body : Nat → Scan α} {bs mid rest : Bytes} {a : α}
    (hhead : outcome Scan.head bs = .ok (.object, mid))
    (h : outcome (enclosed room body) mid = .ok (a, rest)) :
    ∃ gap inside less, Blank gap ∧ bs = gap ++ 0x7B :: inside ∧ room = less + 1 ∧
      outcome (body less) inside = .ok (a, rest) := by
  obtain ⟨gap, inside, hgap, rfl, rfl⟩ := head_object_inv hhead
  obtain ⟨less, rfl, hbody⟩ := enclosed_inv h
  exact ⟨gap, inside, less, hgap, rfl, rfl, hbody⟩

theorem laid_array {ts : List Tree} {gap front : Bytes} (hgap : Blank gap)
    (h : Laid (listed 0x5D (ts.map tokens)) front) (rest : Bytes) :
    ∃ whole, gap ++ 0x5B :: (front ++ rest) = whole ++ rest ∧ Laid (Tree.array ts).tokens whole := by
  refine ⟨gap ++ ([0x5B] ++ front), ?_, ?_⟩
  · simp only [List.append_assoc, List.cons_append, List.nil_append]
  · rw [Tree.tokens, tokensOfItems_eq_map]
    exact .cons hgap h

theorem laid_object {ms : List (List Literal.Piece × Tree)} {gap front : Bytes} (hgap : Blank gap)
    (h : Laid (listed 0x7D (ms.map memberTokens)) front) (rest : Bytes) :
    ∃ whole, gap ++ 0x7B :: (front ++ rest) = whole ++ rest ∧ Laid (Tree.object ms).tokens whole := by
  refine ⟨gap ++ ([0x7B] ++ front), ?_, ?_⟩
  · simp only [List.append_assoc, List.cons_append, List.nil_append]
  · rw [Tree.tokens, tokensOfMembers_eq_map]
    exact .cons hgap h

/-- Where only a scalar will do, the value is the scalar at the front. -/
theorem finds_head_bind {k : Head → Scan α} {k' : Head → Except Fault α}
    (hk : ∀ found bs, outcome (k found) bs = (k' found).map (·, bs))
    (harray : ∃ e, k' .array = .error e) (hobject : ∃ e, k' .object = .error e) :
    Finds (Scan.head >>= k) fun t => t.head >>= k' := by
  intro bs a rest h
  obtain ⟨found, mid, hhead, hmore⟩ := bind_eq_ok.1 h
  rw [hk] at hmore
  obtain ⟨b, hb, hpair⟩ := ok_of_map hmore
  cases hpair
  obtain ⟨t, front, -, rfl, hfront, hfound⟩ | ⟨rfl, -⟩ | ⟨rfl, -⟩ := head_inv hhead
  · refine ⟨t, front, rfl, hfront, ?_⟩
    change t.head >>= k' = _
    rw [hfound]
    exact hb
  · obtain ⟨e, he⟩ := harray
    rw [he] at hb
    cases hb
  · obtain ⟨e, he⟩ := hobject
    rw [he] at hb
    cases hb

theorem finds_readText : Finds readText fun t => t.head >>= headText := by
  refine finds_head_bind (fun found bs => ?_) ⟨_, rfl⟩ ⟨_, rfl⟩
  cases found <;> rfl

theorem finds_readTruth : Finds readTruth fun t => t.head >>= headTruth := by
  refine finds_head_bind (fun found bs => ?_) ⟨_, rfl⟩ ⟨_, rfl⟩
  cases found <;> rfl

theorem finds_readNull : Finds readNull fun t => t.head >>= headNull := by
  refine finds_head_bind (fun found bs => ?_) ⟨_, rfl⟩ ⟨_, rfl⟩
  cases found <;> rfl

theorem finds_readInteger (width : Width) :
    Finds (readInteger width) fun t => t.head >>= headInteger width := by
  refine finds_head_bind (fun found bs => ?_) ⟨_, rfl⟩ ⟨_, rfl⟩
  rcases found with _ | _ | (i | _) | _ | _ | _
  case number.int =>
    simp only [headInteger]
    cases IntBetween.ofInt? width.lo width.hi i.val <;> rfl
  all_goals rfl

/-! ## 2. Lists, null and words -/

/-- A list is spelled, if its items are. -/
theorem finds_readList {item : Nat → Scan α} {f : Nat → Tree → Except Fault α} (room : Nat)
    (hitem : ∀ room, Finds (item room) (f room)) :
    Finds (readList room item) (listOfTree room f) := by
  intro bs as rest h
  obtain ⟨found, mid, hhead, hmore⟩ := bind_eq_ok.1 h
  cases found with
  | array =>
    obtain ⟨gap, inside, less, hgap, rfl, rfl, hitems⟩ := array_inv hhead hmore
    obtain ⟨ts, front, rfl, hfront, hvalues⟩ := items_inv (hitem less) hitems
    obtain ⟨whole, hwhole, hlaid⟩ := laid_array hgap hfront rest
    exact ⟨.array ts, whole, hwhole, hlaid, hvalues⟩
  | _ => cases hmore

theorem head?_dropWhile_isBlank (bs : Bytes) : ∀ b ∈ (bs.dropWhile isBlank).head?, isBlank b = false := by
  induction bs with
  | nil => exact nofun
  | cons b bs ih =>
    by_cases hb : isBlank b = true
    · rw [List.dropWhile_cons_of_pos hb]
      exact ih
    · rw [List.dropWhile_cons_of_neg hb]
      intro c hc
      cases hc
      exact Bool.eq_false_iff.2 hb

/-- What comes next is no blank. -/
theorem isBlank_of_next {bs rest : Bytes} {c : Option Char} (h : outcome next? bs = .ok (c, rest)) :
    ∀ b ∈ rest.head?, isBlank b = false := by
  have hnext : outcome next? bs =
      .ok ((bs.dropWhile isBlank).head?.map ascii, bs.dropWhile isBlank) := rfl
  rw [hnext] at h
  cases h
  exact head?_dropWhile_isBlank bs

/-- Only null starts like null. -/
theorem ne_null_of_head {t : Tree} {front rest : Bytes} (h : Laid t.tokens front)
    (hblank : ∀ b ∈ (front ++ rest).head?, isBlank b = false)
    (hn : (front ++ rest).head?.map ascii ≠ some 'n') : t ≠ .null := by
  rintro rfl
  obtain ⟨gap, front', rfl, hgap, -⟩ := h.cons_inv
  cases gap with
  | nil => exact hn rfl
  | cons b gap =>
    have hb : isBlank b = false := hblank b rfl
    rw [hgap b List.mem_cons_self] at hb
    cases hb

theorem finds_orNull {scan : Scan α} {value : Tree → Except Fault α} (hvalue : Finds scan value) :
    Finds (orNull scan) (orNullOfTree value) := by
  intro bs a rest h
  obtain ⟨c, mid, hnext, hif⟩ := bind_eq_ok.1 h
  obtain ⟨gap, hgap, rfl, hc⟩ := next_inv hnext
  by_cases hn : c = some 'n'
  · rw [if_pos hn] at hif
    obtain ⟨mid, rfl⟩ := cons_of_head (b := 0x6E) (hn ▸ hc)
    rw [outcome_seq (outcome_advance 0x6E mid)] at hif
    obtain ⟨u, mid', hletters, hlast⟩ := bind_eq_ok.1 hif
    cases hlast
    have hmid : mid = [0x75, 0x6C, 0x6C] ++ rest := identifier_inv rfl hletters
    refine ⟨.null, gap ++ [0x6E, 0x75, 0x6C, 0x6C], ?_, laid_single hgap _, rfl⟩
    rw [hmid, List.append_assoc]
    rfl
  · rw [if_neg hn] at hif
    obtain ⟨v, mid', hscan, hlast⟩ := bind_eq_ok.1 hif
    cases hlast
    obtain ⟨t, front, rfl, hfront, hv⟩ := hvalue _ _ _ hscan
    have hnull : t ≠ .null := ne_null_of_head hfront (isBlank_of_next hnext) (hc ▸ hn)
    refine ⟨t, gap ++ front, (List.append_assoc _ _ _).symm,
      hfront.blank_append hgap t.tokens_nonempty, ?_⟩
    have horNull : orNullOfTree value t = value t >>= fun v => .ok (some v) := by
      cases t with
      | null => exact absurd rfl hnull
      | _ => rfl
    rw [horNull, hv]
    rfl

theorem readSpelling_inv (α : Type) [Vocabulary α] {bs rest : Bytes} {a : α}
    (h : outcome (readSpelling α) bs = .ok (a, rest)) :
    ∃ l, bs = Literal.inside l ++ rest ∧ (Literal.text l >>= spellingOf α) = .ok a := by
  obtain ⟨word, mid, hread, -⟩ := bind_eq_ok.1 h
  obtain ⟨l, rfl, -⟩ := Literal.read_inv hread
  rw [outcome_readSpelling] at h
  obtain ⟨a', hword, hpair⟩ := ok_of_map h
  cases hpair
  exact ⟨l, rfl, hword⟩

theorem finds_readWord (α : Type) [Vocabulary α] (room : Nat) :
    Finds (readWord α room) (wordOfTree α room) := by
  intro bs a rest h
  obtain ⟨c, mid, hnext, hmatch⟩ := bind_eq_ok.1 h
  obtain ⟨gap, hgap, rfl, hc⟩ := next_inv hnext
  split at hmatch
  · cases hmatch
  · obtain ⟨mid, rfl⟩ := cons_of_head (b := 0x22) hc
    rw [outcome_seq (outcome_advance 0x22 mid)] at hmatch
    obtain ⟨l, rfl, hword⟩ := readSpelling_inv α hmatch
    refine ⟨.string l, gap ++ Literal.bytes l, ?_, laid_single hgap _, hword⟩
    rw [List.append_assoc]
    rfl
  · obtain ⟨mid, rfl⟩ := cons_of_head (b := 0x7B) hc
    obtain ⟨less, rfl, hbody⟩ := enclosed_inv hmatch
    obtain ⟨c', mid₁, hnext₁, hmatch₁⟩ := bind_eq_ok.1 hbody
    obtain ⟨gap₁, hgap₁, rfl, hc₁⟩ := next_inv hnext₁
    split at hmatch₁
    · cases hmatch₁
    · obtain ⟨mid₁, rfl⟩ := cons_of_head (b := 0x22) hc₁
      rw [outcome_seq (outcome_advance 0x22 mid₁)] at hmatch₁
      -- The word, the colon, the null and the closing brace, each behind the one before.
      obtain ⟨b, mid₂, hword, h₂⟩ := bind_eq_ok.1 hmatch₁
      obtain ⟨l, rfl, hl⟩ := readSpelling_inv α hword
      obtain ⟨_, mid₃, hcolon, h₃⟩ := bind_eq_ok.1 h₂
      obtain ⟨front₁, rfl, hfront₁⟩ := colon_inv hcolon
      obtain ⟨_, mid₄, hnull, h₄⟩ := bind_eq_ok.1 h₃
      obtain ⟨t, front₂, rfl, hfront₂, ht⟩ := finds_readNull _ _ _ hnull
      obtain ⟨c₄, mid₅, hnext₄, h₅⟩ := bind_eq_ok.1 h₄
      obtain ⟨gap₂, hgap₂, rfl, hc₄⟩ := next_inv hnext₄
      split at h₅
      · cases h₅
      · obtain ⟨mid₅, rfl⟩ := cons_of_head (b := 0x7D) hc₄
        cases h₅
        have hmember : Laid (listed 0x7D ([(l, t)].map memberTokens))
            (gap₁ ++ (Literal.bytes l ++ ((front₁ ++ front₂) ++ (gap₂ ++ [0x7D])))) :=
          .cons hgap₁ ((hfront₁.append hfront₂).append (laid_single hgap₂ [0x7D]))
        obtain ⟨whole, hwhole, hlaid⟩ := laid_object hgap hmember mid₅
        refine ⟨.object [(l, t)], whole, ?_, hlaid, ?_⟩
        · rw [List.tail_cons, ← hwhole]
          simp only [Literal.bytes, List.append_assoc, List.cons_append, List.nil_append]
        · obtain ⟨word, hw, hspelling⟩ := ok_of_bind hl
          obtain ⟨found, hfound, hheadNull⟩ := ok_of_bind ht
          simp only [wordOfTree, within, hw, hfound, bind, Except.bind]
          rw [hspelling]
          simp only [hheadNull]
          rfl
      · cases h₅
    · cases hmatch₁
    · cases hmatch₁
  · cases hmatch

/-! ## 3. Members -/

/-- Whatever the scan reads from the colon behind a key on is spelled by a tree, from which `f` gives the
same. -/
def FindsUnder (scan : Scan α) (f : Tree → Except Fault α) : Prop :=
  ∀ bs a rest, outcome scan bs = .ok (a, rest) → ∃ t front, bs = front ++ rest ∧
    Laid ([0x3A] :: t.tokens) front ∧ f t = .ok a

theorem findsUnder_colon {scan : Scan α} {f : Tree → Except Fault α} (hscan : Finds scan f) :
    FindsUnder (colon >>= fun _ => scan) f := by
  intro bs a rest h
  obtain ⟨u, mid, hcolon, hmore⟩ := bind_eq_ok.1 h
  obtain ⟨front, rfl, hfront⟩ := colon_inv hcolon
  obtain ⟨t, front', rfl, hfront', hvalue⟩ := hscan _ _ _ hmore
  exact ⟨t, front ++ front', (List.append_assoc _ _ _).symm, hfront.append hfront', hvalue⟩

theorem FindsUnder.map {scan : Scan α} {f : Tree → Except Fault α} (h : FindsUnder scan f) (g : α → β) :
    FindsUnder (do return g (← scan)) fun t => do return g (← f t) := by
  intro bs b rest hb
  obtain ⟨a, mid, ha, hlast⟩ := bind_eq_ok.1 hb
  cases hlast
  obtain ⟨t, front, rfl, hfront, hvalue⟩ := h _ _ _ ha
  refine ⟨t, front, rfl, hfront, ?_⟩
  simp only [hvalue]
  rfl

theorem findsUnder_passOver : FindsUnder passOver fun _ => .ok () := findsUnder_colon finds_skip

theorem findsUnder_readUnder {value : Scan α} {value' : Tree → Except Fault α}
    (hvalue : Finds value value') (key : String) (found : Option α) :
    FindsUnder (readUnder key found value) fun t => takeUnder key found (value' t) := by
  cases found with
  | some v =>
    intro bs a rest h
    rw [show outcome (readUnder key (some v) value) bs = _ from outcome_failClosing _ _] at h
    cases h
  | none =>
    intro bs a rest h
    obtain ⟨u, mid, hcolon, hmore⟩ := bind_eq_ok.1 h
    obtain ⟨v, mid', hv, hlast⟩ := bind_eq_ok.1 hmore
    cases hlast
    obtain ⟨t, front, rfl, hfront, ht⟩ :=
      findsUnder_colon hvalue bs v _ (bind_eq_ok.2 ⟨u, mid, hcolon, hv⟩)
    refine ⟨t, front, rfl, hfront, ?_⟩
    simp only [takeUnder, ht]
    rfl

/-- A member is a key and what is read behind it. -/
theorem findsMember_literal {f : String → Scan β} {g : String → Tree → Except Fault β}
    (hf : ∀ k, FindsUnder (f k) (g k)) :
    FindsMember (Literal.read >>= f) fun m => Literal.text m.1 >>= fun k => g k m.2 := by
  intro bs b rest h
  obtain ⟨key, mid, hkey, hmore⟩ := bind_eq_ok.1 h
  obtain ⟨k, rfl, htext⟩ := Literal.read_inv hkey
  obtain ⟨t, front, rfl, hfront, hvalue⟩ := hf key _ _ _ hmore
  refine ⟨(k, t), front, rfl, hfront, ?_⟩
  simp only [htext]
  exact hvalue

/-- Where only one key counts, the values under all other keys are passed over. -/
theorem findsMember_wrapped {value : Scan α} {value' : Tree → Except Fault α}
    (hvalue : Finds value value') (key : String) (found : Option α) :
    FindsMember (readMember key value found) (takeMember key value' found) := by
  refine findsMember_literal (g := fun k t =>
    if k = key then takeUnder key found (value' t) else .ok found) fun k => ?_
  by_cases hk : k = key
  · simp only [if_pos hk]
    exact findsUnder_readUnder hvalue key found
  · simp only [if_neg hk]
    exact findsUnder_passOver.map fun _ => found

/-! ## 4. Items of an array in a record's place -/

theorem noMoreItems_inv {bs rest : Bytes} {u : Unit} (h : outcome noMoreItems bs = .ok (u, rest)) :
    ∃ front, bs = front ++ rest ∧ Laid [[0x5D]] front := by
  obtain ⟨c, mid, hnext, hmatch⟩ := bind_eq_ok.1 h
  obtain ⟨gap, hgap, rfl, hc⟩ := next_inv hnext
  split at hmatch
  · cases hmatch
  · obtain ⟨mid, rfl⟩ := cons_of_head (b := 0x5D) hc
    cases hmatch
    refine ⟨gap ++ [0x5D], ?_, laid_single hgap _⟩
    rw [List.append_assoc]
    rfl
  · obtain ⟨mid, rfl⟩ := cons_of_head (b := 0x2C) hc
    rw [outcome_seq (outcome_advance 0x2C mid)] at hmatch
    obtain ⟨c', mid', -, hlast⟩ := bind_eq_ok.1 hmatch
    split at hlast <;> cases hlast
  · cases hmatch

theorem laid_tokensFrom_nil {index : Nat} {front : Bytes} (h : Laid [[0x5D]] front) :
    Laid (tokensFrom index []) front := by
  rw [tokensFrom]
  split <;> exact h

/-- Either the array has ended before an item, or the item comes next. -/
theorem start_inv {index : Nat} {more : Bool → Scan α} {bs rest : Bytes} {a : α}
    (h : outcome (if index = 0 then firstItem >>= more else nextItem >>= more) bs = .ok (a, rest)) :
    (∃ front mid, bs = front ++ mid ∧ Laid [[0x5D]] front ∧ outcome (more false) mid = .ok (a, rest)) ∨
      ∃ front mid, bs = front ++ mid ∧ outcome (more true) mid = .ok (a, rest) ∧
        ∀ (t : Tree) (ts : List Tree) (behind : Bytes),
          Laid (t.tokens ++ continued 0x5D (ts.map tokens)) behind →
          Laid (tokensFrom index (t :: ts)) (front ++ behind) := by
  by_cases hindex : index = 0
  · rw [if_pos hindex] at h
    obtain ⟨b, mid, hfirst, hmore⟩ := bind_eq_ok.1 h
    obtain ⟨rfl, front, rfl, hfront⟩ | ⟨rfl, gap, rfl, hgap⟩ := firstItem_inv hfirst
    · exact .inl ⟨front, mid, rfl, hfront, hmore⟩
    · refine .inr ⟨gap, mid, rfl, hmore, fun t ts behind hbehind => ?_⟩
      rw [tokensFrom, if_pos hindex]
      exact hbehind.blank_append hgap (append_continued_ne_nil _ _ _)
  · rw [if_neg hindex] at h
    obtain ⟨b, mid, hnext, hmore⟩ := bind_eq_ok.1 h
    obtain ⟨rfl, front, rfl, hfront⟩ | ⟨rfl, front, gap, rfl, hfront, hgap⟩ := nextItem_inv hnext
    · exact .inl ⟨front, mid, rfl, hfront, hmore⟩
    · refine .inr ⟨front ++ gap, mid, (List.append_assoc _ _ _).symm, hmore,
        fun t ts behind hbehind => ?_⟩
      have hbehind' := hbehind.blank_append hgap (append_continued_ne_nil _ _ _)
      rw [tokensFrom, if_neg hindex, List.map_cons, continued_cons, List.append_assoc]
      exact hfront.append hbehind'

/-! ## 5. Records -/

/-- A record is spelled by an object or an array, if its fields are found in either. -/
theorem finds_record {name : String} {fields : Fields}
    (hplace : ∀ room k found, FindsUnder (fields.place room k found) fun t => fields.putTree room k t found)
    (hitems : ∀ room bs vs rest, outcome (fields.readItems name fields.size room 0) bs = .ok (vs, rest) →
      ∃ ts front, bs = front ++ rest ∧ Laid (tokensFrom 0 ts) front ∧
        fields.ofTrees name fields.size room ts 0 = .ok vs) (room : Nat) :
    Finds ((Shape.record name fields).read room) ((Shape.record name fields).ofTree room) := by
  intro bs values rest h
  rw [Shape.read] at h
  obtain ⟨found, mid, hhead, hmore⟩ := bind_eq_ok.1 h
  cases found with
  | object =>
    obtain ⟨gap, inside, less, hgap, rfl, rfl, hbody⟩ := object_inv hhead hmore
    obtain ⟨filling, mid', hmembers, hfinish⟩ := bind_eq_ok.1 hbody
    obtain ⟨ms, front, rfl, hfront, hfold⟩ :=
      members_inv (fun found => findsMember_literal fun k => hplace less k found) hmembers
    cases hvalues : fields.finish filling with
    | error key =>
      rw [hvalues] at hfinish
      cases hfinish
    | ok vs =>
      rw [hvalues] at hfinish
      cases hfinish
      obtain ⟨whole, hwhole, hlaid⟩ := laid_object hgap hfront rest
      refine ⟨.object ms, whole, hwhole, hlaid, ?_⟩
      simp only [Shape.ofTree, within]
      rw [hfold]
      simp only [bind, Except.bind, hvalues]
  | array =>
    obtain ⟨gap, inside, less, hgap, rfl, rfl, hbody⟩ := array_inv hhead hmore
    obtain ⟨ts, front, rfl, hfront, hvalues⟩ := hitems less _ _ _ hbody
    obtain ⟨whole, hwhole, hlaid⟩ := laid_array hgap hfront rest
    exact ⟨.array ts, whole, hwhole, hlaid, hvalues⟩
  | _ => cases hmore

/-- An object with a list under its only key is spelled, if the items of the list are. -/
theorem finds_wrapped {key : String} {item : Shape}
    (hitem : ∀ room, Finds (item.read room) (item.ofTree room)) (room : Nat) :
    Finds ((Shape.wrapped key item).read room) ((Shape.wrapped key item).ofTree room) := by
  intro bs values rest h
  rw [Shape.read] at h
  obtain ⟨found, mid, hhead, hmore⟩ := bind_eq_ok.1 h
  cases found with
  | object =>
    obtain ⟨gap, inside, less, hgap, rfl, rfl, hbody⟩ := object_inv hhead hmore
    obtain ⟨found, mid', hmembers, hlast⟩ := bind_eq_ok.1 hbody
    cases hlast
    have hlist := finds_orNull (finds_readList less hitem)
    obtain ⟨ms, front, rfl, hfront, hfold⟩ :=
      members_inv (fun found => findsMember_wrapped hlist key found) hmembers
    obtain ⟨whole, hwhole, hlaid⟩ := laid_object hgap hfront rest
    refine ⟨.object ms, whole, hwhole, hlaid, ?_⟩
    exact congrArg (· >>= fun found => Except.ok (found.getD none)) hfold
  | array =>
    obtain ⟨gap, inside, less, hgap, rfl, rfl, hbody⟩ := array_inv hhead hmore
    obtain ⟨vs, mid', hitems, hlast⟩ := bind_eq_ok.1 hbody
    cases hlast
    obtain ⟨ts, front, rfl, hfront, hvalues⟩ := items_inv (hitem less) hitems
    obtain ⟨whole, hwhole, hlaid⟩ := laid_array hgap hfront rest
    refine ⟨.array ts, whole, hwhole, hlaid, ?_⟩
    exact congrArg (· >>= fun vs => Except.ok (some vs)) hvalues
  | _ => cases hmore

/-! ## 6. All shapes -/

mutual

/-- Whatever is read as a value of a shape is spelled by a tree from which the shape takes it. -/
theorem Shape.finds : (s : Shape) → (room : Nat) → Finds (s.read room) (s.ofTree room)
  | .text, _ => finds_readText
  | .truth, _ => finds_readTruth
  | .integer width, _ => finds_readInteger width
  | @Shape.word α _, room => finds_readWord α room
  | .json, room => by
    intro bs j rest h
    rw [Shape.read] at h
    obtain ⟨doc, mid, hdoc, hlast⟩ := bind_eq_ok.1 h
    cases hlast
    obtain ⟨t, front, rfl, hfront, ht⟩ := finds_read room _ _ _ hdoc
    refine ⟨t, front, rfl, hfront, ?_⟩
    rw [Shape.ofTree, ht]
    rfl
  | .list item, room => finds_readList room item.finds
  | .record name fields, room =>
    finds_record fields.finds_place (fun room => fields.finds_readItems name fields.size room 0) room
  | .wrapped _ item, room => finds_wrapped item.finds room

theorem Field.finds : (f : Field) → (room : Nat) → Finds (f.read room) (f.ofTree room)
  | .required shape, room => shape.finds room
  | .nullable shape, room => finds_orNull (shape.finds room)
  | .optional shape, room => finds_orNull (shape.finds room)
  | .sparse shape, room => finds_orNull (shape.finds room)
  | .flag, room => by
    intro bs b rest h
    rw [Field.read] at h
    obtain ⟨found, mid, hfound, hlast⟩ := bind_eq_ok.1 h
    cases hlast
    obtain ⟨t, front, rfl, hfront, ht⟩ := finds_orNull finds_readTruth _ _ _ hfound
    refine ⟨t, front, rfl, hfront, ?_⟩
    rw [Field.ofTree]
    exact congrArg (· >>= fun found => Except.ok (found.getD false)) ht
  | .listing item, room => finds_readList room item.finds

theorem Fields.finds_place : (fs : Fields) → (room : Nat) → (k : String) → (found : fs.Filling) →
    FindsUnder (fs.place room k found) fun t => fs.putTree room k t found
  | .nil, _, _, _ => findsUnder_passOver
  | .cons key field rest, room, k, (found, more) => by
    intro bs filling behind h
    by_cases hk : k = key
    · have hplace : (Fields.cons key field rest).place room k (found, more) =
          readUnder key found (field.read room) >>= fun found => pure (found, more) := if_pos hk
      rw [hplace] at h
      obtain ⟨t, front, rfl, hfront, ht⟩ :=
        (findsUnder_readUnder (field.finds room) key found).map (·, more) bs filling behind h
      exact ⟨t, front, rfl, hfront, (if_pos hk).trans ht⟩
    · have hplace : (Fields.cons key field rest).place room k (found, more) =
          rest.place room k more >>= fun more => pure (found, more) := if_neg hk
      rw [hplace] at h
      obtain ⟨t, front, rfl, hfront, ht⟩ :=
        (rest.finds_place room k more).map (found, ·) bs filling behind h
      exact ⟨t, front, rfl, hfront, (if_neg hk).trans ht⟩

theorem Fields.finds_readItems (name : String) (size room : Nat) : (fs : Fields) → (index : Nat) →
    (bs : Bytes) → (vs : fs.Values) → (rest : Bytes) →
    outcome (fs.readItems name size room index) bs = .ok (vs, rest) →
    ∃ ts front, bs = front ++ rest ∧ Laid (tokensFrom index ts) front ∧
      fs.ofTrees name size room ts index = .ok vs
  | .nil, index, bs, _, rest, h => by
    obtain ⟨front, rfl, hfront⟩ := noMoreItems_inv h
    exact ⟨[], front, rfl, laid_tokensFrom_nil hfront, rfl⟩
  | .cons key field fs, index, bs, vs, rest, h => by
    obtain ⟨front, mid, rfl, hfront, hmore⟩ | ⟨front, mid, rfl, hmore, hstart⟩ := start_inv h
    · -- An array may end before the fields from here on only if they can be cut off.
      change outcome (match Fields.cutOff (.cons key field fs) index with
        | .ok values => (pure values : Scan _)
        | .error missing => fail (.mismatch (.tooFewItems missing name size))) mid = _ at hmore
      cases hcut : Fields.cutOff (.cons key field fs) index with
      | error missing =>
        rw [hcut] at hmore
        cases hmore
      | ok values =>
        rw [hcut] at hmore
        cases hmore
        refine ⟨[], front, rfl, laid_tokensFrom_nil hfront, ?_⟩
        rw [Fields.ofTrees, hcut]
    · obtain ⟨v, mid', hv, hlast⟩ := bind_eq_ok.1 hmore
      obtain ⟨t, front₁, rfl, hfront₁, ht⟩ := field.finds room _ _ _ hv
      obtain ⟨more, mid, hitems, hpair⟩ := bind_eq_ok.1 hlast
      cases hpair
      obtain ⟨ts, front₂, rfl, hfront₂, hts⟩ := fs.finds_readItems name size room (index + 1) _ _ _ hitems
      -- Behind an item no index is zero any more.
      rw [tokensFrom, if_neg (Nat.succ_ne_zero index)] at hfront₂
      refine ⟨t :: ts, front ++ (front₁ ++ front₂), ?_, hstart t ts _ (hfront₁.append hfront₂), ?_⟩
      · simp only [List.append_assoc]
      · rw [Fields.ofTrees, ht]
        show (fs.ofTrees name size room ts (index + 1) >>= _) = _
        rw [hts]
        rfl

end

/-! ## 7. Texts -/

variable [Wire α]

/-- Bytes are decoded if and only if they spell a tree from which the shape takes a value. -/
theorem decodeBytes_iff {bytes : Bytes} {a : α} :
    decodeBytes α bytes = .ok a ↔
      ∃ t : Tree, t.Spells bytes ∧ (Wire.shape α).ofTree depthLimit t = .ok (Wire.pack a) := by
  constructor
  · intro h
    obtain ⟨rest, hwhole⟩ := run_eq_ok.1 (decodeBytes_eq_ok.1 h)
    obtain ⟨trail, hread, htrail⟩ := whole_inv hwhole
    obtain ⟨t, front, rfl, hfront, ht⟩ := (Wire.shape α).finds depthLimit _ _ _ hread
    exact ⟨t, ⟨front, trail, rfl, hfront, htrail⟩, ht⟩
  · rintro ⟨t, hspells, ht⟩
    exact (decodeBytes_spells hspells).2 ht

end MetricCatalog
