import MetricCatalog.Proofs.Schema.OfTree

/-!
# Reading a shape — the text route on every spelling of a tree

`Shape.reads` is the one statement about `Shape.read` on which everything else rests: on a text that spells
a tree, with what can stand behind a value behind it, the reader gives what `Shape.ofTree` gives and leaves
exactly what is behind the tree.
-/

namespace MetricCatalog

open Json Json.Scan Json.Tree Shape

variable {α β : Type}

/-! ## 1. The front of a value decides -/

theorem Json.Tree.isScalar_or (t : Tree) :
    t.IsScalar ∨ (∃ ts, t = .array ts) ∨ ∃ ms, t = .object ms := by
  cases t with
  | array ts => exact .inr (.inl ⟨ts, rfl⟩)
  | object ms => exact .inr (.inr ⟨ms, rfl⟩)
  | null => exact .inl trivial
  | boolean b => exact .inl trivial
  | number n => exact .inl trivial
  | string l => exact .inl trivial

/-- Where only a scalar will do, the front of the value decides. -/
theorem reads_head_bind {k : Head → Scan α} {k' : Head → Except Fault α}
    (hk : ∀ found bs, outcome (k found) bs = (k' found).map (·, bs))
    (harray : ∃ e, k' .array = .error e) (hobject : ∃ e, k' .object = .error e) (t : Tree) :
    Reads (Scan.head >>= k) t.tokens (t.head >>= k') := by
  intro front rest h hrest
  -- A bracket is seen but not read, so behind it the two can only agree by failing.
  rcases t.isScalar_or with ht | ⟨ts, rfl⟩ | ⟨ms, rfl⟩
  · rw [outcome_bind, reads_head ht front rest h hrest]
    cases t.head with
    | error e => rfl
    | ok found => exact hk found rest
  · rw [Tree.tokens] at h
    rcases h.outcome_head_array rest with ⟨front', hhead, -⟩
    rcases harray with ⟨e, he⟩
    rw [outcome_bind, hhead]
    show outcome (k .array) _ = (k' .array).map _
    rw [hk, he]
    rfl
  · rw [Tree.tokens] at h
    rcases h.outcome_head_object rest with ⟨front', hhead, -⟩
    rcases hobject with ⟨e, he⟩
    rw [outcome_bind, hhead]
    show outcome (k .object) _ = (k' .object).map _
    rw [hk, he]
    rfl

theorem reads_readText (t : Tree) : Reads readText t.tokens (t.head >>= headText) := by
  refine reads_head_bind (fun found bs => ?_) ⟨_, rfl⟩ ⟨_, rfl⟩ t
  cases found <;> rfl

theorem reads_readTruth (t : Tree) : Reads readTruth t.tokens (t.head >>= headTruth) := by
  refine reads_head_bind (fun found bs => ?_) ⟨_, rfl⟩ ⟨_, rfl⟩ t
  cases found <;> rfl

theorem reads_readNull (t : Tree) : Reads readNull t.tokens (t.head >>= headNull) := by
  refine reads_head_bind (fun found bs => ?_) ⟨_, rfl⟩ ⟨_, rfl⟩ t
  cases found <;> rfl

theorem reads_readInteger (width : Width) (t : Tree) :
    Reads (readInteger width) t.tokens (t.head >>= headInteger width) := by
  refine reads_head_bind (fun found bs => ?_) ⟨_, rfl⟩ ⟨_, rfl⟩ t
  rcases found with _ | _ | (i | _) | _ | _ | _
  case number.int =>
    simp only [headInteger]
    cases IntBetween.ofInt? width.lo width.hi i.val <;> rfl
  all_goals rfl

/-- A value of the wrong type is refused at its front. -/
theorem reads_wrongTree {k : Head → Scan α} (wanted : Wanted) (t : Tree)
    (hk : ∀ found bs, t.head = .ok found →
      outcome (k found) bs = .error (.mismatch (.wrongType found wanted))) :
    Reads (Scan.head >>= k) t.tokens (wrongTree t wanted) := by
  intro front rest h hrest
  rcases t.isScalar_or with ht | ⟨ts, rfl⟩ | ⟨ms, rfl⟩
  · rw [outcome_bind, reads_head ht front rest h hrest, wrongTree]
    cases hhead : t.head with
    | error e => rfl
    | ok found => exact hk found rest hhead
  · rw [Tree.tokens] at h
    rcases h.outcome_head_array rest with ⟨front', hhead, -⟩
    rw [outcome_bind, hhead]
    exact hk .array _ rfl
  · rw [Tree.tokens] at h
    rcases h.outcome_head_object rest with ⟨front', hhead, -⟩
    rw [outcome_bind, hhead]
    exact hk .object _ rfl

/-! ## 2. Brackets -/

theorem outcome_then {x : Scan α} {x' : Except Fault α} {f : α → Scan β} {f' : α → Except Fault β}
    {bs mid rest : Bytes} (hx : outcome x bs = x'.map (·, mid))
    (hf : ∀ a, outcome (f a) mid = (f' a).map (·, rest)) :
    outcome (x >>= f) bs = (x' >>= f').map (·, rest) := by
  rw [outcome_bind, hx]
  cases x' with
  | error e => rfl
  | ok a => exact hf a

/-- What is made of a value once it has been read. -/
theorem outcome_return {scan : Scan α} {result : Except Fault α} {bs rest : Bytes} (f : α → β)
    (h : outcome scan bs = result.map (·, rest)) :
    outcome (do return f (← scan)) bs = Except.map (·, rest) (do return f (← result)) :=
  outcome_then h fun _ => rfl

theorem outcome_ite {p : Prop} [Decidable p] {x y : Scan α} {x' y' : Except Fault α} {bs rest : Bytes}
    (hx : p → outcome x bs = x'.map (·, rest)) (hy : ¬p → outcome y bs = y'.map (·, rest)) :
    outcome (if p then x else y) bs = (if p then x' else y').map (·, rest) := by
  by_cases hp : p
  · rw [if_pos hp, if_pos hp]
    exact hx hp
  · rw [if_neg hp, if_neg hp]
    exact hy hp

theorem outcome_enclosed (room : Nat) (body : Nat → Scan α) (b : UInt8) (bs : Bytes) :
    outcome (enclosed room body) (b :: bs) =
      match room with
      | 0 => .error (.malformed .tooDeep)
      | room + 1 => outcome (body room) bs := by
  cases room with
  | zero => rfl
  | succ room =>
    rw [enclosed, outcome_bind, outcome_advance]
    rfl

/-- What is behind a bracket counts only if there is room for the bracket. -/
theorem outcome_enclosed_within {room : Nat} {body : Nat → Scan α} {body' : Nat → Except Fault α}
    {b : UInt8} {bs rest : Bytes} (h : ∀ room, outcome (body room) bs = (body' room).map (·, rest)) :
    outcome (enclosed room body) (b :: bs) = (within room body').map (·, rest) := by
  rw [outcome_enclosed]
  cases room with
  | zero => rfl
  | succ room => exact h room

theorem Json.Tree.head_eq_array {t : Tree} (h : t.head = .ok .array) : ∃ ts, t = .array ts := by
  cases t with
  | array ts => exact ⟨ts, rfl⟩
  | number n =>
    rcases ok_of_map h with ⟨x, -, hx⟩
    cases hx
  | string l =>
    rcases ok_of_map h with ⟨s, -, hs⟩
    cases hs
  | null => cases h
  | boolean b => cases h
  | object ms => cases h

theorem Json.Tree.head_eq_object {t : Tree} (h : t.head = .ok .object) : ∃ ms, t = .object ms := by
  cases t with
  | object ms => exact ⟨ms, rfl⟩
  | number n =>
    rcases ok_of_map h with ⟨x, -, hx⟩
    cases hx
  | string l =>
    rcases ok_of_map h with ⟨s, -, hs⟩
    cases hs
  | null => cases h
  | boolean b => cases h
  | array ts => cases h

/-- Neither an array nor an object, and so refused. -/
theorem reads_neither {k : Head → Scan α} (wanted : Wanted) {t : Tree} (harray : ∀ ts, t ≠ .array ts)
    (hobject : ∀ ms, t ≠ .object ms)
    (hk : ∀ found bs, found ≠ .array → found ≠ .object →
      outcome (k found) bs = .error (.mismatch (.wrongType found wanted))) :
    Reads (Scan.head >>= k) t.tokens (wrongTree t wanted) := by
  refine reads_wrongTree wanted t fun found bs hfound => hk found bs ?_ ?_
  · rintro rfl
    rcases head_eq_array hfound with ⟨ts, rfl⟩
    exact harray ts rfl
  · rintro rfl
    rcases head_eq_object hfound with ⟨ms, rfl⟩
    exact hobject ms rfl

/-- The scan reads exactly these tokens whatever stands behind them, as it does where a bracket closes. -/
def ReadsClosed (scan : Scan α) (tokens : List Bytes) (result : Except Fault α) : Prop :=
  ∀ front rest, Laid tokens front → outcome scan (front ++ rest) = result.map (·, rest)

theorem ReadsClosed.reads {scan : Scan α} {tokens : List Bytes} {result : Except Fault α}
    (h : ReadsClosed scan tokens result) : Reads scan tokens result :=
  fun front rest hfront _ => h front rest hfront

theorem readsClosed_readList {item : Nat → Scan α} {f : Nat → Tree → Except Fault α} (room : Nat)
    (ts : List Tree) (hitem : ∀ room t, Reads (item room) t.tokens (f room t)) :
    ReadsClosed (readList room item) (Tree.array ts).tokens (listOfTree room f (.array ts)) := by
  intro front rest h
  rw [Tree.tokens, tokensOfItems_eq_map] at h
  obtain ⟨front', hhead, h'⟩ := h.outcome_head_array rest
  rw [readList, outcome_bind, hhead]
  exact outcome_enclosed_within fun room => outcome_items (fun t _ => hitem room t) h' rest

theorem readsClosed_readList_object {item : Nat → Scan α} {f : Nat → Tree → Except Fault α} (room : Nat)
    (ms : List (List Literal.Piece × Tree)) :
    ReadsClosed (readList room item) (Tree.object ms).tokens (listOfTree room f (.object ms)) := by
  intro front rest h
  rw [Tree.tokens] at h
  obtain ⟨front', hhead, -⟩ := h.outcome_head_object rest
  rw [readList, outcome_bind, hhead]
  rfl

/-- A list is read where each of its items is. -/
theorem reads_readList {item : Nat → Scan α} {f : Nat → Tree → Except Fault α} (room : Nat) (t : Tree)
    (hitem : ∀ room t, Reads (item room) t.tokens (f room t)) :
    Reads (readList room item) t.tokens (listOfTree room f t) := by
  -- Everything but an array is refused at its front.
  have hwrong : ∀ t, (∀ ts, t ≠ .array ts) →
      Reads (readList room item) t.tokens (wrongTree t .array) := by
    intro t ht
    refine reads_wrongTree .array t fun found bs hfound => ?_
    cases found with
    | array =>
      rcases head_eq_array hfound with ⟨ts, rfl⟩
      exact absurd rfl (ht ts)
    | _ => rfl
  cases t with
  | array ts => exact (readsClosed_readList room ts hitem).reads
  | _ => exact hwrong _ nofun

/-! ## 3. Null and words -/

/-- Of all values only null starts like null. -/
theorem Json.Tree.tokens_eq_cons_of_ne_null {t : Tree} (ht : t ≠ .null) :
    ∃ b bs more, t.tokens = (b :: bs) :: more ∧ isBlank b = false ∧ ascii b ≠ 'n' := by
  cases t with
  | null => exact absurd rfl ht
  | boolean b =>
    cases b
    · exact ⟨_, _, _, rfl, by decide, by decide⟩
    · exact ⟨_, _, _, rfl, by decide, by decide⟩
  | number n =>
    rcases n.bytes_head with ⟨b, bs, hbytes, hblank, hb⟩
    refine ⟨b, bs, [], by rw [Tree.tokens, hbytes], hblank, fun h => ?_⟩
    rw [h] at hb
    exact absurd hb (by decide)
  | string l => exact ⟨_, _, _, rfl, by decide, by decide⟩
  | array ts => exact ⟨_, _, _, by rw [Tree.tokens], by decide, by decide⟩
  | object ms => exact ⟨_, _, _, by rw [Tree.tokens], by decide, by decide⟩

theorem reads_orNull {scan : Scan α} {value : Tree → Except Fault α} (t : Tree)
    (hvalue : Reads scan t.tokens (value t)) : Reads (orNull scan) t.tokens (orNullOfTree value t) := by
  intro front rest h hrest
  by_cases ht : t = .null
  · subst ht
    rcases h.next rfl rest with ⟨front', hnext, hend⟩
    rw [orNull, outcome_bind, hnext, hend.nil_inv]
    exact outcome_name 0x6E [0x75, 0x6C, 0x6C] rfl none rest
  · rcases tokens_eq_cons_of_ne_null ht with ⟨b, bs, more, htokens, hblank, hb⟩
    have hvalue' : orNullOfTree value t = value t >>= fun v => .ok (some v) := by
      cases t with
      | null => exact absurd rfl ht
      | _ => rfl
    rw [htokens] at h
    rcases h.next hblank rest with ⟨front', hnext, h'⟩
    -- The blanks in front have been read by now, and the value is read without them.
    have hread := hvalue ([] ++ (b :: bs ++ front')) rest (htokens ▸ .cons blank_nil h') hrest
    rw [List.nil_append, List.cons_append, List.cons_append, List.append_assoc] at hread
    rw [orNull, outcome_seq hnext, hvalue']
    rw [if_neg fun h => hb (Option.some.inj h), outcome_bind, hread]
    cases value t <;> rfl

theorem outcome_readSpelling (α : Type) [Vocabulary α] (l : List Literal.Piece) (rest : Bytes) :
    outcome (readSpelling α) (Literal.inside l ++ rest) =
      (Literal.text l >>= spellingOf α).map (·, rest) := by
  rw [readSpelling, outcome_bind, Literal.outcome_read]
  cases Literal.text l with
  | error e => rfl
  | ok word =>
    refine Eq.trans ?_ (congrArg (Except.map (·, rest)) (show spellingOf α word = _ from rfl))
    simp only [Except.map, bind, Except.bind, spellingOf]
    cases (Vocabulary.ofWord? word : Option α) <;> rfl

/-- A word with null under it, from behind the quote that opens the word. -/
theorem outcome_spelledNull (α : Type) [Vocabulary α] {f : α → Scan β} {f' : α → Except Fault β}
    (m : List Literal.Piece × Tree) {front mid rest : Bytes} (h : Laid ([0x3A] :: m.2.tokens) front)
    (hmid : Delimited mid) (hf : ∀ a, outcome (f a) mid = (f' a).map (·, rest)) :
    outcome (do
      let a ← readSpelling α
      colon
      readNull
      f a) (Literal.inside m.1 ++ (front ++ mid)) = Except.map (·, rest) (do
      let a ← spellingOf α (← Literal.text m.1)
      headNull (← m.2.head)
      f' a) := by
  rcases h.outcome_colon mid with ⟨front', hcolon, h'⟩
  have hnull := reads_readNull m.2 front' mid h' hmid
  -- The scan asks for the key and its word at once, the tree for one after the other.
  have hassoc : (Literal.text m.1 >>= fun word => spellingOf α word >>= fun a =>
      m.2.head >>= fun found => headNull found >>= fun _ => f' a) =
      (Literal.text m.1 >>= spellingOf α) >>= fun a => (m.2.head >>= headNull) >>= fun _ => f' a := by
    simp only [bind_assoc]
  refine Eq.trans ?_ (congrArg (Except.map (·, rest)) hassoc.symm)
  refine outcome_then (outcome_readSpelling α m.1 (front ++ mid)) fun a => ?_
  rw [outcome_seq hcolon]
  exact outcome_then hnull fun _ => hf a

theorem reads_readWord (α : Type) [Vocabulary α] (room : Nat) (t : Tree) :
    Reads (readWord α room) t.tokens (wordOfTree α room t) := by
  intro front rest h hrest
  cases t with
  | null =>
    rcases h.next rfl rest with ⟨front', hnext, -⟩
    rw [readWord, outcome_bind, hnext]
    rfl
  | boolean b =>
    cases b
    · rcases h.next rfl rest with ⟨front', hnext, -⟩
      rw [readWord, outcome_bind, hnext]
      rfl
    · rcases h.next rfl rest with ⟨front', hnext, -⟩
      rw [readWord, outcome_bind, hnext]
      rfl
  | number n =>
    rcases n.bytes_head with ⟨b, bs, hbytes, hblank, hb⟩
    rw [Tree.tokens, hbytes] at h
    rcases h.next hblank rest with ⟨front', hnext, -⟩
    rw [readWord, outcome_seq hnext]
    split
    · contradiction
    · next h => exact absurd (Option.some.inj h ▸ hb) (by decide)
    · next h => exact absurd (Option.some.inj h ▸ hb) (by decide)
    · rfl
  | string l =>
    rcases Laid.next (b := 0x22) h rfl rest with ⟨front', hnext, hend⟩
    rw [readWord, outcome_bind, hnext, hend.nil_inv]
    exact outcome_readSpelling α l rest
  | array ts =>
    rw [Tree.tokens] at h
    rcases h.next rfl rest with ⟨front', hnext, -⟩
    rw [readWord, outcome_bind, hnext]
    rfl
  | object ms =>
    rw [Tree.tokens, tokensOfMembers_eq_map] at h
    rcases h.next rfl rest with ⟨front', hnext, h'⟩
    rw [readWord, outcome_bind, hnext]
    refine outcome_enclosed_within fun _ => ?_
    cases ms with
    | nil =>
      have hclosing : Laid [[0x7D]] front' := h'
      rcases hclosing.next rfl rest with ⟨front₁, hnext₁, -⟩
      show outcome (next? >>= _) (front' ++ rest) = _
      rw [outcome_bind, hnext₁]
      rfl
    | cons m more =>
      have hkey : Laid ((0x22 :: Literal.inside m.1) :: [0x3A] :: (m.2.tokens ++
          continued 0x7D (more.map memberTokens))) front' := h'
      rcases hkey.next rfl rest with ⟨front₁, hnext₁, h₁⟩
      rcases Laid.append_inv (a := [0x3A] :: m.2.tokens) h₁ with ⟨x, y, rfl, hx, hy⟩
      have hmid : Delimited (y ++ rest) := hy.delimited_continued (.inr rfl) rest
      show outcome (next? >>= _) (front' ++ rest) = _
      rw [outcome_bind, hnext₁, List.append_assoc]
      show outcome (advance >>= _) _ = _
      rw [outcome_seq (outcome_advance _ _)]
      refine outcome_spelledNull α m hx hmid fun a => ?_
      -- The object must close behind the null.
      cases more with
      | nil =>
        have hclosing : Laid [[0x7D]] y := hy
        rcases hclosing.next rfl rest with ⟨front₂, hnext₂, hend⟩
        rw [outcome_bind, hnext₂, hend.nil_inv]
        rfl
      | cons m' more =>
        rw [List.map_cons, continued_cons] at hy
        rcases hy.next rfl rest with ⟨front₂, hnext₂, -⟩
        rw [outcome_bind, hnext₂]
        rfl

/-! ## 4. Fields and records -/

theorem outcome_failClosing (fault : Fault) (bs : Bytes) :
    outcome (failClosing fault : Scan α) bs = .error fault := by
  have hnext : outcome next? bs =
      .ok ((bs.dropWhile isBlank).head?.map ascii, bs.dropWhile isBlank) := rfl
  rw [failClosing, outcome_seq hnext]
  split
  · rfl
  · rfl

/-- The value behind a key is read where nothing has been found under it yet. -/
theorem outcome_readUnder {value : Scan α} {result : Except Fault α} {t : Tree}
    (hvalue : Reads value t.tokens result) (key : String) (found : Option α) {front rest : Bytes}
    (h : Laid ([0x3A] :: t.tokens) front) (hrest : Delimited rest) :
    outcome (readUnder key found value) (front ++ rest) =
      (takeUnder key found result).map (·, rest) := by
  cases found with
  | some v => exact outcome_failClosing _ _
  | none =>
    rcases h.outcome_colon rest with ⟨front', hcolon, h'⟩
    show outcome (colon >>= _) (front ++ rest) = _
    rw [outcome_seq hcolon]
    rw [outcome_bind, hvalue front' rest h' hrest, takeUnder]
    cases result <;> rfl

/-- The value under an unknown key is passed over, whatever it is. -/
theorem outcome_passOver {t : Tree} {front rest : Bytes} (h : Laid ([0x3A] :: t.tokens) front)
    (hrest : Delimited rest) : outcome passOver (front ++ rest) = .ok ((), rest) := by
  rcases h.outcome_colon rest with ⟨front', hcolon, h'⟩
  rw [passOver, outcome_bind, hcolon]
  exact reads_skip t front' rest h' hrest

/-- The tokens from the item at an index on, where those before it have been read. -/
def Json.Tree.tokensFrom (index : Nat) (ts : List Tree) : List Bytes :=
  if index = 0 then listed 0x5D (ts.map tokens) else continued 0x5D (ts.map tokens)

theorem outcome_start_closing {index : Nat} {more : Bool → Scan α} {front : Bytes}
    (h : Laid (tokensFrom index []) front) (rest : Bytes) :
    outcome (if index = 0 then firstItem >>= more else nextItem >>= more) (front ++ rest) =
      outcome (more false) rest := by
  by_cases hindex : index = 0
  · rw [tokensFrom, if_pos hindex] at h
    rw [if_pos hindex, outcome_bind, outcome_firstItem_closing h rest]
    rfl
  · rw [tokensFrom, if_neg hindex] at h
    rw [if_neg hindex, outcome_bind, outcome_nextItem_closing h rest]
    rfl

theorem outcome_start_value {index : Nat} {more : Bool → Scan α} {t : Tree} {ts : List Tree}
    {front : Bytes} (h : Laid (tokensFrom index (t :: ts)) front) (rest : Bytes) :
    ∃ front', outcome (if index = 0 then firstItem >>= more else nextItem >>= more) (front ++ rest) =
      outcome (more true) (front' ++ rest) ∧
        Laid (t.tokens ++ continued 0x5D (ts.map tokens)) front' := by
  by_cases hindex : index = 0
  · rw [tokensFrom, if_pos hindex] at h
    rcases outcome_firstItem_value h rest with ⟨front', hfirst, h'⟩
    refine ⟨front', ?_, h'⟩
    rw [if_pos hindex, outcome_bind, hfirst]
    rfl
  · rw [tokensFrom, if_neg hindex, List.map_cons, continued_cons] at h
    rcases outcome_nextItem_value h rest with ⟨front', hnext, h'⟩
    refine ⟨front', ?_, h'⟩
    rw [if_neg hindex, outcome_bind, hnext]
    rfl

theorem outcome_noMoreItems_closing {index : Nat} {front : Bytes} (h : Laid (tokensFrom index []) front)
    (rest : Bytes) : outcome noMoreItems (front ++ rest) = .ok ((), rest) := by
  have hclosing : Laid [[0x5D]] front := by
    by_cases hindex : index = 0
    · rwa [tokensFrom, if_pos hindex] at h
    · rwa [tokensFrom, if_neg hindex] at h
  rcases hclosing.next rfl rest with ⟨front', hnext, hend⟩
  rw [noMoreItems, outcome_bind, hnext, hend.nil_inv]
  rfl

theorem outcome_noMoreItems_value {index : Nat} {t : Tree} {ts : List Tree} {front : Bytes}
    (h : Laid (tokensFrom index (t :: ts)) front) (rest : Bytes) :
    outcome noMoreItems (front ++ rest) = .error (.malformed .trailingCharacters) := by
  rcases t.tokens_eq_cons with ⟨b, bs, more, ht, hblank, hcomma, hclose, -⟩
  -- The first item is seen itself; before any other the comma is seen.
  by_cases hindex : index = 0
  · rw [tokensFrom, if_pos hindex, List.map_cons, listed, ht, List.cons_append] at h
    rcases h.next hblank rest with ⟨front', hnext, -⟩
    rw [noMoreItems, outcome_seq hnext]
    split
    · contradiction
    · next h => exact absurd (Option.some.inj h) hclose
    · next h => exact absurd (Option.some.inj h) hcomma
    · rfl
  · rw [tokensFrom, if_neg hindex, List.map_cons, continued_cons, ht, List.cons_append] at h
    rcases h.next rfl rest with ⟨front₁, hnext₁, h₁⟩
    rcases h₁.next hblank rest with ⟨front₂, hnext₂, -⟩
    rw [noMoreItems, outcome_seq hnext₁]
    refine (outcome_seq (outcome_advance _ _) _).trans ?_
    rw [List.nil_append, outcome_seq hnext₂]
    split
    · next h => exact absurd (Option.some.inj h) hclose
    · rfl

/-- The member of a record, from behind the quote that opens its key. -/
theorem readsMember_literal {f : String → Scan β} {f' : String → Except Fault β}
    {m : List Literal.Piece × Tree}
    (hf : ∀ k front rest, Laid ([0x3A] :: m.2.tokens) front → Delimited rest →
      outcome (f k) (front ++ rest) = (f' k).map (·, rest)) :
    ReadsMember (Literal.read >>= f) m (Literal.text m.1 >>= f') := by
  intro front rest h hrest
  rw [outcome_bind, Literal.outcome_read]
  cases Literal.text m.1 with
  | error e => rfl
  | ok k => exact hf k front rest h hrest

/-- A member of an object of which only one key counts. -/
theorem readsMember_wrapped {value : Scan α} {value' : Tree → Except Fault α}
    (hvalue : ∀ t : Tree, Reads value t.tokens (value' t)) (key : String)
    (found : Option α) (m : List Literal.Piece × Tree) :
    ReadsMember (readMember key value found) m (takeMember key value' found m) := by
  -- The two go the same way, since the key that is read is the key of the member.
  refine readsMember_literal fun k front rest h hrest => ?_
  refine outcome_ite (fun _ => outcome_readUnder (hvalue m.2) key found h hrest) fun _ => ?_
  rw [outcome_bind, outcome_passOver h hrest]
  rfl

/-- The members of an object in a record's place, each put into its field. -/
theorem readsClosed_recordObject {name : String} {fields : Fields}
    (hplace : ∀ (room : Nat) (k : String) (found : fields.Filling) {t : Tree} {front rest : Bytes},
      Laid ([0x3A] :: t.tokens) front → Delimited rest →
      outcome (fields.place room k found) (front ++ rest) =
        (fields.putTree room k t found).map (·, rest))
    (room : Nat) (ms : List (List Literal.Piece × Tree)) :
    ReadsClosed ((Shape.record name fields).read room) (Tree.object ms).tokens
      ((Shape.record name fields).ofTree room (.object ms)) := by
  intro front rest h
  rw [Tree.tokens, tokensOfMembers_eq_map] at h
  obtain ⟨front', hhead, h'⟩ := h.outcome_head_object rest
  rw [Shape.read, Shape.ofTree, outcome_bind, hhead]
  refine outcome_enclosed_within fun room => ?_
  -- The state of the loop is what has been found for each field.
  have hstep : ∀ found, ∀ m ∈ ms, ReadsMember (do fields.place room (← Literal.read) found) m
      (do fields.putTree room (← Literal.text m.1) m.2 found) := fun found m _ =>
    readsMember_literal fun k front rest h hrest => hplace room k found h hrest
  rw [outcome_bind, outcome_members hstep fields.unfilled h' rest]
  cases ms.foldlM (fun found m => do fields.putTree room (← Literal.text m.1) m.2 found)
    fields.unfilled with
  | error e => rfl
  | ok found =>
    simp only [Except.map, bind, Except.bind]
    cases fields.finish found <;> rfl

theorem readsClosed_recordArray {name : String} {fields : Fields}
    (hitems : ∀ (room : Nat) (ts : List Tree) {front : Bytes}, Laid (tokensFrom 0 ts) front →
      ∀ rest, outcome (fields.readItems name fields.size room 0) (front ++ rest) =
        (fields.ofTrees name fields.size room ts 0).map (·, rest))
    (room : Nat) (ts : List Tree) :
    ReadsClosed ((Shape.record name fields).read room) (Tree.array ts).tokens
      ((Shape.record name fields).ofTree room (.array ts)) := by
  intro front rest h
  rw [Tree.tokens, tokensOfItems_eq_map] at h
  obtain ⟨front', hhead, h'⟩ := h.outcome_head_array rest
  rw [Shape.read, Shape.ofTree, outcome_bind, hhead]
  exact outcome_enclosed_within fun room => hitems room ts h' rest

theorem readsClosed_wrappedObject {key : String} {item : Shape}
    (hitem : ∀ room t, Reads (item.read room) t.tokens (item.ofTree room t)) (room : Nat)
    (ms : List (List Literal.Piece × Tree)) :
    ReadsClosed ((Shape.wrapped key item).read room) (Tree.object ms).tokens
      ((Shape.wrapped key item).ofTree room (.object ms)) := by
  intro front rest h
  rw [Tree.tokens, tokensOfMembers_eq_map] at h
  obtain ⟨front', hhead, h'⟩ := h.outcome_head_object rest
  rw [Shape.read, Shape.ofTree, outcome_bind, hhead]
  refine outcome_enclosed_within fun room => ?_
  have hlist : ∀ u : Tree, Reads (orNull (readList room item.read)) u.tokens
      (orNullOfTree (listOfTree room fun room => item.ofTree room) u) :=
    fun u => reads_orNull u (reads_readList room u hitem)
  exact outcome_return (·.getD none)
    (outcome_members (fun found m _ => readsMember_wrapped hlist key found m) none h' rest)

theorem readsClosed_wrappedArray {key : String} {item : Shape}
    (hitem : ∀ room t, Reads (item.read room) t.tokens (item.ofTree room t)) (room : Nat)
    (ts : List Tree) :
    ReadsClosed ((Shape.wrapped key item).read room) (Tree.array ts).tokens
      ((Shape.wrapped key item).ofTree room (.array ts)) := by
  intro front rest h
  rw [Tree.tokens, tokensOfItems_eq_map] at h
  obtain ⟨front', hhead, h'⟩ := h.outcome_head_array rest
  rw [Shape.read, Shape.ofTree, outcome_bind, hhead]
  exact outcome_enclosed_within fun room =>
    outcome_return some (outcome_items (fun t _ => hitem room t) h' rest)

mutual

/-- The text route on every text that spells a tree. -/
theorem Shape.reads (room : Nat) : (s : Shape) → (t : Tree) →
    Reads (s.read room) t.tokens (s.ofTree room t)
  | .text, t => reads_readText t
  | .truth, t => reads_readTruth t
  | .integer width, t => reads_readInteger width t
  | @Shape.word α _, t => reads_readWord α room t
  | .json, t => fun front rest h hrest =>
      outcome_return Json.canonicalize (reads_read t room front rest h hrest)
  | .list item, t => reads_readList room t fun room t => item.reads room t
  | .record name fields, t => by
    have hwrong : (∀ ts, t ≠ .array ts) → (∀ ms, t ≠ .object ms) →
        Reads ((Shape.record name fields).read room) t.tokens (wrongTree t (.record name)) := by
      intro harray hobject
      refine reads_neither _ harray hobject fun found bs hnone hnoObject => ?_
      cases found with
      | array => exact absurd rfl hnone
      | object => exact absurd rfl hnoObject
      | _ => rfl
    cases t with
    | object ms => exact (readsClosed_recordObject fields.outcome_place room ms).reads
    | array ts =>
      exact (readsClosed_recordArray (fun room => fields.outcome_readItems name fields.size room 0)
        room ts).reads
    | _ => exact hwrong nofun nofun
  | .wrapped key item, t => by
    have hwrong : (∀ ts, t ≠ .array ts) → (∀ ms, t ≠ .object ms) →
        Reads ((Shape.wrapped key item).read room) t.tokens (wrongTree t (.listOrObject key)) := by
      intro harray hobject
      refine reads_neither _ harray hobject fun found bs hnone hnoObject => ?_
      cases found with
      | array => exact absurd rfl hnone
      | object => exact absurd rfl hnoObject
      | _ => rfl
    cases t with
    | object ms => exact (readsClosed_wrappedObject item.reads room ms).reads
    | array ts => exact (readsClosed_wrappedArray item.reads room ts).reads
    | _ => exact hwrong nofun nofun

theorem Field.reads (room : Nat) : (f : Field) → (t : Tree) →
    Reads (f.read room) t.tokens (f.ofTree room t)
  | .required shape, t => shape.reads room t
  | .nullable shape, t => reads_orNull t (shape.reads room t)
  | .optional shape, t => reads_orNull t (shape.reads room t)
  | .sparse shape, t => reads_orNull t (shape.reads room t)
  | .flag, t => fun front rest h hrest =>
    outcome_return (fun found : Option Bool => found.getD false)
      (@reads_orNull _ _ (fun t => t.head >>= headTruth) t (reads_readTruth t) front rest h hrest)
  | .listing item, t => reads_readList room t fun room t => item.reads room t

/-- The value of a member, from the colon behind its key. -/
theorem Fields.outcome_place (room : Nat) : (fs : Fields) → (k : String) → (found : fs.Filling) →
    {t : Tree} → {front rest : Bytes} → Laid ([0x3A] :: t.tokens) front → Delimited rest →
    outcome (fs.place room k found) (front ++ rest) = (fs.putTree room k t found).map (·, rest)
  | .nil, _, _, _, _, _, h, hrest => outcome_passOver h hrest
  | .cons key field fs, k, (found, more), t, _, _, h, hrest =>
    outcome_ite
      (fun _ => outcome_return (·, more) (outcome_readUnder (field.reads room t) key found h hrest))
      fun _ => outcome_return (found, ·) (fs.outcome_place room k more h hrest)

/-- The items of an array in a record's place, from the field at an index on. -/
theorem Fields.outcome_readItems (name : String) (size room : Nat) : (fs : Fields) → (index : Nat) →
    (ts : List Tree) → {front : Bytes} → Laid (tokensFrom index ts) front → (rest : Bytes) →
    outcome (fs.readItems name size room index) (front ++ rest) =
      (fs.ofTrees name size room ts index).map (·, rest)
  | .nil, _, [], _, h, rest => outcome_noMoreItems_closing h rest
  | .nil, _, _ :: _, _, h, rest => outcome_noMoreItems_value h rest
  | .cons key field fs, index, [], _, h, rest => by
    refine (outcome_start_closing h rest).trans ?_
    rw [Fields.ofTrees]
    cases Fields.cutOff (.cons key field fs) index <;> rfl
  | .cons key field fs, index, t :: ts, _, h, rest => by
    rcases outcome_start_value h rest with ⟨front', hstart, h'⟩
    rcases h'.append_inv with ⟨x, y, rfl, hx, hy⟩
    -- Behind an item no index is zero any more, so a comma or the closing bracket comes next.
    have hmore : Laid (tokensFrom (index + 1) ts) y := by
      rwa [tokensFrom, if_neg (Nat.succ_ne_zero index)]
    have hvalue := field.reads room t x (y ++ rest) hx (hy.delimited_continued (.inl rfl) rest)
    refine hstart.trans ?_
    rw [List.append_assoc]
    exact outcome_then hvalue fun v =>
      outcome_return (v, ·) (fs.outcome_readItems name size room (index + 1) ts hmore rest)

end

/-! ## 5. What brackets enclose -/

/-- The values of the shape are written between brackets. -/
def Shape.Bracketed : Shape → Prop
  | .list _ => True
  | .record _ _ => True
  | .wrapped _ _ => True
  | _ => False

/-- Where a bracket closes the value, nothing that stands behind it matters. -/
theorem Shape.readsClosed {s : Shape} (hs : s.Bracketed) (room : Nat) {t : Tree}
    (ht : ¬ t.IsScalar) : ReadsClosed (s.read room) t.tokens (s.ofTree room t) := by
  obtain hscalar | ⟨ts, rfl⟩ | ⟨ms, rfl⟩ := t.isScalar_or
  · exact absurd hscalar ht
  · cases s with
    | list item => exact readsClosed_readList room ts fun room t => item.reads room t
    | record name fields =>
      exact readsClosed_recordArray (fun room => fields.outcome_readItems name fields.size room 0) room ts
    | wrapped key item => exact readsClosed_wrappedArray (fun room t => item.reads room t) room ts
    | _ => exact hs.elim
  · cases s with
    | list item => exact readsClosed_readList_object room ms
    | record name fields => exact readsClosed_recordObject fields.outcome_place room ms
    | wrapped key item => exact readsClosed_wrappedObject (fun room t => item.reads room t) room ms
    | _ => exact hs.elim

end MetricCatalog
