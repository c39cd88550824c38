import MetricCatalog.Proofs.Schema.Checked
import MetricCatalog.Proofs.Schema.Insertion

/-!
# Ill-formed bytes — where they are tolerated

Only the literals that a reader of records keeps are checked, and what stands under a key that it does not
know is passed over. `Shape.emptied` empties the literals in there. It changes nothing that is read, and it
leaves no byte that is not UTF-8.
-/

namespace MetricCatalog

open Json Json.Scan Json.Tree Shape

variable {α : Type}

/-! ## 1. What is passed over -/

/-- An array with its items emptied. -/
def emptiedList (item : Tree → Tree) : Tree → Tree
  | .array ts => .array (ts.map item)
  | t => t

/-- Members with their values emptied, each as its key says. -/
def emptiedUnder (value : String → Tree → Tree) (ms : Members) : Members :=
  ms.map fun m =>
    match Literal.text m.1 with
    | .ok key => (m.1, value key m.2)
    | .error _ => m

mutual

/-- The tree with the literals emptied that a reader of the shape passes over. -/
def Shape.emptied : Shape → Tree → Tree
  | .list item, t => emptiedList item.emptied t
  | .record _ fields, .object ms => .object (emptiedUnder fields.emptiedValue ms)
  | .record _ fields, .array ts => .array (fields.emptiedItems ts)
  | .wrapped key item, .object ms =>
    .object (emptiedUnder (fun k t => if k = key then emptiedList item.emptied t else t.emptied) ms)
  | .wrapped _ item, t => emptiedList item.emptied t
  | _, t => t

def Field.emptied : Field → Tree → Tree
  | .required shape, t => shape.emptied t
  | .nullable shape, t => shape.emptied t
  | .optional shape, t => shape.emptied t
  | .sparse shape, t => shape.emptied t
  | .flag, t => t
  | .listing item, t => emptiedList item.emptied t

/-- The value under a key, with all its literals emptied if no field has the key. -/
def Fields.emptiedValue : Fields → String → Tree → Tree
  | .nil, _, t => t.emptied
  | .cons key field rest, k, t => if k = key then field.emptied t else rest.emptiedValue k t

def Fields.emptiedItems : Fields → List Tree → List Tree
  | .cons _ field rest, t :: ts => field.emptied t :: rest.emptiedItems ts
  | _, ts => ts

end

/-! ## 2. Nothing is read from it -/

/-- Only null is null when it has been emptied. -/
def KeepsNull (change : Tree → Tree) : Prop := ∀ t, change t = .null ↔ t = .null

theorem keepsNull_emptiedList (item : Tree → Tree) : KeepsNull (emptiedList item) := by
  intro t
  cases t <;> simp [emptiedList]

theorem Shape.keepsNull_emptied (s : Shape) : KeepsNull s.emptied := by
  intro t
  cases s <;> cases t <;> simp [Shape.emptied, emptiedList]

theorem orNullOfTree_change {value : Tree → Except Fault α} {change : Tree → Tree}
    (hnull : KeepsNull change) (h : ∀ t, value (change t) = value t) (t : Tree) :
    orNullOfTree value (change t) = orNullOfTree value t := by
  by_cases ht : t = .null
  · rw [(hnull t).2 ht, ht]
  · exact orNullOfTree_congr ⟨ht, fun hc => ht ((hnull t).1 hc)⟩ (h t)

theorem mapM_change {item : Tree → Except Fault α} {change : Tree → Tree}
    (h : ∀ t, item (change t) = item t) (ts : List Tree) : (ts.map change).mapM item = ts.mapM item := by
  rw [List.mapM_map]
  exact congrArg (ts.mapM ·) (funext h)

theorem listOfTree_change {item : Nat → Tree → Except Fault α} {change : Tree → Tree}
    (h : ∀ room t, item room (change t) = item room t) (room : Nat) (t : Tree) :
    listOfTree room item (emptiedList change t) = listOfTree room item t := by
  cases t with
  | array ts =>
    cases room with
    | zero => rfl
    | succ room => exact mapM_change (h room) ts
  | _ => rfl

/-- Where each key takes the same from its value, all the members together give the same. -/
theorem foldlM_emptiedUnder {σ : Type} {put : String → Tree → σ → Except Fault σ}
    {value : String → Tree → Tree} (h : ∀ k t s, put k (value k t) s = put k t s) (ms : Members) (s : σ) :
    (emptiedUnder value ms).foldlM (fun s m => do put (← Literal.text m.1) m.2 s) s =
      ms.foldlM (fun s m => do put (← Literal.text m.1) m.2 s) s := by
  rw [emptiedUnder, List.foldlM_map]
  congr 1
  funext s m
  cases hkey : Literal.text m.1 with
  | error e => simp only [hkey]
  | ok key =>
    simp only [hkey]
    exact h key m.2 s

/-- Takes the value of a member where only one key counts. -/
def putUnder (key : String) (value : Tree → Except Fault α) (k : String) (t : Tree) (found : Option α) :
    Except Fault (Option α) :=
  if k = key then takeUnder key found (value t) else .ok found

theorem putUnder_change {key : String} {value : Tree → Except Fault α} {change change' : Tree → Tree}
    (h : ∀ t, value (change t) = value t) (k : String) (t : Tree) (found : Option α) :
    putUnder key value k (if k = key then change t else change' t) found =
      putUnder key value k t found := by
  unfold putUnder
  by_cases hk : k = key
  · rw [if_pos hk, if_pos hk, if_pos hk, h t]
  · rw [if_neg hk, if_neg hk]

mutual

/-- A value is the same without the literals that are passed over. -/
theorem Shape.ofTree_emptied : (s : Shape) → (room : Nat) → (t : Tree) →
    s.ofTree room (s.emptied t) = s.ofTree room t
  | .text, _, t => by cases t <;> rfl
  | .truth, _, t => by cases t <;> rfl
  | .integer _, _, t => by cases t <;> rfl
  | @Shape.word α _, _, t => by cases t <;> rfl
  | .json, _, t => by cases t <;> rfl
  | .list item, room, t => listOfTree_change item.ofTree_emptied room t
  | .record name fields, room, t => by
    cases t with
    | object ms =>
      cases room with
      | zero => rfl
      | succ room =>
        exact congrArg (· >>= _) (foldlM_emptiedUnder (fields.putTree_emptied room) ms fields.unfilled)
    | array ts =>
      cases room with
      | zero => rfl
      | succ room => exact fields.ofTrees_emptied name fields.size room ts 0
    | _ => rfl
  | .wrapped key item, room, t => by
    cases t with
    | object ms =>
      cases room with
      | zero => rfl
      | succ room =>
        have hlist := orNullOfTree_change (keepsNull_emptiedList item.emptied)
          (listOfTree_change item.ofTree_emptied room)
        exact congrArg (· >>= _) (foldlM_emptiedUnder (putUnder_change hlist) ms none)
    | array ts =>
      cases room with
      | zero => rfl
      | succ room => exact congrArg (· >>= _) (mapM_change (item.ofTree_emptied room) ts)
    | _ => rfl

theorem Field.ofTree_emptied : (f : Field) → (room : Nat) → (t : Tree) →
    f.ofTree room (f.emptied t) = f.ofTree room t
  | .required shape, room, t => shape.ofTree_emptied room t
  | .nullable shape, room, t => orNullOfTree_change shape.keepsNull_emptied (shape.ofTree_emptied room) t
  | .optional shape, room, t => orNullOfTree_change shape.keepsNull_emptied (shape.ofTree_emptied room) t
  | .sparse shape, room, t => orNullOfTree_change shape.keepsNull_emptied (shape.ofTree_emptied room) t
  | .flag, _, _ => rfl
  | .listing item, room, t => listOfTree_change item.ofTree_emptied room t

theorem Fields.putTree_emptied : (fs : Fields) → (room : Nat) → (k : String) → (t : Tree) →
    (found : fs.Filling) → fs.putTree room k (fs.emptiedValue k t) found = fs.putTree room k t found
  | .nil, _, _, _, () => rfl
  | .cons key field rest, room, k, t, (found, more) => by
    by_cases hk : k = key
    · subst hk
      rw [Fields.emptiedValue, if_pos rfl, Fields.putTree_self, Fields.putTree_self,
        field.ofTree_emptied room t]
    · rw [Fields.emptiedValue, if_neg hk, Fields.putTree_other hk, Fields.putTree_other hk,
        rest.putTree_emptied room k t more]

theorem Fields.ofTrees_emptied (name : String) (size room : Nat) :
    (fs : Fields) → (ts : List Tree) → (index : Nat) →
    fs.ofTrees name size room (fs.emptiedItems ts) index = fs.ofTrees name size room ts index
  | .nil, _, _ => rfl
  | .cons _ _ _, [], _ => rfl
  | .cons _ field rest, t :: ts, index => by
    rw [Fields.emptiedItems, Fields.ofTrees, Fields.ofTrees, field.ofTree_emptied room t,
      rest.ofTrees_emptied name size room ts (index + 1)]

end

/-! ## 3. What is left is well-formed -/

/-- Where only a scalar will do, the one that is taken is kept. -/
theorem emptiedTo_of_head_bind {k : Head → Except Fault α} (harray : ∃ e, k .array = .error e)
    (hobject : ∃ e, k .object = .error e) {t : Tree} {a : α} (h : t.head >>= k = .ok a) :
    t.EmptiedTo t := by
  cases t with
  | string l =>
    obtain ⟨found, hfound, -⟩ := ok_of_bind h
    obtain ⟨s, hs, -⟩ := ok_of_map hfound
    exact emptiedTo_scalar trivial fun l' hl => ⟨s, Tree.string.inj hl ▸ hs⟩
  | array ts =>
    obtain ⟨e, he⟩ := harray
    exact nomatch he.symm.trans h
  | object ms =>
    obtain ⟨e, he⟩ := hobject
    exact nomatch he.symm.trans h
  | _ => exact emptiedTo_scalar trivial nofun

theorem emptiedTo_of_wordOfTree (α : Type) [Vocabulary α] {room : Nat} {t : Tree} {a : α}
    (h : wordOfTree α room t = .ok a) : t.EmptiedTo t := by
  cases t with
  | string l =>
    obtain ⟨s, hs, -⟩ := ok_of_bind h
    exact emptiedTo_scalar trivial fun l' hl => ⟨s, Tree.string.inj hl ▸ hs⟩
  | object ms =>
    cases room with
    | zero => cases h
    | succ room =>
      cases ms with
      | nil => cases h
      | cons m more =>
        -- The word is the only key, and null stands under it.
        obtain ⟨s, hs, hword⟩ := ok_of_bind h
        obtain ⟨b, -, hmore⟩ := ok_of_bind hword
        obtain ⟨found, hfound, hnull⟩ := ok_of_bind hmore
        obtain ⟨u, hu, hlast⟩ := ok_of_bind hnull
        have hvalue : m.2.head >>= headNull = .ok u := by
          rw [hfound]
          exact hu
        cases more with
        | nil =>
          have hnull : m.2.EmptiedTo m.2 := emptiedTo_of_head_bind ⟨_, rfl⟩ ⟨_, rfl⟩ hvalue
          exact emptiedTo_object (.cons ⟨kept_literal hs, hnull⟩ .nil)
        | cons m' more => cases hlast
  | _ => cases h

theorem emptiedTo_of_orNullOfTree {value : Tree → Except Fault α} {change : Tree → Tree}
    (hnull : KeepsNull change) (h : ∀ t a, value t = .ok a → t.EmptiedTo (change t)) {t : Tree}
    {a : Option α} (ha : orNullOfTree value t = .ok a) : t.EmptiedTo (change t) := by
  by_cases ht : t = .null
  · rw [(hnull t).2 ht, ht]
    exact emptiedTo_scalar trivial nofun
  · rw [orNullOfTree_of_ne_null ht] at ha
    obtain ⟨v, hv, -⟩ := ok_of_bind ha
    exact h t v hv

theorem emptiedTo_of_mapM {item : Tree → Except Fault α} {change : Tree → Tree}
    (h : ∀ t a, item t = .ok a → t.EmptiedTo (change t)) {ts : List Tree} {as : List α}
    (has : ts.mapM item = .ok as) : (Tree.array ts).EmptiedTo (.array (ts.map change)) := by
  refine emptiedTo_array (List.forall₂_map_right_iff.2 (List.forall₂_same.2 fun t ht => ?_))
  obtain ⟨a, -, ha⟩ := exists_mem_of_mapM has t ht
  exact h t a ha

theorem emptiedTo_of_listOfTree {item : Nat → Tree → Except Fault α} {change : Tree → Tree}
    (h : ∀ room t a, item room t = .ok a → t.EmptiedTo (change t)) {room : Nat} {t : Tree} {as : List α}
    (has : listOfTree room item t = .ok as) : t.EmptiedTo (emptiedList change t) := by
  cases t with
  | array ts =>
    cases room with
    | zero => cases has
    | succ room => exact emptiedTo_of_mapM (h room) has
  | _ => exact absurd has wrongTree_ne_ok

/-- Where each member has been put into its place, its key is a text, and its value is kept or emptied. -/
theorem emptiedTo_of_foldlM {σ : Type} {put : String → Tree → σ → Except Fault σ}
    {value : String → Tree → Tree} (h : ∀ k t s s', put k t s = .ok s' → t.EmptiedTo (value k t))
    {ms : Members} {s final : σ}
    (hfold : ms.foldlM (fun s m => do put (← Literal.text m.1) m.2 s) s = .ok final) :
    (Tree.object ms).EmptiedTo (.object (emptiedUnder value ms)) := by
  refine emptiedTo_object (List.forall₂_map_right_iff.2 (List.forall₂_same.2 fun m hm => ?_))
  obtain ⟨s, s', hs'⟩ := exists_of_mem_foldlM hfold m hm
  obtain ⟨key, hkey, hput⟩ := ok_of_bind hs'
  simp only [hkey]
  exact ⟨kept_literal hkey, h key m.2 s s' hput⟩

theorem emptiedTo_of_putUnder {key : String} {value : Tree → Except Fault α} {change : Tree → Tree}
    (h : ∀ t a, value t = .ok a → t.EmptiedTo (change t)) (k : String) (t : Tree)
    (found found' : Option α) (hput : putUnder key value k t found = .ok found') :
    t.EmptiedTo (if k = key then change t else t.emptied) := by
  rw [putUnder] at hput
  by_cases hk : k = key
  · rw [if_pos hk] at hput ⊢
    obtain ⟨a, ha⟩ := ok_of_takeUnder hput
    exact h t a ha
  · rw [if_neg hk]
    exact t.emptiedTo_emptied

mutual

/-- Where a value has been read, only literals that are passed over can be ill-formed. -/
theorem Shape.emptiedTo : (s : Shape) → (room : Nat) → (t : Tree) → (v : s.Value) →
    s.ofTree room t = .ok v → t.EmptiedTo (s.emptied t)
  | .text, _, _, _, h => emptiedTo_of_head_bind ⟨_, rfl⟩ ⟨_, rfl⟩ h
  | .truth, _, _, _, h => emptiedTo_of_head_bind ⟨_, rfl⟩ ⟨_, rfl⟩ h
  | .integer _, _, _, _, h => emptiedTo_of_head_bind ⟨_, rfl⟩ ⟨_, rfl⟩ h
  | @Shape.word α _, _, _, _, h => emptiedTo_of_wordOfTree α h
  | .json, _, t, _, h => by
    obtain ⟨j, hj, -⟩ := ok_of_bind h
    exact emptiedTo_of_document t hj
  | .list item, _, _, _, h => emptiedTo_of_listOfTree item.emptiedTo h
  | .record name fields, room, t, v, h => by
    cases t with
    | object ms =>
      cases room with
      | zero => cases h
      | succ room =>
        obtain ⟨final, hfold, -⟩ := ok_of_bind h
        exact emptiedTo_of_foldlM (fields.emptiedTo_value room) hfold
    | array ts =>
      cases room with
      | zero => cases h
      | succ room => exact emptiedTo_array (fields.emptiedTo_items name fields.size room ts 0 v h)
    | _ => exact absurd h wrongTree_ne_ok
  | .wrapped key item, room, t, v, h => by
    cases t with
    | object ms =>
      cases room with
      | zero => cases h
      | succ room =>
        obtain ⟨final, hfold, -⟩ := ok_of_bind h
        refine emptiedTo_of_foldlM (emptiedTo_of_putUnder fun t list hlist => ?_) hfold
        exact emptiedTo_of_orNullOfTree (keepsNull_emptiedList item.emptied)
          (fun t _ => emptiedTo_of_listOfTree item.emptiedTo) hlist
    | array ts =>
      cases room with
      | zero => cases h
      | succ room =>
        obtain ⟨vs, hvs, -⟩ := ok_of_bind h
        exact emptiedTo_of_mapM (item.emptiedTo room) hvs
    | _ => exact absurd h wrongTree_ne_ok

theorem Field.emptiedTo : (f : Field) → (room : Nat) → (t : Tree) → (v : f.Value) →
    f.ofTree room t = .ok v → t.EmptiedTo (f.emptied t)
  | .required shape, room, t, v, h => shape.emptiedTo room t v h
  | .nullable shape, room, _, _, h =>
    emptiedTo_of_orNullOfTree shape.keepsNull_emptied (shape.emptiedTo room) h
  | .optional shape, room, _, _, h =>
    emptiedTo_of_orNullOfTree shape.keepsNull_emptied (shape.emptiedTo room) h
  | .sparse shape, room, _, _, h =>
    emptiedTo_of_orNullOfTree shape.keepsNull_emptied (shape.emptiedTo room) h
  | .flag, _, _, _, h => by
    obtain ⟨found, hfound, -⟩ := ok_of_bind h
    refine emptiedTo_of_orNullOfTree (fun t => Iff.rfl) (fun t b hb => ?_) hfound
    exact emptiedTo_of_head_bind ⟨_, rfl⟩ ⟨_, rfl⟩ hb
  | .listing item, _, _, _, h => emptiedTo_of_listOfTree item.emptiedTo h

theorem Fields.emptiedTo_value : (fs : Fields) → (room : Nat) → (k : String) → (t : Tree) →
    (found found' : fs.Filling) → fs.putTree room k t found = .ok found' →
    t.EmptiedTo (fs.emptiedValue k t)
  | .nil, _, _, t, _, _, _ => t.emptiedTo_emptied
  | .cons key field rest, room, k, t, (found, more), _, h => by
    by_cases hk : k = key
    · subst hk
      rw [Fields.putTree_self] at h
      obtain ⟨_, htake, -⟩ := ok_of_map h
      obtain ⟨v, hv⟩ := ok_of_takeUnder htake
      rw [Fields.emptiedValue, if_pos rfl]
      exact field.emptiedTo room t v hv
    · rw [Fields.putTree_other hk] at h
      obtain ⟨more', hmore, -⟩ := ok_of_map h
      rw [Fields.emptiedValue, if_neg hk]
      exact rest.emptiedTo_value room k t more more' hmore

theorem Fields.emptiedTo_items (name : String) (size room : Nat) : (fs : Fields) → (ts : List Tree) →
    (index : Nat) → (vs : fs.Values) → fs.ofTrees name size room ts index = .ok vs →
    List.Forall₂ EmptiedTo ts (fs.emptiedItems ts)
  | .nil, [], _, _, _ => .nil
  | .nil, _ :: _, _, _, h => nomatch h
  | .cons _ _ _, [], _, _, _ => .nil
  | .cons _ field rest, t :: ts, index, _, h => by
    obtain ⟨v, hv, hrest⟩ := ok_of_bind h
    obtain ⟨vs, hvs, -⟩ := ok_of_bind hrest
    exact .cons (field.emptiedTo room t v hv) (rest.emptiedTo_items name size room ts (index + 1) vs hvs)

end

/-! ## 4. Bytes and texts -/

theorem wellFormed_token {tokens tokens' : List Bytes} (h : List.Forall₂ KeptOrEmptied tokens tokens') :
    ∀ token ∈ tokens', Utf8.WellFormed token := by
  induction h with
  | nil => exact nofun
  | cons htoken _ ih => exact List.forall_mem_cons.2 ⟨htoken.wellFormed, ih⟩

/-- Bytes that are decoded spell a tree whose literals, where they are passed over, may be emptied, and then
the bytes are those of a text that is decoded as the same value. -/
theorem decodeBytes_emptied {α : Type} [Wire α] {bytes : Bytes} {a : α}
    (h : decodeBytes α bytes = .ok a) :
    ∃ (t : Tree) (gaps : List Bytes) (trail : Bytes), gaps.length = t.tokens.length ∧
      (∀ gap ∈ gaps, Blank gap) ∧ Blank trail ∧ bytes = spaced gaps t.tokens ++ trail ∧
      t.EmptiedTo ((Wire.shape α).emptied t) ∧
      ∃ text : String,
        text.toUTF8.data.toList = spaced gaps ((Wire.shape α).emptied t).tokens ++ trail ∧
        decode α text = .ok a := by
  obtain ⟨t, ⟨front, trail, rfl, hfront, htrail⟩, ht⟩ := decodeBytes_iff.1 h
  obtain ⟨gaps, hlength, hgaps, rfl⟩ := hfront.exists_gaps
  -- The tokens change one by one, so the same gaps fit between them.
  have hemptied := (Wire.shape α).emptiedTo depthLimit t (Wire.pack a) ht
  have hlaid : Laid ((Wire.shape α).emptied t).tokens (spaced gaps ((Wire.shape α).emptied t).tokens) :=
    laid_spaced (hlength.trans hemptied.length_eq) hgaps
  obtain ⟨s, hs⟩ := (wellFormed_spaced hgaps (wellFormed_token hemptied)).append
    (ascii_blank htrail).wellFormed
  have hbytes : Utf8.encode (String.ofList s).toList =
      spaced gaps ((Wire.shape α).emptied t).tokens ++ trail := by
    rw [String.toList_ofList, hs]
  refine ⟨t, gaps, trail, hlength, hgaps, htrail, rfl, hemptied, String.ofList s, ?_, ?_⟩
  · rw [← Utf8.encode_toList, hbytes]
  · rw [decode, hbytes]
    refine decodeBytes_iff.2 ⟨_, ⟨_, trail, rfl, hlaid, htrail⟩, ?_⟩
    rw [(Wire.shape α).ofTree_emptied, ht]

/-- Bytes that are decoded as an arbitrary document are those of a text. -/
theorem wellFormed_of_decodeBytes {bytes : Bytes} {j : CanonicalJson}
    (h : decodeBytes CanonicalJson bytes = .ok j) : Utf8.WellFormed bytes := by
  obtain ⟨t, ⟨front, trail, rfl, hfront, htrail⟩, ht⟩ := decodeBytes_iff.1 h
  obtain ⟨gaps, -, hgaps, rfl⟩ := hfront.exists_gaps
  obtain ⟨doc, hdoc, -⟩ := ok_of_bind ht
  exact (wellFormed_spaced hgaps (wellFormed_token (emptiedTo_of_document t hdoc))).append
    (ascii_blank htrail).wellFormed

/-- The bytes of a text are decoded as the text is, and no literal in them is refused for not being UTF-8.
Bytes that are not those of a text are refused as an arbitrary document. Where they are decoded as records
they are ill-formed only in literals of values under unknown keys, and with these emptied they are the bytes
of a text that is decoded as the same value. -/
theorem decodeBytes_text_illFormed :
    (∀ (α : Type) [Wire α] (text : String),
      decodeBytes α text.toUTF8.data.toList = decode α text ∧
        ∀ refusal, decode α text = .error (.json refusal) → refusal.fault ≠ .malformed .codePoint) ∧
    (∀ bytes : Bytes, ¬ bytes.toByteArray.IsValidUTF8 →
      ∃ refusal, decodeBytes CanonicalJson bytes = .error (.json refusal)) ∧
    ∀ (T : PayloadType) (bytes : Bytes) (v : T.Value), decodeBytes T.Value bytes = .ok v →
      ∃ (t : Tree) (gaps : List Bytes) (trail : Bytes), gaps.length = t.tokens.length ∧
        (∀ gap ∈ gaps, Blank gap) ∧ Blank trail ∧ bytes = spaced gaps t.tokens ++ trail ∧
        t.EmptiedTo (T.shape.emptied t) ∧
        ∃ text : String, text.toUTF8.data.toList = spaced gaps (T.shape.emptied t).tokens ++ trail ∧
          decode T.Value text = .ok v := by
  refine ⟨fun α _ text => ⟨?_, fun refusal => decode_fault_ne α⟩, fun bytes hbytes => ?_,
    fun T bytes v => decodeBytes_emptied⟩
  · rw [decode, Utf8.encode_toList]
  · exact decodeBytes_eq_error fun j hj => hbytes (Utf8.wellFormed_iff.1 (wellFormed_of_decodeBytes hj))

/-- Two bytes that are not UTF-8 stand under a key that engines do not have, one of them in a key again. -/
theorem decodeBytes_text_illFormed_engines :
    let bytes : Bytes := Utf8.encode "[\x7b\"name\":\"q\",\"x\":\x7b\"".toList ++ [0xFF] ++
      Utf8.encode "\":[1,\"".toList ++ [0xC3] ++ Utf8.encode "\"]\x7d\x7d]".toList
    let engines : List Response.Engine := [{ name := some "q" }]
    ¬ bytes.toByteArray.IsValidUTF8 ∧
      (∃ refusal, decodeBytes CanonicalJson bytes = .error (.json refusal)) ∧
      decodeBytes (List Response.Engine) bytes = .ok engines ∧
      (∃ text : String, decode (List Response.Engine) text = .ok engines) ∧
      ∃ refusal, decode Response.Engine "\"é" = .error (.json refusal) ∧
        refusal.fault ≠ .malformed .codePoint := by
  intro bytes engines
  have hillFormed : ¬ bytes.toByteArray.IsValidUTF8 := by decide +kernel
  have hdecoded : decodeBytes (List Response.Engine) bytes = .ok engines :=
    toOption_eq_some.1 (by decide +kernel)
  obtain ⟨t, gaps, trail, -, -, -, -, -, text, -, htext⟩ :=
    decodeBytes_text_illFormed.2.2 (.many .engine) bytes engines hdecoded
  have hrefused : ∀ a, decode Response.Engine "\"é" ≠ .ok a := by
    intro a ha
    have hnone : (decode Response.Engine "\"é").toOption = none := by decide +kernel
    rw [ha] at hnone
    cases hnone
  obtain ⟨refusal, hrefusal⟩ := decode_eq_error hrefused
  exact ⟨hillFormed, decodeBytes_text_illFormed.2.1 bytes hillFormed, hdecoded, ⟨text, htext⟩, refusal,
    hrefusal, (decodeBytes_text_illFormed.1 Response.Engine _).2 refusal hrefusal⟩

end MetricCatalog
