import MetricCatalog.Proofs.Schema.Texts
import MetricCatalog.Proofs.Schema.Values

/-!
# Two routes — values from a tree and from its document

A shape takes the same value from a tree as from the document that the tree denotes. The faults differ,
since the two routes ask for things in different orders.
-/

namespace MetricCatalog

open Json Json.Tree Shape

variable {α β σ : Type}

/-! ## 1. Trees that denote a document -/

theorem Json.Tree.head_eq_null {t : Tree} (h : t.head = .ok .null) : t = .null := by
  cases t with
  | null => rfl
  | number n =>
    rcases ok_of_map h with ⟨x, -, hx⟩
    cases hx
  | string l =>
    rcases ok_of_map h with ⟨s, -, hs⟩
    cases hs
  | boolean b => cases h
  | array ts => cases h
  | object ms => cases h

/-- A tree and the document that it denotes have the same front and as many brackets. -/
theorem Json.Tree.document_inv {t : Tree} {room : Nat} {doc : Json} (h : t.document room = .ok doc) :
    (t.head = .ok doc.head ∧ doc.head ≠ .array ∧ doc.head ≠ .object) ∨
      (∃ ts less js, t = .array ts ∧ room = less + 1 ∧ ts.mapM (document less) = .ok js ∧
        doc = .array js) ∨
      ∃ ms less js, t = .object ms ∧ room = less + 1 ∧ ms.mapM (memberDocument less) = .ok js ∧
        doc = .object js := by
  cases t with
  | null =>
    cases h
    refine .inl ⟨rfl, ?_, ?_⟩ <;> (intro hhead; cases hhead)
  | boolean b =>
    cases h
    refine .inl ⟨rfl, ?_, ?_⟩ <;> (intro hhead; cases hhead)
  | number n =>
    rw [Tree.document] at h
    rcases ok_of_map h with ⟨x, hx, rfl⟩
    refine .inl ⟨by rw [Tree.head, hx]; rfl, ?_, ?_⟩ <;> (intro hhead; cases hhead)
  | string l =>
    rw [Tree.document] at h
    rcases ok_of_map h with ⟨s, hs, rfl⟩
    refine .inl ⟨by rw [Tree.head, hs]; rfl, ?_, ?_⟩ <;> (intro hhead; cases hhead)
  | array ts =>
    cases room with
    | zero => cases h
    | succ less =>
      rw [Tree.document, documents_eq_mapM] at h
      rcases ok_of_map h with ⟨js, hjs, rfl⟩
      exact .inr (.inl ⟨ts, less, js, rfl, rfl, hjs, rfl⟩)
  | object ms =>
    cases room with
    | zero => cases h
    | succ less =>
      rw [Tree.document, memberDocuments_eq_mapM] at h
      rcases ok_of_map h with ⟨js, hjs, rfl⟩
      exact .inr (.inr ⟨ms, less, js, rfl, rfl, hjs, rfl⟩)

theorem Json.Tree.memberDocument_inv {room : Nat} {m : List Literal.Piece × Tree} {j : String × Json}
    (h : memberDocument room m = .ok j) : Literal.text m.1 = .ok j.1 ∧ m.2.document room = .ok j.2 := by
  rw [memberDocument] at h
  rcases ok_of_bind h with ⟨key, hkey, hmore⟩
  rcases ok_of_bind hmore with ⟨doc, hdoc, hlast⟩
  cases hlast
  exact ⟨hkey, hdoc⟩

/-- Each member of a tree denotes a member of its document. -/
theorem Json.Tree.exists_member {ms : List (List Literal.Piece × Tree)} {room : Nat}
    {js : List (String × Json)} (h : ms.mapM (memberDocument room) = .ok js)
    {m : List Literal.Piece × Tree} (hm : m ∈ ms) {key : String} (hkey : Literal.text m.1 = .ok key) :
    ∃ j, (key, j) ∈ js ∧ m.2.document room = .ok j := by
  obtain ⟨⟨k, j⟩, hmem, hdoc⟩ := exists_mem_of_mapM h m hm
  obtain ⟨hk, hj⟩ := memberDocument_inv hdoc
  cases hkey.symm.trans hk
  exact ⟨j, hmem, hj⟩

/-- A tree that denotes neither an array nor an object is a scalar, with the document at its front. -/
theorem Json.Tree.isScalar_of_document {t : Tree} {room : Nat} {doc : Json} (h : t.document room = .ok doc)
    (harray : ∀ js, doc ≠ .array js) (hobject : ∀ ms, doc ≠ .object ms) :
    t.IsScalar ∧ t.head = .ok doc.head := by
  obtain ⟨hhead, hnoArray, hnoObject⟩ | ⟨ts, less, js, -, -, -, rfl⟩ | ⟨ms, less, js, -, -, -, rfl⟩ :=
    document_inv h
  · refine ⟨?_, hhead⟩
    obtain hscalar | ⟨ts, rfl⟩ | ⟨ms, rfl⟩ := t.isScalar_or
    · exact hscalar
    · exact absurd (Except.ok.inj hhead).symm hnoArray
    · exact absurd (Except.ok.inj hhead).symm hnoObject
  · exact absurd rfl (harray js)
  · exact absurd rfl (hobject js)

theorem Json.Tree.eq_null_of_document {t : Tree} {room : Nat} (h : t.document room = .ok .null) :
    t = .null :=
  head_eq_null (isScalar_of_document h nofun nofun).2

/-! ## 2. Item by item -/

/-- A list is taken from trees as from their documents. -/
theorem toOption_mapM_document {γ : Type} {d : β → Except Fault γ} {f : β → Except Fault α}
    {g : γ → Option α} (hitem : ∀ x j, d x = .ok j → (f x).toOption = g j) {xs : List β} {js : List γ}
    (h : xs.mapM d = .ok js) :
    (xs.mapM f).toOption = js.mapM g := by
  induction xs generalizing js with
  | nil =>
    cases h
    rfl
  | cons x xs ih =>
    rcases mapM_ok_cons h with ⟨j, more, rfl, hj, hmore⟩
    rw [List.mapM_cons, List.mapM_cons, toOption_bind, hitem x j hj]
    refine congrArg _ (funext fun a => ?_)
    rw [toOption_bind, ih hmore]
    rfl

/-- A state is passed along members as along their documents. -/
theorem toOption_foldlM_document {γ : Type} {d : β → Except Fault γ} {step : σ → β → Except Fault σ}
    {step' : σ → γ → Option σ} (hstep : ∀ s x j, d x = .ok j → (step s x).toOption = step' s j)
    {xs : List β} {js : List γ} (h : xs.mapM d = .ok js) (s : σ) :
    (xs.foldlM step s).toOption = js.foldlM step' s := by
  induction xs generalizing js s with
  | nil =>
    cases h
    rfl
  | cons x xs ih =>
    rcases mapM_ok_cons h with ⟨j, more, rfl, hj, hmore⟩
    rw [List.foldlM_cons, List.foldlM_cons, toOption_bind, hstep s x j hj]
    exact congrArg _ (funext fun s => ih hmore s)

/-! ## 3. Scalars, null and words -/

theorem toOption_wrongTree (t : Tree) (wanted : Wanted) :
    (wrongTree t wanted : Except Fault α).toOption = none := by
  rw [wrongTree]
  cases t.head <;> rfl

theorem wrongTree_ne_ok {t : Tree} {wanted : Wanted} {a : α} : wrongTree t wanted ≠ .ok a := by
  intro h
  have hnone := toOption_wrongTree (α := α) t wanted
  rw [h] at hnone
  cases hnone

/-- Where only a scalar will do, the front of the value decides. -/
theorem toOption_head_bind {k : Head → Except Fault α} {f : Json → Except Fault α}
    (hk : ∀ doc : Json, (k doc.head).toOption = (f doc).toOption) {t : Tree} {room : Nat} {doc : Json}
    (h : t.document room = .ok doc) : (t.head >>= k).toOption = (f doc).toOption := by
  rw [← hk]
  rcases document_inv h with ⟨hhead, -⟩ | ⟨ts, less, js, rfl, -, -, rfl⟩ |
    ⟨ms, less, js, rfl, -, -, rfl⟩
  · rw [hhead]
    rfl
  · rfl
  · rfl

theorem toOption_headText (doc : Json) : (headText doc.head).toOption = (textOf doc).toOption := by
  cases doc <;> rfl

theorem toOption_headTruth (doc : Json) : (headTruth doc.head).toOption = (truthOf doc).toOption := by
  cases doc <;> rfl

theorem toOption_headNull (doc : Json) : (headNull doc.head).toOption = (nullOf doc).toOption := by
  cases doc <;> rfl

theorem toOption_headInteger (width : Width) (doc : Json) :
    (headInteger width doc.head).toOption = (integerOf width doc).toOption := by
  rcases doc with _ | _ | (i | _) | _ | _ | _
  case number.int =>
    show (headInteger width (.number (.int i))).toOption = (integerOf width (.number (.int i))).toOption
    unfold headInteger integerOf
    cases IntBetween.ofInt? width.lo width.hi i.val <;> rfl
  all_goals rfl

theorem toOption_orNullOfTree {value : Tree → Except Fault α} {value' : Json → Except Fault α}
    {t : Tree} {room : Nat} {doc : Json} (h : t.document room = .ok doc)
    (hvalue : (value t).toOption = (value' doc).toOption) :
    (orNullOfTree value t).toOption = (orNullOf value' doc).toOption := by
  by_cases ht : t = .null
  · subst ht
    cases h
    rfl
  · -- A document that is null could only have come from null.
    have hdoc : doc ≠ .null := by
      rintro rfl
      rcases document_inv h with ⟨hhead, -⟩ | ⟨_, _, _, -, -, -, hdoc⟩ | ⟨_, _, _, -, -, -, hdoc⟩
      · exact ht (head_eq_null hhead)
      · cases hdoc
      · cases hdoc
    have htree : orNullOfTree value t = value t >>= fun v => .ok (some v) := by
      cases t with
      | null => exact absurd rfl ht
      | _ => rfl
    have hjson : orNullOf value' doc = value' doc >>= fun v => .ok (some v) := by
      cases doc with
      | null => exact absurd rfl hdoc
      | _ => rfl
    rw [htree, hjson, toOption_bind, toOption_bind, hvalue]

theorem toOption_listOfTree {item : Nat → Tree → Except Fault α} {item' : Json → Except Fault α}
    (hitem : ∀ room t doc, t.document room = .ok doc → (item room t).toOption = (item' doc).toOption)
    {t : Tree} {room : Nat} {doc : Json} (h : t.document room = .ok doc) :
    (listOfTree room item t).toOption = (listOf item' doc).toOption := by
  rcases document_inv h with ⟨hhead, harray, -⟩ | ⟨ts, less, js, rfl, rfl, hjs, rfl⟩ |
    ⟨ms, less, js, rfl, rfl, -, rfl⟩
  · -- A scalar is refused on both routes, whichever it is.
    have htree : listOfTree room item t = wrongTree t .array := by
      cases t with
      | array ts => exact absurd (Except.ok.inj hhead).symm harray
      | _ => rfl
    have hjson : listOf item' doc = wrongType doc .array := by
      cases doc with
      | array js => exact absurd rfl harray
      | _ => rfl
    rw [htree, hjson, toOption_wrongTree]
    rfl
  · show (ts.mapM (item less)).toOption = (js.mapM item').toOption
    rw [toOption_mapM_document (hitem less) hjs, toOption_mapM]
  · rfl

theorem toOption_wordOfTree (α : Type) [Vocabulary α] {t : Tree} {room : Nat} {doc : Json}
    (h : t.document room = .ok doc) : (wordOfTree α room t).toOption = (wordOf α doc).toOption := by
  rcases document_inv h with ⟨hhead, harray, hobject⟩ | ⟨ts, less, js, rfl, rfl, -, rfl⟩ |
    ⟨ms, less, js, rfl, rfl, hjs, rfl⟩
  · cases t with
    | null =>
      cases h
      rfl
    | boolean b =>
      cases h
      rfl
    | number n =>
      cases doc with
      | string s =>
        rcases ok_of_map hhead with ⟨x, -, hx⟩
        cases hx
      | object js => exact absurd rfl hobject
      | _ => rfl
    | string l =>
      rw [Tree.document] at h
      rcases ok_of_map h with ⟨s, hs, rfl⟩
      show (Literal.text l >>= spellingOf α).toOption = (spellingOf α s).toOption
      rw [hs]
      rfl
    | array ts => exact absurd (Except.ok.inj hhead).symm harray
    | object ms => exact absurd (Except.ok.inj hhead).symm hobject
  · rfl
  · cases ms with
    | nil =>
      cases hjs
      rfl
    | cons m ms =>
      -- The word is the key of the first member; further members are refused on either route.
      rcases mapM_ok_cons hjs with ⟨j, more, rfl, hj, hmore⟩
      rcases memberDocument_inv hj with ⟨hk, hvalue⟩
      have hnull := toOption_head_bind toOption_headNull hvalue
      show (Literal.text m.1 >>= fun word => spellingOf α word >>= fun a => m.2.head >>= fun found =>
        headNull found >>= fun _ =>
          if ms.isEmpty then .ok a else .error (.malformed .valueWanted)).toOption = _
      rw [hk]
      show (spellingOf α j.1 >>= fun a => m.2.head >>= fun found =>
        headNull found >>= fun _ =>
          if ms.isEmpty then .ok a else .error (.malformed .valueWanted)).toOption = _
      cases ms with
      | nil =>
        cases hmore
        show (spellingOf α j.1 >>= fun a => m.2.head >>= fun found =>
          headNull found >>= fun _ => .ok a).toOption =
          (spellingOf α j.1 >>= fun a => nullOf j.2 >>= fun _ => .ok a).toOption
        rw [toOption_bind, toOption_bind]
        refine congrArg _ (funext fun a => ?_)
        rw [← bind_assoc, toOption_bind (m.2.head >>= headNull), hnull, toOption_bind (nullOf j.2)]
      | cons m' ms =>
        rcases mapM_ok_cons hmore with ⟨j', more, rfl, -, -⟩
        show (spellingOf α j.1 >>= fun a => m.2.head >>= fun found =>
          headNull found >>= fun _ => .error (.malformed .valueWanted)).toOption = none
        rw [toOption_bind]
        refine (congrArg _ (funext fun a => ?_)).trans (Option.bind_fun_none _)
        rw [← bind_assoc, toOption_bind]
        exact Option.bind_fun_none _

/-! ## 4. All shapes -/

theorem toOption_takeUnder (key : String) (found : Option α) {x y : Except Fault α}
    (h : x.toOption = y.toOption) :
    (takeUnder key found x).toOption = (takeUnder key found y).toOption := by
  cases found with
  | some a => rfl
  | none =>
    show (x >>= fun a => .ok (some a)).toOption = (y >>= fun a => .ok (some a)).toOption
    rw [toOption_bind, toOption_bind, h]

theorem toOption_ite_takeUnder {k key : String} {x y : Except Fault α} (h : x.toOption = y.toOption)
    (found : Option α) :
    (if k = key then takeUnder key found x else .ok found).toOption =
      (if k = key then takeUnder key found y else .ok found).toOption := by
  by_cases hk : k = key
  · rw [if_pos hk, if_pos hk, toOption_takeUnder key found h]
  · rw [if_neg hk, if_neg hk]

mutual

/-- A shape takes the same value from a tree as from its document, by recursion on the shape. -/
theorem Shape.toOption_ofTree : (s : Shape) → (room : Nat) → (t : Tree) → (doc : Json) →
    t.document room = .ok doc → (s.ofTree room t).toOption = (s.ofJson doc).toOption
  | .text, _, _, _, h => toOption_head_bind toOption_headText h
  | .truth, _, _, _, h => toOption_head_bind toOption_headTruth h
  | .integer width, _, _, _, h => toOption_head_bind (toOption_headInteger width) h
  | @Shape.word α _, _, _, _, h => toOption_wordOfTree α h
  | .json, room, t, doc, h => by
    show (t.document room >>= fun doc => .ok doc.canonicalize).toOption = some doc.canonicalize
    rw [h]
    rfl
  | .list item, _, _, _, h => toOption_listOfTree item.toOption_ofTree h
  | .record name fields, room, t, doc, h => by
    rcases document_inv h with ⟨hhead, harray, hobject⟩ | ⟨ts, less, js, rfl, rfl, hjs, rfl⟩ |
      ⟨ms, less, js, rfl, rfl, hjs, rfl⟩
    · have htree : (Shape.record name fields).ofTree room t = wrongTree t (.record name) := by
        cases t with
        | array ts => exact absurd (Except.ok.inj hhead).symm harray
        | object ms => exact absurd (Except.ok.inj hhead).symm hobject
        | _ => rfl
      rw [htree, toOption_wrongTree]
      cases doc with
      | array js => exact absurd rfl harray
      | object js => exact absurd rfl hobject
      | _ => rfl
    · exact fields.toOption_ofTrees name fields.size less js.length 0 hjs
    · -- Members are put into their fields one after the other on both routes.
      have hstep : ∀ (found : fields.Filling) (m : List Literal.Piece × Tree) (j : String × Json),
          memberDocument less m = .ok j →
          (Literal.text m.1 >>= fun k => fields.putTree less k m.2 found).toOption =
            (fields.put j.1 j.2 found).toOption := by
        intro found m j hm
        rcases memberDocument_inv hm with ⟨hk, hvalue⟩
        rw [hk]
        exact fields.toOption_putTree less j.1 found hvalue
      have hfold := (toOption_foldlM_document hstep hjs fields.unfilled).trans
        (toOption_foldlM _ _ _).symm
      refine (toOption_bind _ _).trans (Eq.trans ?_ (toOption_bind _ _).symm)
      rw [hfold]
      refine congrArg _ (funext fun found => ?_)
      cases fields.finish found <;> rfl
  | .wrapped key item, room, t, doc, h => by
    rcases document_inv h with ⟨hhead, harray, hobject⟩ | ⟨ts, less, js, rfl, rfl, hjs, rfl⟩ |
      ⟨ms, less, js, rfl, rfl, hjs, rfl⟩
    · have htree : (Shape.wrapped key item).ofTree room t = wrongTree t (.listOrObject key) := by
        cases t with
        | array ts => exact absurd (Except.ok.inj hhead).symm harray
        | object ms => exact absurd (Except.ok.inj hhead).symm hobject
        | _ => rfl
      rw [htree, toOption_wrongTree]
      cases doc with
      | array js => exact absurd rfl harray
      | object js => exact absurd rfl hobject
      | _ => rfl
    · have hitems :=
        (toOption_mapM_document (item.toOption_ofTree less) hjs).trans (toOption_mapM _ _).symm
      refine (toOption_bind _ _).trans (Eq.trans ?_ (toOption_bind _ _).symm)
      rw [hitems]
    · have hstep :
          ∀ (found : Option (Option (List item.Value))) (m : List Literal.Piece × Tree)
            (j : String × Json), memberDocument less m = .ok j →
          (Literal.text m.1 >>= fun k =>
            if k = key then
              takeUnder key found (orNullOfTree (listOfTree less fun room => item.ofTree room) m.2)
            else .ok found).toOption =
          (if j.1 = key then takeUnder key found (orNullOf (listOf item.ofJson) j.2)
            else .ok found).toOption := by
        intro found m j hm
        rcases memberDocument_inv hm with ⟨hk, hvalue⟩
        have hlist : (orNullOfTree (listOfTree less fun room => item.ofTree room) m.2).toOption =
            (orNullOf (listOf item.ofJson) j.2).toOption :=
          toOption_orNullOfTree hvalue (toOption_listOfTree item.toOption_ofTree hvalue)
        rw [hk]
        exact toOption_ite_takeUnder hlist found
      have hfold := (toOption_foldlM_document hstep hjs none).trans (toOption_foldlM _ _ _).symm
      refine (toOption_bind _ _).trans (Eq.trans ?_ (toOption_bind _ _).symm)
      exact congrArg (Option.bind · _) hfold

theorem Field.toOption_ofTree : (f : Field) → (room : Nat) → (t : Tree) → (doc : Json) →
    t.document room = .ok doc → (f.ofTree room t).toOption = (f.ofJson doc).toOption
  | .required shape, room, t, doc, h => shape.toOption_ofTree room t doc h
  | .nullable shape, room, t, doc, h => toOption_orNullOfTree h (shape.toOption_ofTree room t doc h)
  | .optional shape, room, t, doc, h => toOption_orNullOfTree h (shape.toOption_ofTree room t doc h)
  | .sparse shape, room, t, doc, h => toOption_orNullOfTree h (shape.toOption_ofTree room t doc h)
  | .flag, room, t, doc, h => by
    have htruth := @toOption_orNullOfTree _ (fun t => t.head >>= headTruth) _ _ _ _ h
      (toOption_head_bind toOption_headTruth h)
    refine (toOption_bind _ _).trans (Eq.trans ?_ (toOption_bind _ _).symm)
    exact congrArg (Option.bind · _) htruth
  | .listing item, _, _, _, h => toOption_listOfTree item.toOption_ofTree h

theorem Fields.toOption_putTree : (fs : Fields) → (room : Nat) → (k : String) → (found : fs.Filling) →
    {t : Tree} → {doc : Json} → t.document room = .ok doc →
    (fs.putTree room k t found).toOption = (fs.put k doc found).toOption
  | .nil, _, _, _, _, _, _ => rfl
  | .cons key field rest, room, k, (found, more), t, doc, h => by
    by_cases hk : k = key
    · subst hk
      rw [Fields.putTree_self, Fields.toOption_put_self]
      refine (toOption_map _ _).trans (congrArg _ ?_)
      exact toOption_takeUnder k found (field.toOption_ofTree room t doc h)
    · rw [Fields.putTree_other hk, Fields.toOption_put_other hk]
      exact (toOption_map _ _).trans (congrArg _ (rest.toOption_putTree room k more h))

theorem Fields.toOption_ofTrees (name : String) (size room count : Nat) :
    (fs : Fields) → (index : Nat) → {ts : List Tree} → {js : List Json} →
    ts.mapM (document room) = .ok js →
    (fs.ofTrees name size room ts index).toOption = (fs.ofItems name size count js index).toOption
  | .nil, index, [], _, h => by
    cases h
    rfl
  | .nil, index, t :: ts, _, h => by
    rcases mapM_ok_cons h with ⟨j, more, rfl, -, -⟩
    rfl
  | .cons _ field rest, index, [], _, h => by
    cases h
    rfl
  | .cons _ field rest, index, t :: ts, _, h => by
    rcases mapM_ok_cons h with ⟨j, more, rfl, hj, hmore⟩
    refine (toOption_bind _ _).trans (Eq.trans ?_ (toOption_bind _ _).symm)
    rw [field.toOption_ofTree room t j hj]
    refine congrArg _ (funext fun v => ?_)
    refine (toOption_bind _ _).trans (Eq.trans ?_ (toOption_bind _ _).symm)
    rw [rest.toOption_ofTrees name size room count (index + 1) hmore]

end

/-! ## 5. Texts that have been parsed -/

variable [Wire α]

/-- What a parsed text is decoded as is what the shape takes from its document. -/
theorem decode_eq_ok {text : String} {doc : Json} (h : parse text = .ok doc) {a : α} :
    decode α text = .ok a ↔ (Wire.shape α).value? doc = some (Wire.pack a) := by
  rcases parse_eq_ok.1 h with ⟨t, hspells, hdocument⟩
  rw [decode, decodeBytes_spells hspells, ← toOption_eq_some,
    (Wire.shape α).toOption_ofTree _ t doc hdocument, Shape.value?]

theorem decodeJson_eq_ok {doc : Json} {a : α} :
    decodeJson α doc = .ok a ↔ (Wire.shape α).value? doc = some (Wire.pack a) := by
  rw [Shape.value?, toOption_eq_some]
  unfold decodeJson Wire.ofJson
  cases (Wire.shape α).ofJson doc with
  | error e => exact ⟨nofun, nofun⟩
  | ok v =>
    constructor
    · intro h
      cases h
      rw [Wire.pack_unpack]
    · intro h
      cases h
      show Except.ok (Wire.unpack (Wire.pack a)) = _
      rw [Wire.unpack_pack]

/-- Bytes are either decoded or refused as JSON. -/
theorem decodeBytes_eq_error {bytes : Bytes} (h : ∀ a, decodeBytes α bytes ≠ .ok a) :
    ∃ refusal, decodeBytes α bytes = .error (.json refusal) := by
  unfold decodeBytes at h ⊢
  cases hrun : Scan.run ((Wire.shape α).read Scan.depthLimit) bytes with
  | error r => exact ⟨r, rfl⟩
  | ok v =>
    rw [hrun] at h
    exact absurd rfl (h (Wire.unpack v))

theorem decode_eq_error {text : String} (h : ∀ a, decode α text ≠ .ok a) :
    ∃ refusal, decode α text = .error (.json refusal) :=
  decodeBytes_eq_error h

end MetricCatalog
