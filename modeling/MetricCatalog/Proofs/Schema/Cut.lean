import MetricCatalog.Proofs.Json.CutDocument
import MetricCatalog.Proofs.Schema.Accepted
import MetricCatalog.Proofs.Schema.RoundTrip

/-!
# Cut records — where the document of a value is cut off

The document of a value has members only under known keys and no doubles outside of arbitrary JSON. So
wherever a text that spells it is cut, reading it as a value of the shape stops at the end of the text, by
recursion on the shape.
-/

namespace MetricCatalog

open Json Json.Scan Json.Tree Shape

variable {α β : Type}

/-! ## 1. Scalars -/

/-- Where a scalar is asked for, a cut one is none yet, unless it is an integer that will do as well. -/
theorem cuts_head_bind {k : Head → Scan α} {t : Tree} {room : Nat} {doc : Json}
    (h : t.document room = .ok doc) (harray : ∀ js, doc ≠ .array js) (hobject : ∀ ms, doc ≠ .object ms)
    (hfloat : doc.FloatFree)
    (hk : ∀ i i' : Integer, doc = .number (.int i) → i'.Within i →
      Stops (outcome (k (.number (.int i'))) [])) :
    Cuts (Scan.head >>= k) t.tokens := by
  intro q s hq hs
  obtain ⟨hscalar, hhead⟩ := isScalar_of_document h harray hobject
  have hnofloat : ∀ x, doc.head ≠ .number (.float x) := by
    intro x hx
    cases doc with
    | number n =>
      cases hx
      exact hfloat
    | _ => cases hx
  obtain hended | ⟨i, i', hfound, hread, hwithin⟩ := cut_head hscalar hhead hnofloat hq hs
  · exact .inl (hended.bind k)
  · have hdoc : doc = .number (.int i) := by
      cases doc with
      | number n =>
        cases hfound
        rfl
      | _ => cases hfound
    rw [outcome_seq hread]
    exact hk i i' hdoc hwithin

theorem cuts_readText {t : Tree} {room : Nat} {text : String} (h : t.document room = .ok (.string text)) :
    Cuts readText t.tokens := by
  refine cuts_head_bind h nofun nofun trivial fun i i' hi _ => ?_
  cases hi

theorem cuts_readTruth {t : Tree} {room : Nat} {b : Bool} (h : t.document room = .ok (.boolean b)) :
    Cuts readTruth t.tokens := by
  refine cuts_head_bind h nofun nofun trivial fun i i' hi _ => ?_
  cases hi

/-- Every width holds zero, so with an integer it holds all that lie between. -/
theorem ofInt?_within {width : Width} {i : width.Integer} {i' : Integer}
    (h : i'.Within (width.toInteger i)) :
    ∃ n, IntBetween.ofInt? width.lo width.hi i'.val = some n := by
  have hval := width.val_toInteger i
  have hlo := i.lo_le
  have hhi := i.lt_hi
  have hzero : width.lo ≤ 0 ∧ 0 < width.hi := by cases width <;> decide
  have hbounds : width.lo ≤ i'.val ∧ i'.val < width.hi := by
    obtain ⟨h0, hle⟩ | ⟨hle, h0⟩ := h
    · rw [hval] at hle
      omega
    · rw [hval] at hle
      omega
  exact ⟨⟨i'.val, hbounds.1, hbounds.2⟩, dif_pos hbounds⟩

theorem cuts_readInteger {width : Width} {i : width.Integer} {t : Tree} {room : Nat}
    (h : t.document room = .ok (.number (.int (width.toInteger i)))) :
    Cuts (readInteger width) t.tokens := by
  refine cuts_head_bind h nofun nofun trivial fun j i' hj hwithin => ?_
  cases hj
  obtain ⟨n, hn⟩ := ofInt?_within hwithin
  refine .inr ⟨n, ?_⟩
  simp only [hn]
  rfl

theorem cuts_readWord (α : Type) [Vocabulary α] {t : Tree} {room : Nat} {word : String}
    (h : t.document room = .ok (.string word)) : Cuts (readWord α room) t.tokens := by
  intro q s hq hs
  obtain ⟨hscalar, hhead⟩ := isScalar_of_document h nofun nofun
  cases t with
  | string l =>
    obtain ⟨text, htext, -⟩ := ok_of_map hhead
    rw [readWord]
    obtain hnone | ⟨q', s', hnext, hinside, hs'⟩ := Laid.cut_last (b := 0x22) hq hs rfl
    · rw [outcome_seq hnone]
      exact .inl ⟨_, rfl⟩
    · rw [outcome_seq hnext]
      change Stops (outcome (readSpelling α) q')
      rw [readSpelling]
      exact .inl ((Literal.ended_read htext hinside hs').bind _)
  | number n =>
    obtain ⟨x, -, hx⟩ := ok_of_map hhead
    cases hx
  | null => cases hhead
  | boolean b => cases hhead
  | array ts => exact hscalar.elim
  | object ms => exact hscalar.elim

/-- Null that is cut has ended too early, and any other value stops where it does by itself. -/
theorem cuts_orNull {scan : Scan α} {t : Tree} (hnil : Ended (outcome scan []))
    (h : t ≠ .null → Cuts scan t.tokens) : Cuts (orNull scan) t.tokens := by
  intro q s hq hs
  by_cases ht : t = .null
  · subst ht
    refine .inl ?_
    rw [orNull]
    obtain hnone | ⟨q', s', hnext, hletters, hs'⟩ := Laid.cut_last hq hs rfl
    · rw [outcome_seq hnone]
      exact hnil.bind _
    · rw [outcome_seq hnext]
      exact ended_name rfl hletters hs' none 0x6E
  · obtain ⟨b, bs, more, htokens, hblank, hb⟩ := tokens_eq_cons_of_ne_null ht
    have hcuts := h ht
    rw [htokens] at hq hcuts
    rw [orNull]
    obtain hnone | ⟨q', front, hnext, heq, hfront⟩ := hq.cut_next hblank
    · rw [outcome_seq hnone]
      exact .inl (hnil.bind _)
    · -- The blanks in front have been read by now.
      have hlaid : Laid ((b :: bs) :: more) ((b :: q') ++ s) := by
        rw [List.cons_append, heq, ← List.cons_append]
        exact .cons blank_nil hfront
      rw [outcome_seq hnext, if_neg fun hn => hb (Option.some.inj hn)]
      exact (hcuts (b :: q') s hlaid hs).bind fun _ => .inr ⟨_, rfl⟩

/-! ## 2. Brackets -/

/-- From a tree that denotes the document of a value, the value is taken with the fields unset that are set
to null. -/
theorem Shape.ofTree_toJson {s : Shape} (hs : s.Distinct) {room : Nat} {t : Tree} {v : s.Value}
    (h : t.document room = .ok (s.toJson v)) : s.ofTree room t = .ok (s.collapse v) := by
  rw [← toOption_eq_some, s.toOption_ofTree room t _ h]
  exact s.value?_toJson hs v

theorem Shape.ended_read_nil (s : Shape) (room : Nat) : Ended (outcome (s.read room) []) := by
  cases s with
  | json => cases room <;> exact ⟨_, rfl⟩
  | _ => exact ⟨_, rfl⟩

/-- A list whose items stop where they are cut. -/
theorem cuts_list (item : Shape) (hs : item.Distinct)
    (hitem : ∀ (room : Nat) (t : Tree) (v : item.Value), t.document room = .ok (item.toJson v) →
      (item.toJson v).FloatFree → Cuts (item.read room) t.tokens) {room : Nat} {t : Tree}
    {vs : List item.Value} (h : t.document room = .ok (.array (vs.map item.toJson)))
    (hfloat : FloatFreeItems (vs.map item.toJson)) :
    Cuts (readList room fun room => item.read room) t.tokens := by
  have hvalue : (Shape.list item).ofTree room t = .ok ((Shape.list item).collapse vs) :=
    Shape.ofTree_toJson (s := .list item) hs h
  obtain ⟨-, harray, -⟩ | ⟨ts, less, js, rfl, rfl, hjs, hdoc⟩ | ⟨ms, less, js, -, -, -, hdoc⟩ :=
    document_inv h
  · exact absurd rfl harray
  · cases hdoc
    have hcuts : ∀ t ∈ ts, ∀ a, item.ofTree less t = .ok a → Cuts (item.read less) t.tokens := by
      intro t ht a _
      obtain ⟨j, hj, hdoc⟩ := exists_mem_of_mapM hjs t ht
      obtain ⟨v, -, rfl⟩ := List.mem_map.1 hj
      exact hitem less t v hdoc (FloatFreeItems.forall hfloat _ hj)
    have hitems := cutsShort_items (fun t _ => item.reads less t) hcuts hvalue
    exact (cutsShort_array hitems fun q => outcome_enclosed (less + 1) _ 0x5B q).cuts
  · cases hdoc

/-- The value under a key that has not been found before. -/
theorem cuts_readUnder {value : Scan α} {t : Tree} (key : String) (h : Cuts value t.tokens) :
    Cuts (readUnder key none value) ([0x3A] :: t.tokens) :=
  cuts_colon (h.map some)

/-- The one member of a document with a list under its only key. -/
theorem cutsMember_wrapped {value : Scan α} {key : String} {m : List Literal.Piece × Tree}
    (hkey : Literal.text m.1 = .ok key) (hvalue : Cuts value m.2.tokens)
    {value' : Tree → Except Fault α} {found found' : Option α}
    (h : takeMember key value' found m = .ok found') : CutsMember (readMember key value found) m := by
  obtain ⟨k, hk, htake⟩ := ok_of_bind h
  cases hkey.symm.trans hk
  rw [if_pos rfl] at htake
  cases takeUnder_eq_ok htake
  refine cutsMember_literal hkey ?_
  rw [if_pos rfl]
  exact cuts_readUnder key hvalue

theorem Fields.mem_toMembers_cons {key : String} {field : Field} {rest : Fields} {v : field.Value}
    {more : rest.Values} {k : String} {j : Json}
    (h : (k, j) ∈ (Fields.cons key field rest).toMembers (v, more)) :
    (k = key ∧ field.toJson? v = some j) ∨ (k, j) ∈ rest.toMembers more := by
  rw [Fields.toMembers] at h
  cases hj : field.toJson? v with
  | none =>
    rw [hj] at h
    exact .inr h
  | some j' =>
    rw [hj] at h
    obtain hfirst | hmore := List.mem_cons.1 h
    · cases hfirst
      exact .inl ⟨rfl, rfl⟩
    · exact .inr hmore

mutual

/-- Wherever a tree that denotes the document of a value is cut, reading a value of the shape stops at the
end of the text. -/
theorem Shape.cuts : (s : Shape) → s.Distinct → (room : Nat) → (t : Tree) → (v : s.Value) →
    t.document room = .ok (s.toJson v) → (s.toJson v).FloatFree → Cuts (s.read room) t.tokens
  | .text, _, _, _, _, h, _ => cuts_readText h
  | .truth, _, _, _, _, h, _ => cuts_readTruth h
  | .integer _, _, _, _, _, h, _ => cuts_readInteger h
  | @Shape.word α _, _, _, _, _, h, _ => cuts_readWord α h
  | .json, _, _, t, _, h, hfloat => (cuts_read t h hfloat).map Json.canonicalize
  | .list item, hs, _, _, _, h, hfloat => cuts_list item hs (item.cuts hs) h hfloat
  | .record name fields, hs, room, t, vs, h, hfloat => by
    have hvalue : (Shape.record name fields).ofTree room t = .ok (fields.collapse vs) :=
      Shape.ofTree_toJson hs h
    obtain ⟨-, -, hobject⟩ | ⟨ts, less, js, -, -, -, hdoc⟩ | ⟨ms, less, js, rfl, rfl, hjs, hdoc⟩ :=
      document_inv h
    · exact absurd rfl hobject
    · cases hdoc
    · cases hdoc
      obtain ⟨final, hfold, -⟩ := ok_of_bind hvalue
      have hreads : ∀ found, ∀ m ∈ ms,
          ReadsMember (do fields.place less (← Literal.read) found) m
            (do fields.putTree less (← Literal.text m.1) m.2 found) := fun found m _ =>
        readsMember_literal fun k front rest h hrest => fields.outcome_place less k found h hrest
      have hcuts : ∀ found found', ∀ m ∈ ms,
          (do fields.putTree less (← Literal.text m.1) m.2 found) = .ok found' →
          CutsMember (do fields.place less (← Literal.read) found) m := by
        intro found found' m hm hput
        obtain ⟨key, hkey, hput⟩ := ok_of_bind hput
        obtain ⟨j, hmem, hj⟩ := exists_member hjs hm hkey
        exact cutsMember_literal hkey (fields.cuts_place hs.keys_nodup hs.fields less vs hmem hj
          (FloatFreeMembers.forall hfloat _ hmem) found hput)
      have hmembers := cutsShort_members hreads hcuts hfold
      exact (cutsShort_object (hmembers.bind _) fun q => outcome_enclosed (less + 1) _ 0x7B q).cuts
  | .wrapped key item, hs, room, t, vs, h, hfloat => by
    have hvalue : (Shape.wrapped key item).ofTree room t = .ok ((Shape.wrapped key item).collapse vs) :=
      Shape.ofTree_toJson hs h
    obtain ⟨-, -, hobject⟩ | ⟨ts, less, js, -, -, -, hdoc⟩ | ⟨ms, less, js, rfl, rfl, hjs, hdoc⟩ :=
      document_inv h
    · exact absurd rfl hobject
    · cases hdoc
    · cases hdoc
      obtain ⟨final, hfold, -⟩ := ok_of_bind hvalue
      let value := orNull (readList less fun room => item.read room)
      let value' := orNullOfTree (listOfTree less fun room => item.ofTree room)
      have hreads : ∀ found, ∀ m ∈ ms,
          ReadsMember (readMember key value found) m (takeMember key value' found m) := fun found m _ =>
        readsMember_wrapped (fun t => reads_orNull t (reads_readList less t item.reads)) key found m
      -- The only member is the list, or null, under the key.
      have hcuts : ∀ found found', ∀ m ∈ ms, takeMember key value' found m = .ok found' →
          CutsMember (readMember key value found) m := by
        intro found found' m hm htake
        obtain ⟨k, hkey, -⟩ := ok_of_bind htake
        obtain ⟨j, hmem, hj⟩ := exists_member hjs hm hkey
        cases List.mem_singleton.1 hmem
        refine cutsMember_wrapped hkey (cuts_orNull ⟨_, rfl⟩ fun hnull => ?_) htake
        cases vs with
        | none => exact absurd (eq_null_of_document hj) hnull
        | some vs => exact cuts_list item hs.item (item.cuts hs.item) hj hfloat.1
      have hmembers := cutsShort_members hreads hcuts hfold
      exact (cutsShort_object (hmembers.bind _) fun q => outcome_enclosed (less + 1) _ 0x7B q).cuts

theorem Field.cuts : (f : Field) → (∀ keys ∈ f.recordKeys, keys.Nodup) → (room : Nat) → (t : Tree) →
    (v : f.Value) → (j : Json) → f.toJson? v = some j → t.document room = .ok j → j.FloatFree →
    Cuts (f.read room) t.tokens
  | .required shape, hf, room, t, v, _, hj, h, hfloat => by
    cases hj
    exact shape.cuts hf room t v h hfloat
  | .nullable shape, hf, room, t, v, _, hj, h, hfloat => by
    cases hj
    refine cuts_orNull (shape.ended_read_nil room) fun hnull => ?_
    cases v with
    | none => exact absurd (eq_null_of_document h) hnull
    | some v => exact shape.cuts hf room t v h hfloat
  | .optional shape, hf, room, t, v, _, hj, h, hfloat => by
    cases hj
    refine cuts_orNull (shape.ended_read_nil room) fun hnull => ?_
    cases v with
    | none => exact absurd (eq_null_of_document h) hnull
    | some v => exact shape.cuts hf room t v h hfloat
  | .sparse shape, hf, room, t, v, _, hj, h, hfloat => by
    cases v with
    | none => cases hj
    | some v =>
      cases hj
      exact cuts_orNull (shape.ended_read_nil room) fun _ => shape.cuts hf room t v h hfloat
  | .flag, _, _, _, _, _, hj, h, _ => by
    cases hj
    exact (cuts_orNull ⟨_, rfl⟩ fun _ => cuts_readTruth h).map fun found => found.getD false
  | .listing item, hf, room, t, vs, j, hj, h, hfloat => by
    -- An empty list is not written, so this one is not empty.
    have hj : j = .array (List.map item.toJson vs) := by
      rw [Field.toJson?] at hj
      split at hj
      · cases hj
      · exact (Option.some.inj hj).symm
    subst hj
    exact cuts_list item hf (item.cuts hf) h hfloat

theorem Fields.cuts_place : (fs : Fields) → fs.keys.Nodup → (∀ keys ∈ fs.recordKeys, keys.Nodup) →
    (room : Nat) → (vs : fs.Values) → {key : String} → {j : Json} → (key, j) ∈ fs.toMembers vs →
    {t : Tree} → t.document room = .ok j → j.FloatFree → (found : fs.Filling) →
    {found' : fs.Filling} → fs.putTree room key t found = .ok found' →
    Cuts (fs.place room key found) ([0x3A] :: t.tokens)
  | .nil, _, _, _, _, _, _, hmem, _, _, _, _, _, _ => nomatch hmem
  | .cons key field rest, hkeys, hfs, room, (v, more), k, j, hmem, t, h, hfloat, (found, filled), _,
      hput => by
    obtain ⟨hkey, hrest⟩ := List.nodup_cons.1 hkeys
    by_cases hk : k = key
    · subst hk
      -- The member is the first field's, since no later field has its key.
      have hj : field.toJson? v = some j := by
        obtain ⟨-, hj⟩ | hmore := Fields.mem_toMembers_cons hmem
        · exact hj
        · exact absurd (Fields.key_mem_of_mem_toMembers hmore) hkey
      rw [Fields.putTree_self] at hput
      obtain ⟨_, htake, -⟩ := ok_of_map hput
      obtain rfl := takeUnder_eq_ok htake
      have hplace : (Fields.cons k field rest).place room k (none, filled) =
          readUnder k none (field.read room) >>= fun found => pure (found, filled) := if_pos rfl
      rw [hplace]
      exact (cuts_readUnder k (field.cuts (Fields.nodup_first hfs) room t v j hj h hfloat)).map _
    · have hmore : (k, j) ∈ rest.toMembers more := by
        obtain ⟨hk', -⟩ | hmore := Fields.mem_toMembers_cons hmem
        · exact absurd hk' hk
        · exact hmore
      rw [Fields.putTree_other hk] at hput
      obtain ⟨_, hput', -⟩ := ok_of_map hput
      have hplace : (Fields.cons key field rest).place room k (found, filled) =
          rest.place room k filled >>= fun filled => pure (found, filled) := if_neg hk
      rw [hplace]
      exact (rest.cuts_place hrest (Fields.nodup_rest hfs) room more hmore h hfloat filled hput').map _

end

end MetricCatalog
