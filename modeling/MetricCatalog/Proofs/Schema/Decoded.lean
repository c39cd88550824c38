import MetricCatalog.Proofs.Schema.Cut
import MetricCatalog.Proofs.Schema.Insertion
import MetricCatalog.Proofs.Schema.SetToNull

/-!
# Decoded values — what holds of every value that has been read

A value that has been read has no field set to null, since null unsets such a field. Its document does not
nest deeper than the text did, unless a bare list has been put under a key of its own.
-/

namespace MetricCatalog

open Json Json.Scan Json.Tree Shape

variable {α β σ : Type}

/-! ## 1. Depth of documents -/

namespace Json

theorem depthOfItems_le {js : List Json} {n : Nat} : depthOfItems js ≤ n ↔ ∀ j ∈ js, j.depth ≤ n := by
  induction js with
  | nil => exact ⟨fun _ => nofun, fun _ => Nat.zero_le n⟩
  | cons j js ih =>
    rw [depthOfItems, Nat.max_le, List.forall_mem_cons, ih]

theorem depthOfMembers_le {ms : List (String × Json)} {n : Nat} :
    depthOfMembers ms ≤ n ↔ ∀ m ∈ ms, m.2.depth ≤ n := by
  induction ms with
  | nil => exact ⟨fun _ => nofun, fun _ => Nat.zero_le n⟩
  | cons m ms ih =>
    rw [depthOfMembers, Nat.max_le, List.forall_mem_cons, ih]

theorem depth_insertMember_le {key : String} {value : Json} {ms : List (String × Json)} {n : Nat}
    (hvalue : value.depth ≤ n) (h : depthOfMembers ms ≤ n) :
    depthOfMembers (insertMember key value ms) ≤ n := by
  rw [depthOfMembers_le] at h ⊢
  intro m hm
  obtain rfl | hm := mem_insertMember hm
  · exact hvalue
  · exact h m hm

mutual

/-- Dropping members and sorting the others does not deepen a document. -/
theorem depth_canonical_le : ∀ j : Json, j.canonical.depth ≤ j.depth
  | .null => Nat.le_refl _
  | .boolean _ => Nat.le_refl _
  | .number _ => Nat.le_refl _
  | .string _ => Nat.le_refl _
  | .array js => Nat.succ_le_succ (depth_canonicalItems_le js)
  | .object ms => Nat.succ_le_succ (depth_canonicalMembers_le ms)

theorem depth_canonicalItems_le : ∀ js : List Json, depthOfItems (canonicalItems js) ≤ depthOfItems js
  | [] => Nat.le_refl _
  | j :: js => by
    have hj := depth_canonical_le j
    have hjs := depth_canonicalItems_le js
    simp only [canonicalItems, depthOfItems]
    omega

theorem depth_canonicalMembers_le :
    ∀ ms : List (String × Json), depthOfMembers (canonicalMembers ms) ≤ depthOfMembers ms
  | [] => Nat.le_refl _
  | (k, j) :: ms => by
    have hj := depth_canonical_le j
    have hms := depth_canonicalMembers_le ms
    rw [canonicalMembers]
    refine depth_insertMember_le ?_ ?_
    · exact Nat.le_trans hj (Nat.le_max_left _ _)
    · exact Nat.le_trans hms (Nat.le_max_right _ _)

end

end Json

/-- A tree denotes a document that nests no deeper than there is room for. -/
theorem Json.Tree.depth_document (t : Tree) {room : Nat} {doc : Json} (h : t.document room = .ok doc) :
    doc.depth ≤ room := by
  induction t generalizing room doc with
  | null =>
    cases h
    exact Nat.zero_le _
  | boolean b =>
    cases h
    exact Nat.zero_le _
  | number n =>
    obtain ⟨x, -, rfl⟩ := ok_of_map h
    exact Nat.zero_le _
  | string l =>
    obtain ⟨s, -, rfl⟩ := ok_of_map h
    exact Nat.zero_le _
  | array ts ih =>
    cases room with
    | zero => cases h
    | succ room =>
      rw [Tree.document, documents_eq_mapM] at h
      obtain ⟨js, hjs, rfl⟩ := ok_of_map h
      refine Nat.succ_le_succ (Json.depthOfItems_le.2 fun j hj => ?_)
      obtain ⟨t, ht, hdoc⟩ := exists_of_mem_mapM hjs j hj
      exact ih t ht hdoc
  | object ms ih =>
    cases room with
    | zero => cases h
    | succ room =>
      rw [Tree.document, memberDocuments_eq_mapM] at h
      obtain ⟨js, hjs, rfl⟩ := ok_of_map h
      refine Nat.succ_le_succ (Json.depthOfMembers_le.2 fun j hj => ?_)
      obtain ⟨m, hm, hdoc⟩ := exists_of_mem_mapM hjs j hj
      exact ih m hm (memberDocument_inv hdoc).2

/-! ## 2. Values that have been read -/

mutual

/-- Whether no bare list is put under a key anywhere in the shape. -/
def Shape.unwrapped : Shape → Bool
  | .list item => item.unwrapped
  | .record _ fields => fields.unwrapped
  | .wrapped _ _ => false
  | _ => true

def Field.unwrapped : Field → Bool
  | .required shape => shape.unwrapped
  | .nullable shape => shape.unwrapped
  | .optional shape => shape.unwrapped
  | .sparse shape => shape.unwrapped
  | .flag => true
  | .listing item => item.unwrapped

def Fields.unwrapped : Fields → Bool
  | .nil => true
  | .cons _ field rest => field.unwrapped && rest.unwrapped

end

/-- What holds of a value that has been read with room for so many arrays and objects. -/
structure Shape.Decoded (room : Nat) (s : Shape) (v : s.Value) : Prop where
  collapse : s.collapse v = v
  depth : s.unwrapped → (s.toJson v).depth ≤ room

structure Field.Decoded (room : Nat) (f : Field) (v : f.Value) : Prop where
  collapse : f.collapse v = v
  depth : f.unwrapped → ∀ j, f.toJson? v = some j → j.depth ≤ room

structure Fields.Decoded (room : Nat) (fs : Fields) (vs : fs.Values) : Prop where
  collapse : fs.collapse vs = vs
  depth : fs.unwrapped → depthOfMembers (fs.toMembers vs) ≤ room

/-- What has been found so far while an object is read has all been read. -/
def Fields.Found (room : Nat) : (fs : Fields) → fs.Filling → Prop
  | .nil, _ => True
  | .cons _ field rest, (found, more) => (∀ v, found = some v → field.Decoded room v) ∧ rest.Found room more

theorem Fields.found_unfilled (room : Nat) : (fs : Fields) → fs.Found room fs.unfilled
  | .nil => trivial
  | .cons _ _ rest => ⟨nofun, rest.found_unfilled room⟩

theorem Fields.decoded_cons {room : Nat} {key : String} {field : Field} {rest : Fields} {v : field.Value}
    {more : rest.Values} (hv : field.Decoded room v) (hmore : rest.Decoded room more) :
    (Fields.cons key field rest).Decoded room (v, more) where
  collapse := Prod.ext hv.collapse hmore.collapse
  depth h := by
    obtain ⟨hfield, hrest⟩ := Bool.and_eq_true_iff.1 h
    rw [Fields.toMembers]
    cases hj : field.toJson? v with
    | none => exact hmore.depth hrest
    | some j => exact Nat.max_le.2 ⟨hv.depth hfield j hj, hmore.depth hrest⟩

/-- A field that is unset is written as a scalar or not at all. -/
theorem Field.decoded_ifMissing (room : Nat) (f : Field) {v : f.Value} (h : f.ifMissing? = some v) :
    f.Decoded room v := by
  cases f with
  | required shape => cases h
  | nullable _ | optional _ | flag =>
    cases h
    refine ⟨rfl, fun _ j hj => ?_⟩
    cases hj
    exact Nat.zero_le _
  | sparse _ | listing _ =>
    cases h
    exact ⟨rfl, fun _ j hj => nomatch hj⟩

theorem Field.ifMissing?_of_ifCutOff? {f : Field} {v : f.Value} (h : f.ifCutOff? = some v) :
    f.ifMissing? = some v := by
  cases f with
  | required shape => cases h
  | nullable shape => cases h
  | _ => exact h

theorem Fields.decoded_finish {room : Nat} : (fs : Fields) → {found : fs.Filling} → {vs : fs.Values} →
    fs.Found room found → fs.finish found = .ok vs → fs.Decoded room vs
  | .nil, _, _, _, _ => ⟨rfl, fun _ => Nat.zero_le _⟩
  | .cons key field rest, (found, more), vs, hfound, h => by
    rw [Fields.finish] at h
    cases hv : found.or field.ifMissing? with
    | none =>
      rw [hv] at h
      cases h
    | some v =>
      rw [hv] at h
      obtain ⟨more', hmore, rfl⟩ := ok_of_map h
      have hfield : field.Decoded room v := by
        obtain hsome | ⟨-, hmissing⟩ := Option.or_eq_some_iff.1 hv
        · exact hfound.1 v hsome
        · exact field.decoded_ifMissing room hmissing
      exact Fields.decoded_cons hfield (rest.decoded_finish hfound.2 hmore)

theorem Fields.decoded_cutOff {room : Nat} : (fs : Fields) → {index : Nat} → {vs : fs.Values} →
    fs.cutOff index = .ok vs → fs.Decoded room vs
  | .nil, _, _, _ => ⟨rfl, fun _ => Nat.zero_le _⟩
  | .cons key field rest, index, vs, h => by
    rw [Fields.cutOff] at h
    cases hv : field.ifCutOff? with
    | none =>
      rw [hv] at h
      cases h
    | some v =>
      rw [hv] at h
      obtain ⟨more, hmore, rfl⟩ := ok_of_map h
      exact Fields.decoded_cons (field.decoded_ifMissing room (Field.ifMissing?_of_ifCutOff? hv))
        (rest.decoded_cutOff hmore)

/-- What is found under a key has been taken from the value of some member. -/
theorem taken_foldUnder {key : String} {value : Tree → Except Fault (Option β)} {ms : Members}
    {found : Option (Option β)} (h : foldUnder key value ms = .ok found) :
    ∀ v, found = some v → ∃ t, value t = .ok v := by
  let P : Option (Option β) → Prop := fun found => ∀ v, found = some v → ∃ t, value t = .ok v
  have hnone : P none := by
    intro v hv
    cases hv
  refine foldlM_invariant (P := P) (fun found m _ found' hfound hstep => ?_) hnone h
  obtain ⟨k, -, hput⟩ := ok_of_bind hstep
  by_cases hk : k = key
  · rw [if_pos hk] at hput
    cases takeUnder_eq_ok hput
    obtain ⟨v, hv, hlast⟩ := ok_of_bind hput
    cases hlast
    intro w hw
    cases hw
    exact ⟨m.2, hv⟩
  · rw [if_neg hk] at hput
    cases hput
    exact hfound

theorem Shape.decoded_list {room : Nat} {item : Shape} {vs : List item.Value}
    (h : ∀ v ∈ vs, item.Decoded room v) : (Shape.list item).Decoded (room + 1) vs where
  collapse := map_eq_self_iff.2 fun v hv => (h v hv).collapse
  depth hitem := by
    refine Nat.succ_le_succ (Json.depthOfItems_le.2 fun j hj => ?_)
    obtain ⟨v, hv, rfl⟩ := List.mem_map.1 hj
    exact (h v hv).depth hitem

theorem Shape.decoded_listOfTree (item : Shape) {room : Nat}
    (hitem : ∀ (room : Nat) (t : Tree) (v : item.Value), item.ofTree room t = .ok v → item.Decoded room v)
    {t : Tree} {vs : List item.Value}
    (h : listOfTree room (fun room => item.ofTree room) t = .ok vs) :
    (Shape.list item).Decoded room vs := by
  cases t with
  | array ts =>
    cases room with
    | zero => cases h
    | succ room =>
      refine Shape.decoded_list fun v hv => ?_
      obtain ⟨t, -, ht⟩ := exists_of_mem_mapM h v hv
      exact hitem room t v ht
  | _ => exact absurd h wrongTree_ne_ok

/-- Only null is taken as a value that is written as null. -/
theorem Shape.eq_null_of_isNull {s : Shape} {room : Nat} {t : Tree} {v : s.Value}
    (h : s.ofTree room t = .ok v) (hnull : (s.toJson v).isNull = true) : t = .null := by
  cases s with
  | json =>
    obtain ⟨doc, hdoc, hlast⟩ := ok_of_bind h
    cases hlast
    have hdocNull : doc = .null := by
      cases doc with
      | null => rfl
      | _ => cases hnull
    exact eq_null_of_document (hdocNull ▸ hdoc)
  | _ => cases hnull

/-- Null unsets a field, so no value of the field is written as null. -/
theorem Shape.decoded_orNull {room : Nat} {s : Shape} {t : Tree} {v : Option s.Value}
    (hs : ∀ v, s.ofTree room t = .ok v → s.Decoded room v)
    (h : orNullOfTree (s.ofTree room) t = .ok v) :
    collapseOption s.toJson s.collapse v = v ∧
      (s.unwrapped → ∀ a, v = some a → (s.toJson a).depth ≤ room) := by
  by_cases ht : t = .null
  · subst ht
    cases h
    exact ⟨rfl, fun _ => nofun⟩
  · rw [orNullOfTree_of_ne_null ht] at h
    obtain ⟨a, ha, hlast⟩ := ok_of_bind h
    cases hlast
    refine ⟨?_, fun hunwrapped b hb => ?_⟩
    · rw [collapseOption, if_neg fun hnull => ht (Shape.eq_null_of_isNull ha hnull), (hs a ha).collapse]
    · cases hb
      exact (hs a ha).depth hunwrapped

theorem Field.decoded_orNull {room : Nat} {s : Shape} {v : Option s.Value}
    (h : collapseOption s.toJson s.collapse v = v ∧
      (s.unwrapped → ∀ a, v = some a → (s.toJson a).depth ≤ room)) :
    (Field.nullable s).Decoded room v ∧ (Field.optional s).Decoded room v ∧
      (Field.sparse s).Decoded room v := by
  have hwritten : s.unwrapped → ∀ j, some (match v with | some v => s.toJson v | none => .null) = some j →
      j.depth ≤ room := by
    intro hunwrapped j hj
    cases v with
    | none =>
      cases hj
      exact Nat.zero_le _
    | some a =>
      cases hj
      exact h.2 hunwrapped a rfl
  refine ⟨⟨h.1, hwritten⟩, ⟨h.1, hwritten⟩, ⟨h.1, fun hunwrapped j hj => ?_⟩⟩
  cases v with
  | none => cases hj
  | some a =>
    cases hj
    exact h.2 hunwrapped a rfl

mutual

/-- Every value that has been taken from a tree is decoded. -/
theorem Shape.decoded_ofTree : (s : Shape) → (room : Nat) → (t : Tree) → (v : s.Value) →
    s.ofTree room t = .ok v → s.Decoded room v
  | .text, _, _, _, _ => ⟨rfl, fun _ => Nat.zero_le _⟩
  | .truth, _, _, _, _ => ⟨rfl, fun _ => Nat.zero_le _⟩
  | .integer _, _, _, _, _ => ⟨rfl, fun _ => Nat.zero_le _⟩
  | @Shape.word _ _, _, _, _, _ => ⟨rfl, fun _ => Nat.zero_le _⟩
  | .json, room, t, v, h => by
    obtain ⟨doc, hdoc, hlast⟩ := ok_of_bind h
    cases hlast
    exact ⟨rfl, fun _ => Nat.le_trans (depth_canonical_le doc) (t.depth_document hdoc)⟩
  | .list item, _, _, _, h => item.decoded_listOfTree item.decoded_ofTree h
  | .record name fields, room, t, v, h => by
    cases t with
    | object ms =>
      cases room with
      | zero => cases h
      | succ room =>
        obtain ⟨found, hfold, hfinish⟩ := ok_of_bind h
        have hfound : fields.Found room found := by
          refine foldlM_invariant (fun found m _ found' hfound hstep => ?_) (fields.found_unfilled room) hfold
          obtain ⟨k, -, hput⟩ := ok_of_bind hstep
          exact fields.found_putTree room k m.2 hfound hput
        cases hvalues : fields.finish found with
        | error key =>
          simp only [hvalues] at hfinish
          cases hfinish
        | ok vs =>
          simp only [hvalues] at hfinish
          cases hfinish
          have hdecoded := fields.decoded_finish hfound hvalues
          exact ⟨hdecoded.collapse, fun h => Nat.succ_le_succ (hdecoded.depth h)⟩
    | array ts =>
      cases room with
      | zero => cases h
      | succ room =>
        have hdecoded := fields.decoded_ofTrees name fields.size room ts 0 h
        exact ⟨hdecoded.collapse, fun h => Nat.succ_le_succ (hdecoded.depth h)⟩
    | _ => exact absurd h wrongTree_ne_ok
  | .wrapped key item, room, t, v, h => by
    refine ⟨?_, nofun⟩
    cases t with
    | object ms =>
      cases room with
      | zero => cases h
      | succ room =>
        obtain ⟨found, hfold, hlast⟩ := ok_of_bind h
        cases hlast
        have hdecoded : ∀ v, found = some v →
            collapseOption (Shape.list item).toJson (Shape.list item).collapse v = v := by
          intro v hv
          obtain ⟨t, ht⟩ := taken_foldUnder hfold v hv
          exact (Shape.decoded_orNull (s := .list item) (fun vs hvs =>
            item.decoded_listOfTree item.decoded_ofTree hvs) ht).1
        cases found with
        | none => rfl
        | some v =>
          have hcollapse := hdecoded v rfl
          cases v with
          | none => rfl
          | some vs => exact hcollapse
    | array ts =>
      cases room with
      | zero => cases h
      | succ room =>
        obtain ⟨vs, hvs, hlast⟩ := ok_of_bind h
        cases hlast
        have hdecoded : (Shape.list item).Decoded (room + 1) vs :=
          item.decoded_listOfTree (t := .array ts) item.decoded_ofTree hvs
        exact congrArg some hdecoded.collapse
    | _ => exact absurd h wrongTree_ne_ok

theorem Field.decoded_ofTree : (f : Field) → (room : Nat) → (t : Tree) → (v : f.Value) →
    f.ofTree room t = .ok v → f.Decoded room v
  | .required shape, room, t, v, h => by
    have hdecoded := shape.decoded_ofTree room t v h
    refine ⟨hdecoded.collapse, fun hunwrapped j hj => ?_⟩
    cases hj
    exact hdecoded.depth hunwrapped
  | .nullable shape, room, t, v, h =>
    (Field.decoded_orNull (shape.decoded_orNull (shape.decoded_ofTree room t) h)).1
  | .optional shape, room, t, v, h =>
    (Field.decoded_orNull (shape.decoded_orNull (shape.decoded_ofTree room t) h)).2.1
  | .sparse shape, room, t, v, h =>
    (Field.decoded_orNull (shape.decoded_orNull (shape.decoded_ofTree room t) h)).2.2
  | .flag, room, t, b, h => by
    refine ⟨rfl, fun _ j hj => ?_⟩
    cases hj
    exact Nat.zero_le _
  | .listing item, room, t, vs, h => by
    have hdecoded := item.decoded_listOfTree item.decoded_ofTree h
    refine ⟨hdecoded.collapse, fun hunwrapped j hj => ?_⟩
    rw [Field.toJson?] at hj
    split at hj
    · cases hj
    · cases hj
      exact hdecoded.depth hunwrapped

theorem Fields.found_putTree : (fs : Fields) → (room : Nat) → (k : String) → (t : Tree) →
    {found found' : fs.Filling} → fs.Found room found → fs.putTree room k t found = .ok found' →
    fs.Found room found'
  | .nil, _, _, _, _, _, _, _ => trivial
  | .cons key field rest, room, k, t, (found, more), found', hfound, h => by
    by_cases hk : k = key
    · subst hk
      rw [Fields.putTree_self] at h
      obtain ⟨taken, htake, rfl⟩ := ok_of_map h
      cases takeUnder_eq_ok htake
      obtain ⟨v, hv, hlast⟩ := ok_of_bind htake
      cases hlast
      refine ⟨fun w hw => ?_, hfound.2⟩
      cases hw
      exact field.decoded_ofTree room t v hv
    · rw [Fields.putTree_other hk] at h
      obtain ⟨more', hmore, rfl⟩ := ok_of_map h
      exact ⟨hfound.1, rest.found_putTree room k t hfound.2 hmore⟩

theorem Fields.decoded_ofTrees (name : String) (size room : Nat) : (fs : Fields) → (ts : List Tree) →
    (index : Nat) → {vs : fs.Values} → fs.ofTrees name size room ts index = .ok vs → fs.Decoded room vs
  | .nil, _, _, _, _ => ⟨rfl, fun _ => Nat.zero_le _⟩
  | .cons key field rest, [], index, vs, h => by
    rw [Fields.ofTrees] at h
    cases hcut : Fields.cutOff (.cons key field rest) index with
    | error missing =>
      rw [hcut] at h
      cases h
    | ok values =>
      rw [hcut] at h
      cases h
      exact Fields.decoded_cutOff _ hcut
  | .cons key field rest, t :: ts, index, vs, h => by
    obtain ⟨v, hv, hmore⟩ := ok_of_bind h
    obtain ⟨more, hvalues, hlast⟩ := ok_of_bind hmore
    cases hlast
    exact Fields.decoded_cons (field.decoded_ofTree room t v hv)
      (rest.decoded_ofTrees name size room ts (index + 1) hvalues)

end

/-! ## 3. Depth of values, and doubles -/

mutual

/-- Whether so many arrays and objects in one another are enough for every value of a shape. -/
def Shape.fits : Shape → Nat → Bool
  | .json, _ => false
  | .list _, 0 => false
  | .list item, room + 1 => item.fits room
  | .record _ _, 0 => false
  | .record _ fields, room + 1 => fields.fits room
  | .wrapped _ item, room + 2 => item.fits room
  | .wrapped _ _, _ => false
  | _, _ => true

def Field.fits : Field → Nat → Bool
  | .required shape, room => shape.fits room
  | .nullable shape, room => shape.fits room
  | .optional shape, room => shape.fits room
  | .sparse shape, room => shape.fits room
  | .flag, _ => true
  | .listing _, 0 => false
  | .listing item, room + 1 => item.fits room

def Fields.fits : Fields → Nat → Bool
  | .nil, _ => true
  | .cons _ field rest, room => field.fits room && rest.fits room

end

/-- A document that does not nest deeper than there is room for and holds no double. -/
structure Json.Plain (room : Nat) (j : Json) : Prop where
  depth : j.depth ≤ room
  floatFree : j.FloatFree

theorem plain_array_map {toJson : α → Json} {room : Nat} (h : ∀ a, (toJson a).Plain room) (as : List α) :
    (Json.array (as.map toJson)).Plain (room + 1) where
  depth := by
    refine Nat.succ_le_succ (Json.depthOfItems_le.2 fun j hj => ?_)
    obtain ⟨a, -, rfl⟩ := List.mem_map.1 hj
    exact (h a).depth
  floatFree := by
    show FloatFreeItems (as.map toJson)
    induction as with
    | nil => trivial
    | cons a as ih => exact ⟨(h a).floatFree, ih⟩

theorem plain_null (room : Nat) : Json.null.Plain room := ⟨Nat.zero_le _, trivial⟩

mutual

/-- Where no document stands that may be any, it is known how deep a value nests, and it holds no double. -/
theorem Shape.plain_toJson : (s : Shape) → (room : Nat) → s.fits room → (v : s.Value) →
    (s.toJson v).Plain room
  | .text, _, _, _ => ⟨Nat.zero_le _, trivial⟩
  | .truth, _, _, _ => ⟨Nat.zero_le _, trivial⟩
  | .integer _, _, _, _ => ⟨Nat.zero_le _, trivial⟩
  | @Shape.word _ _, _, _, _ => ⟨Nat.zero_le _, trivial⟩
  | .json, _, h, _ => nomatch h
  | .list _, 0, h, _ => nomatch h
  | .list item, room + 1, h, vs => plain_array_map (item.plain_toJson room h) vs
  | .record _ _, 0, h, _ => nomatch h
  | .record _ fields, room + 1, h, vs =>
    have hmembers := fields.plain_toMembers room h vs
    ⟨Nat.succ_le_succ hmembers.1, hmembers.2⟩
  | .wrapped _ _, 0, h, _ => nomatch h
  | .wrapped _ _, 1, h, _ => nomatch h
  | .wrapped key item, room + 2, h, vs => by
    have hvalue : ((match vs with | some vs => .array (vs.map item.toJson) | none => .null) : Json).Plain
        (room + 1) := by
      cases vs with
      | none => exact plain_null _
      | some vs => exact plain_array_map (item.plain_toJson room h) vs
    exact ⟨Nat.succ_le_succ (Nat.max_le.2 ⟨hvalue.depth, Nat.zero_le _⟩), hvalue.floatFree, trivial⟩

theorem Field.plain_toJson? : (f : Field) → (room : Nat) → f.fits room → (v : f.Value) → (j : Json) →
    f.toJson? v = some j → j.Plain room
  | .required shape, room, h, v, _, hj => by
    cases hj
    exact shape.plain_toJson room h v
  | .nullable shape, room, h, v, _, hj => by
    cases hj
    cases v with
    | none => exact plain_null room
    | some a => exact shape.plain_toJson room h a
  | .optional shape, room, h, v, _, hj => by
    cases hj
    cases v with
    | none => exact plain_null room
    | some a => exact shape.plain_toJson room h a
  | .sparse shape, room, h, v, j, hj => by
    obtain ⟨a, -, rfl⟩ := Option.map_eq_some_iff.1 hj
    exact shape.plain_toJson room h a
  | .flag, _, _, _, _, hj => by
    cases hj
    exact ⟨Nat.zero_le _, trivial⟩
  | .listing _, 0, h, _, _, _ => nomatch h
  | .listing item, room + 1, h, vs, _, hj => by
    rw [Field.toJson?] at hj
    split at hj
    · cases hj
    · cases hj
      exact plain_array_map (item.plain_toJson room h) vs

theorem Fields.plain_toMembers : (fs : Fields) → (room : Nat) → fs.fits room → (vs : fs.Values) →
    depthOfMembers (fs.toMembers vs) ≤ room ∧ FloatFreeMembers (fs.toMembers vs)
  | .nil, _, _, _ => ⟨Nat.zero_le _, trivial⟩
  | .cons key field rest, room, h, (v, more) => by
    obtain ⟨hfield, hrest⟩ := Bool.and_eq_true_iff.1 h
    obtain ⟨hdepth, hfloat⟩ := rest.plain_toMembers room hrest more
    rw [Fields.toMembers]
    cases hj : field.toJson? v with
    | none => exact ⟨hdepth, hfloat⟩
    | some j =>
      have hplain := field.plain_toJson? room hfield v j hj
      exact ⟨Nat.max_le.2 ⟨hplain.depth, hdepth⟩, hplain.floatFree, hfloat⟩

end

/-! ## 4. Payloads -/

/-- Where a bare list may stand without its key, no value nests deep. -/
theorem PayloadType.unwrapped_or_fits (T : PayloadType) : T.shape.unwrapped ∨ T.shape.fits depthLimit := by
  cases T with
  | one R => cases R <;> decide
  | many R => cases R <;> decide

/-- A value that has been decoded could be decoded again from what is written of it: it does not nest too
deep, and no field of it is set to null. -/
theorem PayloadType.decoded (T : PayloadType) {bytes : Bytes} {v : T.Value}
    (h : decodeBytes T.Value bytes = .ok v) :
    (Wire.toJson v).depth ≤ depthLimit ∧ T.shape.collapse (Wire.pack v) = Wire.pack v := by
  obtain ⟨t, -, ht⟩ := decodeBytes_iff.1 h
  have hdecoded := T.shape.decoded_ofTree depthLimit t (Wire.pack v) ht
  refine ⟨?_, hdecoded.collapse⟩
  obtain hunwrapped | hfits := T.unwrapped_or_fits
  · exact hdecoded.depth hunwrapped
  · exact (T.shape.plain_toJson depthLimit hfits _).depth

theorem PayloadType.not_setToNull_decoded (T : PayloadType) {bytes : Bytes} {v : T.Value}
    (h : decodeBytes T.Value bytes = .ok v) : ¬ T.SetToNull v := by
  -- Unsetting what is set to null would change nothing.
  have hpack : Wire.pack (T.unsetNulls v) = Wire.pack v := (T.pack_unsetNulls v).trans (T.decoded h).2
  have hsame : T.unsetNulls v = v := by
    rw [← Wire.unpack_pack (T.unsetNulls v), hpack, Wire.unpack_pack]
  exact (T.unsetNulls_eq_self v).1 hsame

/-- A value that has been decoded is decoded as it is from what is written of it. -/
theorem PayloadType.decode_encodePretty_decoded (T : PayloadType) {bytes : Bytes} {v : T.Value}
    (h : decodeBytes T.Value bytes = .ok v) (hfloat : (Wire.toJson v).FloatFree) :
    decode T.Value (encodePretty v) = .ok v := by
  obtain ⟨hdepth, hcollapse⟩ := T.decoded h
  refine (decode_eq_ok (parse_pretty hfloat hdepth)).2 ?_
  exact (T.shape.value?_toJson T.distinct (Wire.pack v)).trans (congrArg some hcollapse)

end MetricCatalog
