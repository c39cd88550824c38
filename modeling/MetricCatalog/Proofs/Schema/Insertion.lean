import MetricCatalog.Proofs.Json.Rendered
import MetricCatalog.Proofs.Schema.Agreement

/-!
# Unknown keys — what is added to a record is not seen

`Shape.AtRecord` says that two trees differ at one object that is read as a record, wherever it stands.
What such a change does to the value is settled by what it does to the members of that object.
-/

namespace MetricCatalog

open Json Json.Scan Json.Tree Shape

variable {σ β : Type}

/-! ## 1. Fields by their keys -/

/-- The field that a member under this key fills. -/
def Fields.field? : Fields → String → Option Field
  | .nil, _ => none
  | .cons key field rest, k => if k = key then some field else rest.field? k

theorem Fields.exists_field? {fs : Fields} {key : String} (h : key ∈ fs.keys) :
    ∃ field, fs.field? key = some field :=
  match fs, h with
  | .cons k field rest, h => by
    by_cases hk : key = k
    · exact ⟨field, if_pos hk⟩
    · obtain h | h := List.mem_cons.1 h
      · exact absurd h hk
      · obtain ⟨field', hfield⟩ := Fields.exists_field? h
        exact ⟨field', (if_neg hk).trans hfield⟩

/-- The field that the item at this index of an array fills. -/
def Fields.fieldAt? : Fields → Nat → Option Field
  | .nil, _ => none
  | .cons _ field _, 0 => some field
  | .cons _ _ rest, index + 1 => rest.fieldAt? index

/-- The shape of the value of a field, null apart. -/
def Field.inner : Field → Shape
  | .required shape => shape
  | .nullable shape => shape
  | .optional shape => shape
  | .sparse shape => shape
  | .flag => .truth
  | .listing item => .list item

/-- The fields of an object with a list under its only key. -/
def Fields.wrapping (key : String) (item : Shape) : Fields := .cons key (.optional (.list item)) .nil

mutual

/-- The fields of each record that is part of a shape. -/
def Shape.records : Shape → List Fields
  | .list item => item.records
  | .record _ fields => fields :: fields.records
  | .wrapped key item => .wrapping key item :: item.records
  | _ => []

def Field.records : Field → List Fields
  | .required shape => shape.records
  | .nullable shape => shape.records
  | .optional shape => shape.records
  | .sparse shape => shape.records
  | .flag => []
  | .listing item => item.records

def Fields.records : Fields → List Fields
  | .nil => []
  | .cons _ field rest => field.records ++ rest.records

end

theorem Field.records_inner (f : Field) : f.inner.records = f.records := by
  cases f <;> rfl

theorem Fields.records_field? : {fs : Fields} → {key : String} → {field : Field} →
    fs.field? key = some field → ∀ inner ∈ field.inner.records, inner ∈ fs.records
  | .nil, _, _, h => nomatch h
  | .cons k field rest, key, field', h => by
    rw [Fields.field?] at h
    intro inner hinner
    by_cases hk : key = k
    · rw [if_pos hk] at h
      cases h
      exact List.mem_append_left _ (field.records_inner ▸ hinner)
    · rw [if_neg hk] at h
      exact List.mem_append_right _ (Fields.records_field? h inner hinner)

theorem Fields.records_fieldAt? : {fs : Fields} → {index : Nat} → {field : Field} →
    fs.fieldAt? index = some field → ∀ inner ∈ field.inner.records, inner ∈ fs.records
  | .nil, _, _, h => nomatch h
  | .cons _ _ _, 0, field, h => by
    cases h
    exact fun inner hinner => List.mem_append_left _ (Field.records_inner _ ▸ hinner)
  | .cons _ _ rest, index + 1, field', h => fun inner hinner =>
    List.mem_append_right _ (Fields.records_fieldAt? (show rest.fieldAt? index = _ from h) inner hinner)

/-! ## 2. One changed record -/

/-- The members of an object in the order of the text. -/
abbrev Members := List (List Literal.Piece × Tree)

/-- The trees agree but for one object that is read as a record with some keys, where the members are
changed as `change` says. -/
inductive Shape.AtRecord (change : List String → Members → Members → Prop) :
    Shape → Tree → Tree → Prop where
  | record {name : String} {fields : Fields} {ms ms' : Members} (h : change fields.keys ms ms') :
      AtRecord change (.record name fields) (.object ms) (.object ms')
  | wrapped {key : String} {item : Shape} {ms ms' : Members} (h : change [key] ms ms') :
      AtRecord change (.wrapped key item) (.object ms) (.object ms')
  | item {item : Shape} {before after : List Tree} {t t' : Tree} (h : AtRecord change item t t') :
      AtRecord change (.list item) (.array (before ++ t :: after)) (.array (before ++ t' :: after))
  | wrappedItem {key : String} {item : Shape} {before after : List Tree} {t t' : Tree}
      (h : AtRecord change item t t') :
      AtRecord change (.wrapped key item) (.array (before ++ t :: after))
        (.array (before ++ t' :: after))
  | value {name : String} {fields : Fields} {field : Field} {before after : Members}
      {k : List Literal.Piece} {key : String} {t t' : Tree} (hk : Literal.text k = .ok key)
      (hfield : fields.field? key = some field)
      (h : AtRecord change field.inner t t') :
      AtRecord change (.record name fields) (.object (before ++ (k, t) :: after))
        (.object (before ++ (k, t') :: after))
  | wrappedValue {key : String} {item : Shape} {before after : Members} {k : List Literal.Piece}
      {t t' : Tree} (hk : Literal.text k = .ok key) (h : AtRecord change (.list item) t t') :
      AtRecord change (.wrapped key item) (.object (before ++ (k, t) :: after))
        (.object (before ++ (k, t') :: after))
  | position {name : String} {fields : Fields} {field : Field} {before after : List Tree} {t t' : Tree}
      (hfield : fields.fieldAt? before.length = some field) (h : AtRecord change field.inner t t') :
      AtRecord change (.record name fields) (.array (before ++ t :: after))
        (.array (before ++ t' :: after))

section

variable {change : List String → Members → Members → Prop}

theorem Shape.AtRecord.ne_null {s : Shape} {t t' : Tree} (h : s.AtRecord change t t') :
    t ≠ .null ∧ t' ≠ .null := by
  cases h <;> exact ⟨nofun, nofun⟩

theorem orNullOfTree_of_ne_null {value : Tree → Except Fault β} {t : Tree} (h : t ≠ .null) :
    orNullOfTree value t = value t >>= fun v => .ok (some v) := by
  cases t with
  | null => exact absurd rfl h
  | _ => rfl

theorem orNullOfTree_congr {value : Tree → Except Fault β} {t t' : Tree} (ht : t ≠ .null ∧ t' ≠ .null)
    (h : value t' = value t) : orNullOfTree value t' = orNullOfTree value t := by
  rw [orNullOfTree_of_ne_null ht.1, orNullOfTree_of_ne_null ht.2, h]

/-- What a field takes from a value that is not null is settled by what the shape of the field takes. -/
theorem Field.ofTree_congr {f : Field} {t t' : Tree} (ht : t ≠ .null ∧ t' ≠ .null)
    (h : ∀ room, f.inner.ofTree room t' = f.inner.ofTree room t) (room : Nat) :
    f.ofTree room t' = f.ofTree room t := by
  cases f with
  | required shape => exact h room
  | listing item => exact h room
  | nullable shape => exact orNullOfTree_congr ht (h room)
  | optional shape => exact orNullOfTree_congr ht (h room)
  | sparse shape => exact orNullOfTree_congr ht (h room)
  | flag =>
    have htruth : orNullOfTree (fun t => t.head >>= headTruth) t' =
        orNullOfTree (fun t => t.head >>= headTruth) t := orNullOfTree_congr ht (h room)
    exact congrArg (· >>= _) htruth

theorem Fields.putTree_congr {room : Nat} {t t' : Tree} : {fs : Fields} → {k : String} →
    {field : Field} → fs.field? k = some field → field.ofTree room t' = field.ofTree room t →
    (found : fs.Filling) → fs.putTree room k t' found = fs.putTree room k t found
  | .nil, _, _, h, _, _ => nomatch h
  | .cons key field rest, k, field', h, hvalue, (found, more) => by
    by_cases hk : k = key
    · rw [Fields.field?, if_pos hk] at h
      cases Option.some.inj h
      subst hk
      rw [Fields.putTree_self, Fields.putTree_self, hvalue]
    · rw [Fields.field?, if_neg hk] at h
      rw [Fields.putTree_other hk, Fields.putTree_other hk, Fields.putTree_congr h hvalue more]

/-- A member under an unknown key fills nothing. -/
theorem Fields.putTree_unknown {room : Nat} {t : Tree} : {fs : Fields} → {k : String} →
    k ∉ fs.keys → (found : fs.Filling) → fs.putTree room k t found = .ok found
  | .nil, _, _, () => rfl
  | .cons key field rest, k, h, (found, more) => by
    rw [Fields.keys, List.mem_cons, not_or] at h
    rw [Fields.putTree_other h.1, Fields.putTree_unknown h.2 more]
    rfl

theorem Fields.ofTrees_congr {name : String} {size room : Nat} {t t' : Tree} {after : List Tree} :
    {fs : Fields} → {before : List Tree} → {field : Field} →
    fs.fieldAt? before.length = some field → field.ofTree room t' = field.ofTree room t →
    (index : Nat) →
    fs.ofTrees name size room (before ++ t' :: after) index =
      fs.ofTrees name size room (before ++ t :: after) index
  | .nil, _, _, h, _, _ => nomatch h
  | .cons _ field _, [], _, h, hvalue, index => by
    cases Option.some.inj h
    exact congrArg (· >>= _) hvalue
  | .cons _ field rest, u :: before, _, h, hvalue, index => by
    have hat : rest.fieldAt? before.length = some _ := h
    exact congrArg (fun more => field.ofTree room u >>= fun v => more >>= fun vs => .ok (v, vs))
      (Fields.ofTrees_congr hat hvalue (index + 1))

/-! ## 3. Folds -/

/-- Where no state tells two elements apart, one may stand for the other. -/
theorem foldlM_replace {step : σ → β → Except Fault σ} {b b' : β} (h : ∀ s, step s b' = step s b)
    (before after : List β) (s : σ) :
    (before ++ b' :: after).foldlM step s = (before ++ b :: after).foldlM step s := by
  rw [List.foldlM_append, List.foldlM_append]
  simp only [List.foldlM_cons, h]

theorem foldlM_insert {step : σ → β → Except Fault σ} {b : β} (h : ∀ s, step s b = .ok s)
    (before after : List β) (s : σ) :
    (before ++ b :: after).foldlM step s = (before ++ after).foldlM step s := by
  rw [List.foldlM_append, List.foldlM_append]
  simp only [List.foldlM_cons, h]
  rfl

theorem mapM_replace {f : β → Except Fault σ} {b b' : β} (h : f b' = f b) (before after : List β) :
    (before ++ b' :: after).mapM f = (before ++ b :: after).mapM f := by
  rw [List.mapM_append, List.mapM_append, List.mapM_cons, List.mapM_cons, h]

/-! ## 4. The value of a changed tree -/

/-- What the fields take from the members of an object, one after the other. -/
def Fields.foldTrees (fs : Fields) (room : Nat) (ms : Members) : Except Fault fs.Filling :=
  ms.foldlM (fun found m => do fs.putTree room (← Literal.text m.1) m.2 found) fs.unfilled

/-- What a single key takes from the members of an object. -/
def foldUnder (key : String) (value : Tree → Except Fault (Option β)) (ms : Members) :
    Except Fault (Option (Option β)) :=
  ms.foldlM (fun found m => do
    if (← Literal.text m.1) = key then takeUnder key found (value m.2)
    else return found) none

/-- The values of a record whose object has ended, or the fault that a key is missing. -/
def Fields.complete (fs : Fields) (found : fs.Filling) : Except Fault fs.Values :=
  match fs.finish found with
  | .ok values => .ok values
  | .error key => .error (.mismatch (.missingKey key))

theorem Shape.ofTree_recordObject (name : String) (fs : Fields) (room : Nat) (ms : Members) :
    (Shape.record name fs).ofTree (room + 1) (.object ms) = fs.foldTrees room ms >>= fs.complete :=
  rfl

theorem Fields.foldTrees_wrapping (key : String) (item : Shape) (room : Nat) (ms : Members) :
    (Fields.wrapping key item).foldTrees room ms =
      (foldUnder key (orNullOfTree (listOfTree room fun room => item.ofTree room)) ms).map fun found =>
        (found, ()) := by
  refine foldlM_map (g := fun found => (found, ())) (fun found m _ => ?_) none
  cases Literal.text m.1 with
  | error e => rfl
  | ok k =>
    let value := orNullOfTree (listOfTree room fun room => item.ofTree room)
    change (Fields.wrapping key item).putTree room k m.2 (found, ()) =
      (if k = key then takeUnder key found (value m.2) else .ok found).map fun found => (found, ())
    by_cases hk : k = key
    · subst hk
      rw [if_pos rfl]
      exact Fields.putTree_self room m.2 found (show Fields.nil.Filling from ())
    · rw [if_neg hk]
      exact Fields.putTree_other hk room m.2 found (show Fields.nil.Filling from ())

/-- An object with a list under its only key is read like a record with this one field. -/
theorem Shape.ofTree_wrappedObject (name key : String) (item : Shape) (room : Nat) (ms : Members) :
    (Shape.wrapped key item).ofTree room (.object ms) =
      ((Shape.record name (.wrapping key item)).ofTree room (.object ms)).map Prod.fst := by
  cases room with
  | zero => rfl
  | succ room =>
    rw [Shape.ofTree_recordObject, Fields.foldTrees_wrapping]
    let value := orNullOfTree (listOfTree room fun room => item.ofTree room)
    change (foldUnder key value ms >>= fun found => Except.ok (found.getD none)) =
      (((foldUnder key value ms).map fun found => (found, ())) >>=
        (Fields.wrapping key item).complete).map Prod.fst
    cases foldUnder key value ms with
    | error e => rfl
    | ok found => cases found <;> rfl

/-- A change that none of these fields can see in the object of their record. -/
def Fields.Unseen (fs : Fields) (change : List String → Members → Members → Prop) : Prop :=
  ∀ ms ms', change fs.keys ms ms' →
    ∀ name room, (Shape.record name fs).ofTree room (.object ms') =
      (Shape.record name fs).ofTree room (.object ms)

/-- If no record sees the change of its members, nothing is seen of it outside of the record either. -/
theorem Shape.AtRecord.ofTree_eq_of_records {s : Shape} {t t' : Tree} (h : s.AtRecord change t t')
    (hunseen : ∀ fs ∈ s.records, fs.Unseen change) :
    ∀ room, s.ofTree room t' = s.ofTree room t := by
  -- By induction on where the record stands. Without room for the bracket both trees are refused.
  induction h with
  | @record name fields ms ms' h => exact hunseen fields List.mem_cons_self ms ms' h name
  | @wrapped key item ms ms' h =>
    intro room
    have hsame := hunseen (.wrapping key item) List.mem_cons_self ms ms' h key room
    rw [Shape.ofTree_wrappedObject key, Shape.ofTree_wrappedObject key, hsame]
  | item h ih =>
    intro room
    cases room with
    | zero => rfl
    | succ room => exact mapM_replace (ih hunseen room) _ _
  | wrappedItem h ih =>
    intro room
    have hitem := ih fun fs hfs => hunseen fs (List.mem_cons_of_mem _ hfs)
    cases room with
    | zero => rfl
    | succ room => exact congrArg (· >>= _) (mapM_replace (hitem room) _ _)
  | value hk hfield h ih =>
    intro room
    have hvalue := ih fun fs hfs =>
      hunseen fs (List.mem_cons_of_mem _ (Fields.records_field? hfield fs hfs))
    cases room with
    | zero => rfl
    | succ room =>
      refine congrArg (· >>= _) (foldlM_replace (fun found => ?_) _ _ _)
      simp only [hk]
      exact Fields.putTree_congr hfield (Field.ofTree_congr h.ne_null hvalue room) found
  | @wrappedValue key item _ _ k t t' hk h ih =>
    intro room
    have hvalue := ih fun fs hfs => hunseen fs (List.mem_cons_of_mem _ hfs)
    cases room with
    | zero => rfl
    | succ room =>
      refine congrArg (· >>= _) (foldlM_replace (fun found => ?_) _ _ _)
      have hlist : orNullOfTree (listOfTree room fun room => item.ofTree room) t' =
          orNullOfTree (listOfTree room fun room => item.ofTree room) t :=
        orNullOfTree_congr h.ne_null (hvalue room)
      simp only [hk, hlist]
  | position hfield h ih =>
    intro room
    have hvalue := ih fun fs hfs =>
      hunseen fs (List.mem_cons_of_mem _ (Fields.records_fieldAt? hfield fs hfs))
    cases room with
    | zero => rfl
    | succ room => exact Fields.ofTrees_congr hfield (Field.ofTree_congr h.ne_null hvalue room) 0

/-- A change that no fields and no single key can see. -/
def Unseen (change : List String → Members → Members → Prop) : Prop := ∀ fs : Fields, fs.Unseen change

theorem Shape.AtRecord.ofTree_eq (hunseen : Unseen change) {s : Shape} {t t' : Tree}
    (h : s.AtRecord change t t') :
    ∀ room, s.ofTree room t' = s.ofTree room t :=
  h.ofTree_eq_of_records fun fs _ => hunseen fs

end

/-! ## 5. Members under unknown keys -/

/-- A member is put somewhere among the others, under a key that is none of the given ones. -/
def InsertsUnknown (keys : List String) (ms ms' : Members) : Prop :=
  ∃ before after k key x, ms = before ++ after ∧ ms' = before ++ (k, x) :: after ∧
    Literal.text k = .ok key ∧ key ∉ keys

theorem unseen_insertsUnknown : Unseen InsertsUnknown := by
  rintro fs _ _ ⟨before, after, k, key, x, rfl, rfl, hk, hkey⟩ name room
  cases room with
  | zero => rfl
  | succ room =>
    refine congrArg (· >>= _) (foldlM_insert (fun found => ?_) before after fs.unfilled)
    simp only [hk]
    exact fs.putTree_unknown hkey found

theorem RecordType.renamed_not_mem (T : RecordType) : ∀ keys ∈ (Wire.shape T.Value).recordKeys,
    ∀ key ∈ ["column_type", "dimension_type", "node_type", "schema"], key ∉ keys := by
  cases T <;> decide

/-- A member under an unknown key does not matter, wherever it is put into a record and whatever its value is.
The names that some renamed fields have of their own are unknown keys. -/
theorem decode_insertsUnknown (T : PayloadType) {t t' : Tree} {text text' : String}
    (ht : t.Spells (Utf8.encode text.toList)) (ht' : t'.Spells (Utf8.encode text'.toList))
    (h : T.shape.AtRecord InsertsUnknown t t') :
    (∀ v, decode T.Value text' = .ok v ↔ decode T.Value text = .ok v) ∧
      ∀ keys ∈ T.shape.recordKeys,
        ∀ key ∈ ["column_type", "dimension_type", "node_type", "schema"], key ∉ keys := by
  constructor
  · intro v
    have hvalue : (Wire.shape T.Value).ofTree depthLimit t' =
        (Wire.shape T.Value).ofTree depthLimit t :=
      h.ofTree_eq unseen_insertsUnknown depthLimit
    rw [decode, decode, decodeBytes_spells ht, decodeBytes_spells ht', hvalue]
  · rcases T.recordKeys_shape with ⟨R, hR⟩
    rw [hR]
    exact R.renamed_not_mem

/-- Arrays in one another. -/
def nested : Nat → Tree
  | 0 => .array []
  | n + 1 => .array [nested n]

/-- The value that is put in could not be read itself: it nests too deep, its number is beyond every double
and its key holds half of a surrogate pair. -/
theorem decode_insertsUnknown_unreadable :
    decode Response.Node ("\x7b\"columns\":[\x7b\"column_type\":\x7b\"\\ud800\":1e999,\"\":" ++
      String.ofList (List.replicate 131 '[' ++ List.replicate 131 ']') ++
      "\x7d,\"name\":\"a\"\x7d]\x7d") =
        .ok { columns := some [{ name := some "a" }] } := by
  rcases Literal.exists_pieces "columns" with ⟨columns, hcolumns, hcolumns'⟩
  rcases Literal.exists_pieces "column_type" with ⟨type, htype, htype'⟩
  rcases Literal.exists_pieces "name" with ⟨name, hname, _⟩
  rcases Literal.exists_pieces "a" with ⟨a, ha, _⟩
  let huge : Numeral.Token :=
    { numeral := ⟨false, [1], [], some ⟨false, [9, 9, 9]⟩⟩
      wellFormed := ⟨by decide, .inr ⟨1, [], rfl, by decide⟩, fun e he => by cases he; decide⟩
      mark := [0x65]
      isMark := by decide }
  let unknown : Tree :=
    .object [([.code 0x64 0x38 0x30 0x30 (by decide)], .number huge), ([], nested 130)]
  let doc : Json := .object [("columns", .array [.object [("name", .string "a")]])]
  have ht : Tree.Spells (.object [(columns, .array [.object [(name, .string a)]])])
      (Utf8.encode doc.compact.toList) := by
    refine ⟨_, [], ?_, laid_flatten _, blank_nil⟩
    simp only [tokens, tokensOfItems, tokensOfMembers, hcolumns, hname, ha]
    decide +kernel
  have ht' : Tree.Spells (.object [(columns, .array [.object [(type, unknown), (name, .string a)]])])
      (Utf8.encode ("\x7b\"columns\":[\x7b\"column_type\":\x7b\"\\ud800\":1e999,\"\":" ++
        String.ofList (List.replicate 131 '[' ++ List.replicate 131 ']') ++
          "\x7d,\"name\":\"a\"\x7d]\x7d").toList) := by
    refine ⟨_, [], ?_, laid_flatten _, blank_nil⟩
    simp only [tokens, tokensOfItems, tokensOfMembers, hcolumns, htype, hname, ha, String.toList_append,
      String.toList_ofList]
    decide +kernel
  have hinserts :
      InsertsUnknown ["name", "display_name", "type", "attributes", "dimension", "partition"]
        [(name, .string a)] [(type, unknown), (name, .string a)] :=
    ⟨[], _, type, "column_type", unknown, rfl, rfl, htype', by decide⟩
  refine ((decode_insertsUnknown (.one .node) ht ht' ?_).1 _).2 ?_
  · exact @Shape.AtRecord.value _ _ _ _ [] [] _ _ _ _ hcolumns' rfl
      (@Shape.AtRecord.item _ _ [] [] _ _ (.record hinserts))
  · exact (decode_eq_ok (parse_compact (j := doc) (by repeat' constructor) (by decide))).2 rfl

end MetricCatalog
