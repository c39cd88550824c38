import MetricCatalog.Proofs.Schema.NullKeys
import MetricCatalog.Proofs.Schema.SetToNull

/-!
# Different values — which of them have one text

A field that may be left out when it is unset is written differently when it is set to null. A field that is
always written is not. So two requests with one text are the same, and two responses with one text are the
same but for fields set to null.
-/

namespace MetricCatalog

open Json Shape

variable {α β : Type}

/-! ## 1. Fields throughout a shape -/

mutual

/-- Whether something holds of all fields of a shape, at any depth. -/
def Shape.allFields (p : Field → Bool) : Shape → Bool
  | .list item => item.allFields p
  | .record _ fields => fields.allFields p
  | .wrapped _ item => item.allFields p
  | _ => true

def Field.allFields (p : Field → Bool) : Field → Bool
  | .required shape => p (.required shape) && shape.allFields p
  | .nullable shape => p (.nullable shape) && shape.allFields p
  | .optional shape => p (.optional shape) && shape.allFields p
  | .sparse shape => p (.sparse shape) && shape.allFields p
  | .flag => p .flag
  | .listing item => p (.listing item) && item.allFields p

def Fields.allFields (p : Field → Bool) : Fields → Bool
  | .nil => true
  | .cons _ field rest => field.allFields p && rest.allFields p

end

/-- Whether null under the key of a field says that it is unset. -/
def Field.nullIsUnset : Field → Bool
  | .nullable shape => !shape.takesNull
  | .optional shape => !shape.takesNull
  | _ => true

/-- Whether a field that is set to null is written as if it were unset. -/
def Field.unsetIsNull : Field → Bool
  | .sparse shape => !shape.takesNull
  | _ => true

/-! ## 2. Values told by their documents -/

theorem Json.Width.toInteger_inj {w : Width} {i j : w.Integer} (h : w.toInteger i = w.toInteger j) : i = j := by
  have hi := toOption_integerOf w i
  rw [h, toOption_integerOf w j] at hi
  exact (Option.some.inj hi).symm

theorem CanonicalJson.toJson_inj {j k : CanonicalJson} (h : j.toJson = k.toJson) : j = k := by
  rw [← j.canonicalize_toJson, h, k.canonicalize_toJson]

theorem orNull_inj {toJson : α → Json} (hnull : ∀ a, (toJson a).isNull = false)
    (hinj : ∀ {a b}, toJson a = toJson b → a = b) {v w : Option α}
    (h : (v.map toJson).getD .null = (w.map toJson).getD .null) : v = w := by
  have hne : ∀ a, toJson a ≠ .null := by
    intro a ha
    have := hnull a
    rw [ha] at this
    cases this
  cases v with
  | none =>
    cases w with
    | none => rfl
    | some b => exact absurd h.symm (hne b)
  | some a =>
    cases w with
    | none => exact absurd h (hne a)
    | some b => exact congrArg some (hinj h)

theorem Shape.toJson?_nullable (shape : Shape) (v : Option shape.Value) :
    (Field.nullable shape).toJson? v = some ((v.map shape.toJson).getD .null) := by
  cases v <;> rfl

theorem Shape.toJson?_optional (shape : Shape) (v : Option shape.Value) :
    (Field.optional shape).toJson? v = some ((v.map shape.toJson).getD .null) := by
  cases v <;> rfl

mutual

/-- Values with one document are the same. -/
theorem Shape.toJson_inj : (s : Shape) → s.allFields Field.nullIsUnset → s.Distinct → {v w : s.Value} →
    s.toJson v = s.toJson w → v = w
  | .text, _, _, _, _, h => Json.string.inj h
  | .truth, _, _, _, _, h => Json.boolean.inj h
  | .integer width, _, _, _, _, h => Json.Width.toInteger_inj (Number.int.inj (Json.number.inj h))
  | @Shape.word α _, _, _, v, w, h =>
    @Vocabulary.spell_injective α _ (show α from v) (show α from w) (Json.string.inj h)
  | .json, _, _, _, _, h => CanonicalJson.toJson_inj h
  | .list item, hs, hd, _, _, h =>
    List.map_injective_iff.2 (fun _ _ => item.toJson_inj hs hd) (Json.array.inj h)
  | .record _ fields, hs, hd, _, _, h => fields.toMembers_inj hs hd.keys_nodup hd.fields (Json.object.inj h)
  | .wrapped key item, hs, hd, v, w, h => by
    obtain ⟨hmember, -⟩ := List.cons_eq_cons.1 (Json.object.inj h)
    have hvalue := (Prod.mk.inj hmember).2
    cases v with
    | none =>
      cases w with
      | none => rfl
      | some ws => cases hvalue
    | some vs =>
      cases w with
      | none => cases hvalue
      | some ws =>
        exact congrArg some
          (List.map_injective_iff.2 (fun _ _ => item.toJson_inj hs hd.item) (Json.array.inj hvalue))

theorem Field.toJson?_inj : (f : Field) → f.allFields Field.nullIsUnset →
    (∀ keys ∈ f.recordKeys, keys.Nodup) → {v w : f.Value} → f.toJson? v = f.toJson? w → v = w
  | .required shape, hs, hd, _, _, h => by
    rw [Field.allFields, Bool.and_eq_true] at hs
    exact shape.toJson_inj hs.2 hd (Option.some.inj h)
  | .nullable shape, hs, hd, _, _, h => by
    rw [Field.allFields, Bool.and_eq_true, Field.nullIsUnset, Bool.not_eq_true'] at hs
    have hwritten := (shape.toJson?_nullable _).symm.trans (h.trans (shape.toJson?_nullable _))
    exact orNull_inj (shape.isNull_toJson hs.1) (shape.toJson_inj hs.2 hd) (Option.some.inj hwritten)
  | .optional shape, hs, hd, _, _, h => by
    rw [Field.allFields, Bool.and_eq_true, Field.nullIsUnset, Bool.not_eq_true'] at hs
    have hwritten := (shape.toJson?_optional _).symm.trans (h.trans (shape.toJson?_optional _))
    exact orNull_inj (shape.isNull_toJson hs.1) (shape.toJson_inj hs.2 hd) (Option.some.inj hwritten)
  | .sparse shape, hs, hd, _, _, h => by
    rw [Field.allFields, Bool.and_eq_true] at hs
    exact Option.map_injective (fun _ _ => shape.toJson_inj hs.2 hd) h
  | .flag, _, _, _, _, h => Json.boolean.inj (Option.some.inj h)
  | .listing item, hs, hd, v, w, h => by
    rw [Field.allFields, Bool.and_eq_true] at hs
    -- Only an empty list is not written.
    cases v with
    | nil =>
      cases w with
      | nil => rfl
      | cons _ _ => cases h
    | cons _ _ =>
      cases w with
      | nil => cases h
      | cons _ _ =>
        exact List.map_injective_iff.2 (fun _ _ => item.toJson_inj hs.2 hd)
          (Json.array.inj (Option.some.inj h))

theorem Fields.toMembers_inj : (fs : Fields) → fs.allFields Field.nullIsUnset → fs.keys.Nodup →
    (∀ keys ∈ fs.recordKeys, keys.Nodup) → {vs ws : fs.Values} → fs.toMembers vs = fs.toMembers ws → vs = ws
  | .nil, _, _, _, _, _, _ => rfl
  | .cons key field rest, hs, hkeys, hd, (v, more), (w, more'), h => by
    rw [Fields.allFields, Bool.and_eq_true] at hs
    obtain ⟨hkey, hrest⟩ := List.nodup_cons.1 hkeys
    have hfield : field.toJson? v = field.toJson? w → v = w :=
      field.toJson?_inj hs.1 (Fields.nodup_first hd)
    have hmore : rest.toMembers more = rest.toMembers more' → more = more' :=
      rest.toMembers_inj hs.2 hrest (Fields.nodup_rest hd)
    -- The other fields are not written under this key, so its member tells whether it is there.
    have habsent : ∀ (j : Json) ms (vs : rest.Values), (key, j) :: ms ≠ rest.toMembers vs := by
      intro j ms vs heq
      have hmem : (key, j) ∈ rest.toMembers vs := heq ▸ List.mem_cons_self
      exact hkey (Fields.key_mem_of_mem_toMembers hmem)
    rw [Fields.toMembers, Fields.toMembers] at h
    cases hv : field.toJson? v with
    | none =>
      cases hw : field.toJson? w with
      | none =>
        rw [hv, hw] at h
        exact Prod.ext (hfield (hv.trans hw.symm)) (hmore h)
      | some j =>
        rw [hv, hw] at h
        exact absurd h.symm (habsent j _ more)
    | some i =>
      cases hw : field.toJson? w with
      | none =>
        rw [hv, hw] at h
        exact absurd h (habsent i _ more')
      | some j =>
        rw [hv, hw] at h
        obtain ⟨hmember, hothers⟩ := List.cons_eq_cons.1 h
        have hij : field.toJson? v = field.toJson? w := by rw [hv, hw, (Prod.mk.inj hmember).2]
        exact Prod.ext (hfield hij) (hmore hothers)

end

/-! ## 3. Fields set to null -/

theorem orNull_collapseOption {toJson : α → Json} {collapse : α → α}
    (h : ∀ a, toJson (collapse a) = toJson a) (v : Option α) :
    ((collapseOption toJson collapse v).map toJson).getD .null = (v.map toJson).getD .null := by
  cases v with
  | none => rfl
  | some a =>
    rw [collapseOption]
    cases ha : toJson a with
    | null => exact ha.symm
    | _ => exact h a

theorem map_toJson_collapse {toJson : α → Json} {collapse : α → α}
    (h : ∀ a, toJson (collapse a) = toJson a) (vs : List α) :
    (vs.map collapse).map toJson = vs.map toJson := by
  rw [List.map_map]
  exact List.map_congr_left fun a _ => h a

mutual

/-- A value has the same document when its fields are unset that are set to null. -/
theorem Shape.toJson_collapse : (s : Shape) → s.allFields Field.unsetIsNull → (v : s.Value) →
    s.toJson (s.collapse v) = s.toJson v
  | .text, _, _ => rfl
  | .truth, _, _ => rfl
  | .integer _, _, _ => rfl
  | @Shape.word _ _, _, _ => rfl
  | .json, _, _ => rfl
  | .list item, hs, vs => congrArg Json.array (map_toJson_collapse (item.toJson_collapse hs) vs)
  | .record _ fields, hs, vs => congrArg Json.object (fields.toMembers_collapse hs vs)
  | .wrapped key item, hs, v => by
    cases v with
    | none => rfl
    | some vs =>
      exact congrArg (fun items => Json.object [(key, .array items)])
        (map_toJson_collapse (item.toJson_collapse hs) vs)

theorem Field.toJson?_collapse : (f : Field) → f.allFields Field.unsetIsNull → (v : f.Value) →
    f.toJson? (f.collapse v) = f.toJson? v
  | .required shape, hs, v => by
    rw [Field.allFields, Bool.and_eq_true] at hs
    exact congrArg some (shape.toJson_collapse hs.2 v)
  | .nullable shape, hs, v => by
    rw [Field.allFields, Bool.and_eq_true] at hs
    have hvalue := congrArg some (orNull_collapseOption (shape.toJson_collapse hs.2) v)
    exact (shape.toJson?_nullable _).trans (hvalue.trans (shape.toJson?_nullable _).symm)
  | .optional shape, hs, v => by
    rw [Field.allFields, Bool.and_eq_true] at hs
    have hvalue := congrArg some (orNull_collapseOption (shape.toJson_collapse hs.2) v)
    exact (shape.toJson?_optional _).trans (hvalue.trans (shape.toJson?_optional _).symm)
  | .sparse shape, hs, v => by
    rw [Field.allFields, Bool.and_eq_true, Field.unsetIsNull, Bool.not_eq_true'] at hs
    cases v with
    | none => rfl
    | some a =>
      -- The value is not null, so the field is still set.
      have hset : collapseOption shape.toJson shape.collapse (some a) = some (shape.collapse a) := by
        rw [collapseOption, shape.isNull_toJson hs.1, if_neg Bool.false_ne_true]
      change (collapseOption shape.toJson shape.collapse (some a)).map shape.toJson = _
      rw [hset, Option.map_some, shape.toJson_collapse hs.2]
      rfl
  | .flag, _, _ => rfl
  | .listing item, hs, vs => by
    rw [Field.allFields, Bool.and_eq_true] at hs
    cases vs with
    | nil => rfl
    | cons v vs =>
      exact congrArg (fun items => some (Json.array items))
        (map_toJson_collapse (item.toJson_collapse hs.2) (v :: vs))

theorem Fields.toMembers_collapse : (fs : Fields) → fs.allFields Field.unsetIsNull → (vs : fs.Values) →
    fs.toMembers (fs.collapse vs) = fs.toMembers vs
  | .nil, _, _ => rfl
  | .cons key field rest, hs, (v, more) => by
    rw [Fields.allFields, Bool.and_eq_true] at hs
    rw [Fields.collapse, Fields.toMembers, Fields.toMembers, field.toJson?_collapse hs.1,
      rest.toMembers_collapse hs.2]

end

/-- Values of a shape have one document exactly when they differ in fields set to null only. -/
theorem Shape.toJson_eq_iff {s : Shape} (hs : s.allFields Field.unsetIsNull) (hd : s.Distinct) {v w : s.Value} :
    s.toJson v = s.toJson w ↔ s.collapse v = s.collapse w := by
  constructor
  · intro h
    have hv := s.value?_toJson hd v
    rw [h, s.value?_toJson hd w] at hv
    exact (Option.some.inj hv).symm
  · intro h
    rw [← s.toJson_collapse hs v, h, s.toJson_collapse hs w]

/-! ## 4. Records -/

theorem RecordType.nullIsUnset (R : RecordType) (h : R.isResponse = false) :
    (Wire.shape R.Value).allFields Field.nullIsUnset := by
  cases R with
  | requestCatalog | requestEngine | requestColumn | requestSource | requestDimension | requestTransform
  | requestMetric | requestMetricMetadata | requestCube => decide
  | _ => cases h

theorem RecordType.unsetIsNull (R : RecordType) (h : R.isResponse = true) :
    (Wire.shape R.Value).allFields Field.unsetIsNull := by
  cases R with
  | requestCatalog | requestEngine | requestColumn | requestSource | requestDimension | requestTransform
  | requestMetric | requestMetricMetadata | requestCube => cases h
  | _ => decide

theorem PayloadType.allFields_shape (T : PayloadType) (p : Field → Bool) :
    T.shape.allFields p = (Wire.shape T.record.Value).allFields p := by
  cases T <;> rfl

theorem Wire.pack_inj {α : Type} [Wire α] {a b : α} (h : pack a = pack b) : a = b := by
  rw [← unpack_pack a, h, unpack_pack b]

/-- Two requests have one document only if they are the same. -/
theorem PayloadType.toJson_inj_request (T : PayloadType) (h : T.record.isResponse = false) {a b : T.Value} :
    Wire.toJson a = Wire.toJson b ↔ a = b := by
  refine ⟨fun heq => Wire.pack_inj ?_, congrArg Wire.toJson⟩
  refine T.shape.toJson_inj ?_ T.distinct heq
  rw [T.allFields_shape]
  exact T.record.nullIsUnset h

/-- Two responses have one document exactly when they differ in fields set to null only. -/
theorem PayloadType.toJson_inj_response (T : PayloadType) (h : T.record.isResponse = true) {a b : T.Value} :
    Wire.toJson a = Wire.toJson b ↔ T.unsetNulls a = T.unsetNulls b := by
  have hshape : T.shape.allFields Field.unsetIsNull := by
    rw [T.allFields_shape]
    exact T.record.unsetIsNull h
  refine (Shape.toJson_eq_iff hshape T.distinct).trans ?_
  rw [← T.pack_unsetNulls a, ← T.pack_unsetNulls b]
  exact ⟨Wire.pack_inj, congrArg Wire.pack⟩

/-- No two requests have one text, in either layout, however deep their documents are, if these hold no
doubles. Two responses have one text exactly when they are the same with every field unset that is set to
null. -/
theorem encode_inj (T : PayloadType) (a b : T.Value) (ha : (Wire.toJson a).FloatFree)
    (hb : (Wire.toJson b).FloatFree) :
    (T.record.isResponse = false →
      (encode a = encode b ↔ a = b) ∧ (encodePretty a = encodePretty b ↔ a = b)) ∧
    (T.record.isResponse = true →
      (encode a = encode b ↔ T.unsetNulls a = T.unsetNulls b) ∧
        (encodePretty a = encodePretty b ↔ T.unsetNulls a = T.unsetNulls b)) := by
  refine ⟨fun h => ⟨?_, ?_⟩, fun h => ⟨?_, ?_⟩⟩
  · exact (compact_inj ha hb).trans (T.toJson_inj_request h)
  · exact (pretty_inj ha hb).trans (T.toJson_inj_request h)
  · exact (compact_inj ha hb).trans (T.toJson_inj_response h)
  · exact (pretty_inj ha hb).trans (T.toJson_inj_response h)

/-- Arrays in one another. -/
def Json.arrays : Nat → Json
  | 0 => .array []
  | n + 1 => .array [arrays n]

theorem Json.canonical_arrays (n : Nat) : (arrays n).Canonical := by
  induction n with
  | zero => trivial
  | succ n ih => exact ⟨ih, trivial⟩

theorem Json.floatFree_arrays (n : Nat) : (arrays n).FloatFree := by
  induction n with
  | zero => trivial
  | succ n ih => exact ⟨ih, trivial⟩

/-- A transform without metadata is told from one whose metadata is null, a metric without metadata from one
whose metadata is all unset, and documents from deeper ones where neither could be read. Columns are not told
from each other by a dimension that is null. -/
theorem encode_inj_null :
    let transform : Request.Transform := { name := "t", query := "" }
    let deep : Nat → Request.Transform := fun n =>
      { transform with customMetadata := some ⟨arrays n, canonical_arrays n⟩ }
    let metric : Request.Metric := { name := "m", query := "" }
    let column : Response.Node.Column := { attributes := some [.null] }
    encode transform ≠ encode { transform with customMetadata := some .null } ∧
      encodePretty metric ≠ encodePretty { metric with metadata := some {} } ∧
      encode (deep 200) ≠ encode (deep 201) ∧
      encode [column] = encode [{ column with dimension := some .null }] ∧
      encodePretty [column] ≠ encodePretty [{ column with attributes := none }] := by
  intro transform deep metric column
  have hdeep : ∀ n, (Wire.toJson (deep n)).FloatFree := fun n =>
    ⟨trivial, trivial, trivial, trivial, trivial, trivial, trivial, floatFree_arrays n, trivial, trivial⟩
  refine ⟨fun heq => ?_, fun heq => ?_, fun heq => ?_, ?_, fun heq => ?_⟩
  · obtain ⟨hencode, -⟩ := (encode_inj (.one .requestTransform) transform
      { transform with customMetadata := some .null } (by repeat' constructor) (by repeat' constructor)).1 rfl
    exact nomatch congrArg Request.Transform.customMetadata (hencode.1 heq)
  · obtain ⟨-, hpretty⟩ := (encode_inj (.one .requestMetric) metric { metric with metadata := some {} }
      (by repeat' constructor) (by repeat' constructor)).1 rfl
    exact nomatch congrArg Request.Metric.metadata (hpretty.1 heq)
  · obtain ⟨hencode, -⟩ := (encode_inj (.one .requestTransform) (deep 200) (deep 201) (hdeep 200)
      (hdeep 201)).1 rfl
    have hmetadata := congrArg Request.Transform.customMetadata (hencode.1 heq)
    have hdepth : (arrays 200).depth ≠ (arrays 201).depth := by decide +kernel
    exact hdepth (congrArg (fun j => j.toJson.depth) (Option.some.inj hmetadata))
  · obtain ⟨hencode, -⟩ := (encode_inj (.many .nodeColumn) [column]
      [{ column with dimension := some .null }] (by repeat' constructor) (by repeat' constructor)).2 rfl
    exact hencode.2 rfl
  · obtain ⟨-, hpretty⟩ := (encode_inj (.many .nodeColumn) [column] [{ column with attributes := none }]
      (by repeat' constructor) (by repeat' constructor)).2 rfl
    exact nomatch congrArg (List.map Response.Node.Column.attributes) (hpretty.1 heq)

end MetricCatalog
