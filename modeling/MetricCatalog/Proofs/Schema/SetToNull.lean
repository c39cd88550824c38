import MetricCatalog.Proofs.Schema.RoundTrip

/-!
# Set to null — the one difference that encoding does not keep

Only four fields of all records hold any document and may be unset: the metadata of a transform and of a
node, and the dimension and the partition of a node's column. Values in which none of them is set to null
are decoded as they were encoded, and in the others exactly these fields are unset.
-/

namespace MetricCatalog

open Json Shape

/-! ## 1. Shapes without such fields -/

/-- Whether null is a value of a shape. -/
def Shape.takesNull : Shape → Bool
  | .json => true
  | _ => false

mutual

/-- Whether no field of a shape may be set to null. -/
def Shape.noNulls : Shape → Bool
  | .list item => item.noNulls
  | .record _ fields => fields.noNulls
  | .wrapped _ item => item.noNulls
  | _ => true

def Field.noNulls : Field → Bool
  | .required shape => shape.noNulls
  | .nullable shape => !shape.takesNull && shape.noNulls
  | .optional shape => !shape.takesNull && shape.noNulls
  | .sparse shape => !shape.takesNull && shape.noNulls
  | .flag => true
  | .listing item => item.noNulls

def Fields.noNulls : Fields → Bool
  | .nil => true
  | .cons _ field rest => field.noNulls && rest.noNulls

end

theorem Shape.isNull_toJson : (s : Shape) → s.takesNull = false → (v : s.Value) →
    (s.toJson v).isNull = false
  | .text, _, _ => rfl
  | .truth, _, _ => rfl
  | .integer _, _, _ => rfl
  | @Shape.word _ _, _, _ => rfl
  | .json, h, _ => nomatch h
  | .list _, _, _ => rfl
  | .record _ _, _, _ => rfl
  | .wrapped _ _, _, _ => rfl

/-- A field whose shape does not take null cannot be set to null. -/
theorem Shape.collapseOption_eq_self {s : Shape} (h : !s.takesNull && s.noNulls)
    (hs : s.noNulls → ∀ v, s.collapse v = v) (v : Option s.Value) :
    collapseOption s.toJson s.collapse v = v := by
  rw [Bool.and_eq_true, Bool.not_eq_true'] at h
  cases v with
  | none => rfl
  | some a => rw [collapseOption, s.isNull_toJson h.1, hs h.2, if_neg Bool.false_ne_true]

theorem map_eq_self {α : Type} {f : α → α} (h : ∀ a, f a = a) (xs : List α) : xs.map f = xs := by
  rw [funext h]
  exact List.map_id' xs

mutual

theorem Shape.collapse_eq_self : (s : Shape) → s.noNulls → (v : s.Value) → s.collapse v = v
  | .text, _, _ => rfl
  | .truth, _, _ => rfl
  | .integer _, _, _ => rfl
  | @Shape.word _ _, _, _ => rfl
  | .json, _, _ => rfl
  | .list item, h, vs => map_eq_self (item.collapse_eq_self h) vs
  | .record _ fields, h, vs => fields.collapse_eq_self h vs
  | .wrapped _ item, h, vs => by
    cases vs with
    | none => rfl
    | some vs => exact congrArg some (map_eq_self (item.collapse_eq_self h) vs)

theorem Field.collapse_eq_self : (f : Field) → f.noNulls → (v : f.Value) → f.collapse v = v
  | .required shape, h, v => shape.collapse_eq_self h v
  | .nullable shape, h, v => Shape.collapseOption_eq_self h shape.collapse_eq_self v
  | .optional shape, h, v => Shape.collapseOption_eq_self h shape.collapse_eq_self v
  | .sparse shape, h, v => Shape.collapseOption_eq_self h shape.collapse_eq_self v
  | .flag, _, _ => rfl
  | .listing item, h, vs => map_eq_self (item.collapse_eq_self h) vs

theorem Fields.collapse_eq_self : (fs : Fields) → fs.noNulls → (vs : fs.Values) → fs.collapse vs = vs
  | .nil, _, _ => rfl
  | .cons key field rest, h, (v, more) => by
    rw [Fields.noNulls, Bool.and_eq_true] at h
    exact Prod.ext (field.collapse_eq_self h.1 v) (rest.collapse_eq_self h.2 more)

end

/-! ## 2. The fields that may be set to null -/

/-- A document, unset if it is null. -/
def unsetNull : Option CanonicalJson → Option CanonicalJson
  | some ⟨.null, _⟩ => none
  | j => j

theorem collapseOption_toJson (j : Option CanonicalJson) :
    collapseOption CanonicalJson.toJson (fun j => j) j = unsetNull j := by
  rcases j with _ | ⟨j, hj⟩
  · rfl
  · cases j <;> rfl

theorem unsetNull_eq_self (j : Option CanonicalJson) : unsetNull j = j ↔ j ≠ some .null := by
  rcases j with _ | ⟨j, hj⟩
  · exact ⟨fun _ => nofun, fun _ => rfl⟩
  · cases j with
    | null => exact ⟨nofun, fun h => absurd rfl h⟩
    | _ => exact ⟨fun _ => nofun, fun _ => rfl⟩

def Request.Transform.unsetNulls (t : Request.Transform) : Request.Transform :=
  { t with customMetadata := unsetNull t.customMetadata }

def Response.Node.Column.unsetNulls (c : Response.Node.Column) : Response.Node.Column :=
  { c with dimension := unsetNull c.dimension, partition := unsetNull c.partition }

def Response.Node.unsetNulls (n : Response.Node) : Response.Node :=
  { n with
    columns := n.columns.map (List.map Column.unsetNulls)
    customMetadata := unsetNull n.customMetadata }

def Response.Node.Column.SetToNull (c : Response.Node.Column) : Prop :=
  c.dimension = some .null ∨ c.partition = some .null

def Response.Node.SetToNull (n : Response.Node) : Prop :=
  n.customMetadata = some .null ∨ ∃ cs, n.columns = some cs ∧ ∃ c ∈ cs, c.SetToNull

namespace RecordType

/-- A record with every field unset that is set to null. -/
def unsetNulls : (T : RecordType) → T.Value → T.Value
  | requestTransform, t => Request.Transform.unsetNulls t
  | nodeColumn, c => Response.Node.Column.unsetNulls c
  | node, n => Response.Node.unsetNulls n
  | _, v => v

/-- A field of the record that may be unset is set to null. -/
def SetToNull : (T : RecordType) → T.Value → Prop
  | requestTransform, t => Request.Transform.customMetadata t = some .null
  | nodeColumn, c => Response.Node.Column.SetToNull c
  | node, n => Response.Node.SetToNull n
  | _, _ => False

end RecordType

namespace PayloadType

/-- The records with every field unset that is set to null. -/
def unsetNulls : (T : PayloadType) → T.Value → T.Value
  | one T, v => T.unsetNulls v
  | many T, vs => List.map T.unsetNulls vs

/-- A field of one of the records that may be unset is set to null. -/
def SetToNull : (T : PayloadType) → T.Value → Prop
  | one T, v => T.SetToNull v
  | many T, vs => ∃ v, List.Mem v vs ∧ T.SetToNull v

end PayloadType

/-! ## 3. Records -/

theorem Request.Transform.pack_unsetNulls (t : Request.Transform) :
    Wire.pack t.unsetNulls = (Wire.shape Request.Transform).collapse (Wire.pack t) := by
  refine Eq.symm ?_
  -- Field by field: those without such a value keep it, and the others unset null.
  repeat' apply Prod.ext
  all_goals first | exact Field.collapse_eq_self _ rfl _ | exact collapseOption_toJson _ | rfl

theorem Response.Node.Column.pack_unsetNulls (c : Response.Node.Column) :
    Wire.pack c.unsetNulls = (Wire.shape Response.Node.Column).collapse (Wire.pack c) := by
  refine Eq.symm ?_
  repeat' apply Prod.ext
  all_goals first | exact Field.collapse_eq_self _ rfl _ | exact collapseOption_toJson _ | rfl

theorem map_pack_map {α β : Type} {pack : α → β} {f : α → α} {g : β → β}
    (h : ∀ a, pack (f a) = g (pack a)) (xs : List α) : (xs.map f).map pack = (xs.map pack).map g := by
  rw [List.map_map, List.map_map]
  exact List.map_congr_left fun a _ => h a

theorem Response.Node.pack_columns (columns : Option (List Response.Node.Column)) :
    (Field.optional (Wire.shape (List Response.Node.Column))).collapse (columns.map Wire.pack) =
      (columns.map (List.map Response.Node.Column.unsetNulls)).map Wire.pack := by
  cases columns with
  | none => rfl
  | some cs => exact congrArg some (map_pack_map Column.pack_unsetNulls cs).symm

theorem Response.Node.pack_unsetNulls (n : Response.Node) :
    Wire.pack n.unsetNulls = (Wire.shape Response.Node).collapse (Wire.pack n) := by
  refine Eq.symm ?_
  -- The columns are the only field in which such fields are nested.
  repeat' apply Prod.ext
  all_goals first
    | exact Field.collapse_eq_self _ rfl _
    | exact collapseOption_toJson _
    | exact Response.Node.pack_columns _
    | rfl

/-- Unsetting the fields set to null is all that is lost. -/
theorem RecordType.pack_unsetNulls (T : RecordType) (v : T.Value) :
    Wire.pack (T.unsetNulls v) = (Wire.shape T.Value).collapse (Wire.pack v) := by
  cases T with
  | requestTransform => exact Request.Transform.pack_unsetNulls v
  | nodeColumn => exact Response.Node.Column.pack_unsetNulls v
  | node => exact Response.Node.pack_unsetNulls v
  | _ => exact (Shape.collapse_eq_self _ rfl _).symm

theorem PayloadType.pack_unsetNulls (T : PayloadType) (v : T.Value) :
    Wire.pack (T.unsetNulls v) = T.shape.collapse (Wire.pack v) := by
  cases T with
  | one T => exact T.pack_unsetNulls v
  | many T => exact map_pack_map T.pack_unsetNulls v

theorem Request.Transform.unsetNulls_eq_self (t : Request.Transform) :
    t.unsetNulls = t ↔ t.customMetadata ≠ some .null := by
  rw [← unsetNull_eq_self]
  constructor
  · intro h
    exact congrArg Request.Transform.customMetadata h
  · intro h
    rw [Request.Transform.unsetNulls, h]

theorem Response.Node.Column.unsetNulls_eq_self (c : Response.Node.Column) :
    c.unsetNulls = c ↔ ¬ c.SetToNull := by
  rw [SetToNull, not_or, ← ne_eq, ← ne_eq, ← unsetNull_eq_self, ← unsetNull_eq_self]
  constructor
  · intro h
    exact ⟨congrArg Column.dimension h, congrArg Column.partition h⟩
  · intro h
    rw [unsetNulls, h.1, h.2]

theorem map_eq_self_iff {α : Type} {f : α → α} {xs : List α} : xs.map f = xs ↔ ∀ a ∈ xs, f a = a := by
  induction xs with
  | nil => simp
  | cons x xs ih => simp [ih]

theorem Response.Node.unsetNulls_eq_self (n : Response.Node) : n.unsetNulls = n ↔ ¬ n.SetToNull := by
  -- A node is kept if its own field and each of its columns are.
  have hcolumns : n.columns.map (List.map Column.unsetNulls) = n.columns ↔
      ¬ ∃ cs, n.columns = some cs ∧ ∃ c ∈ cs, c.SetToNull := by
    cases n.columns with
    | none => exact ⟨fun _ => nofun, fun _ => rfl⟩
    | some cs =>
      rw [Option.map_some, Option.some.injEq, map_eq_self_iff]
      constructor
      · rintro h ⟨cs', hcs, c, hc, hnull⟩
        cases hcs
        exact (c.unsetNulls_eq_self.1 (h c hc)) hnull
      · intro h c hc
        exact c.unsetNulls_eq_self.2 fun hnull => h ⟨cs, rfl, c, hc, hnull⟩
  rw [SetToNull, not_or, ← ne_eq, ← unsetNull_eq_self, ← hcolumns]
  constructor
  · intro h
    exact ⟨congrArg Node.customMetadata h, congrArg Node.columns h⟩
  · intro h
    rw [unsetNulls, h.1, h.2]

theorem RecordType.unsetNulls_eq_self (T : RecordType) (v : T.Value) :
    T.unsetNulls v = v ↔ ¬ T.SetToNull v := by
  cases T with
  | requestTransform => exact Request.Transform.unsetNulls_eq_self v
  | nodeColumn => exact Response.Node.Column.unsetNulls_eq_self v
  | node => exact Response.Node.unsetNulls_eq_self v
  | _ => exact ⟨fun _ => id, fun _ => rfl⟩

theorem PayloadType.unsetNulls_eq_self (T : PayloadType) (v : T.Value) :
    T.unsetNulls v = v ↔ ¬ T.SetToNull v := by
  cases T with
  | one T => exact T.unsetNulls_eq_self v
  | many T =>
    refine map_eq_self_iff.trans ?_
    constructor
    · rintro h ⟨a, ha, hnull⟩
      exact (T.unsetNulls_eq_self a).1 (h a ha) hnull
    · intro h a ha
      exact (T.unsetNulls_eq_self a).2 fun hnull => h ⟨a, ha, hnull⟩

/-! ## 4. Encoding and decoding -/

/-- What is encoded is decoded again, from either layout. Only fields set to null are unset, so that the
result is the value encoded exactly if it has no such field. -/
theorem decode_encode_unsetNulls (T : PayloadType) (v : T.Value) (hfloat : (Wire.toJson v).FloatFree)
    (hdepth : (Wire.toJson v).depth ≤ Scan.depthLimit) :
    decode T.Value (encode v) = .ok (T.unsetNulls v) ∧
      decode T.Value (encodePretty v) = .ok (T.unsetNulls v) ∧
      (T.unsetNulls v = v ↔ ¬ T.SetToNull v) := by
  -- Both layouts are parsed to the document that was written, so the layout is settled by parsing.
  have htaken : T.shape.value? (Wire.toJson v) = some (Wire.pack (T.unsetNulls v)) := by
    rw [T.pack_unsetNulls v]
    exact T.shape.value?_toJson T.distinct (Wire.pack v)
  refine ⟨?_, ?_, T.unsetNulls_eq_self v⟩
  · exact (decode_eq_ok (parse_compact hfloat hdepth)).2 htaken
  · exact (decode_eq_ok (parse_pretty hfloat hdepth)).2 htaken

/-- Null is kept inside a document and within a list, and an empty list is kept apart from an unset one. -/
theorem decode_encode_columns :
    let columns : List Response.Node.Column :=
      [{ attributes := some [.null], dimension := some .null,
          partition := some ⟨.array [.null], trivial, trivial⟩ },
        { name := some "\u0000\uFFFF\"", attributes := some [] }]
    decode (List Response.Node.Column) (encode columns) =
      .ok (columns.map Response.Node.Column.unsetNulls) ∧
      columns.map Response.Node.Column.unsetNulls =
        [{ attributes := some [.null], partition := some ⟨.array [.null], trivial, trivial⟩ },
          { name := some "\u0000\uFFFF\"", attributes := some [] }] :=
  ⟨(decode_encode_unsetNulls (.many .nodeColumn) _ (by repeat' constructor) (by decide)).1, rfl⟩

end MetricCatalog
