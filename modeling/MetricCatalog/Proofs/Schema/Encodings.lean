import MetricCatalog.Proofs.Json.Members
import MetricCatalog.Proofs.Schema.Insertion
import MetricCatalog.Proofs.Schema.RoundTrip
import MetricCatalog.Schema.Assign

/-!
# Encodings — the texts of records, member by member

The compact text of a record has one member for each key, in the order of the keys, with the text of that
field alone as its value (`membersOf_encode`). `RecordType.entries` lists them for each type. The laid out
text differs from the compact one by nothing but the blanks of its layout (`withoutBlanks_encodePretty`).
-/

namespace MetricCatalog

open Json

/-! ## 1. Layouts -/

/-- The two texts of a value are the same document: without the blanks of its layout the pretty text is the
compact one. The compact text shows nothing but visible characters outside of its literals and no control
character anywhere; the only control characters of the pretty text are newlines outside of literals. -/
theorem withoutBlanks_encodePretty {α : Type} [Wire α] (a : α) :
    withoutBlanks (encodePretty a).toList = (encode a).toList ∧
      (∀ m ∈ regions .outside (encode a).toList, (m.1 = .outside → Visible m.2) ∧ 0x20 ≤ m.2.toNat) ∧
      ∀ m ∈ regions .outside (encodePretty a).toList, m.2.toNat < 0x20 → m = (.outside, '\n') := by
  have h := Layout.airy_pretty.condenses_render (Wire.toJson a) 0 0
  simp only [encode, encodePretty, compact, pretty, String.toList_ofList]
  exact ⟨h.withoutBlanks_eq, fun m hm => ⟨h.tight.visible m hm, h.tight.noControl m hm⟩, h.control⟩

/-! ## 2. Fields by themselves -/

/-- A key with the text of its value; none if the member is left out. -/
abbrev FieldText := String × Option String

/-- The members that are written. -/
def written (es : List FieldText) : List (String × String) := es.filterMap fun e => e.2.map (e.1, ·)

/-- The members under all keys but one. -/
def others (key : String) (ms : List (String × String)) : List (String × String) :=
  ms.filter (·.1 ≠ key)

namespace FieldText

def orNull (text : Option String) : String := text.getD "null"

def truth (b : Bool) : String := if b then "true" else "false"

def integer {w : Width} (i : w.Integer) : String := toString i.val

/-- A list that is left out while it is empty. -/
def unlessEmpty (xs : List String) : Option String := if xs = [] then none else some (encode xs)

end FieldText

open FieldText

/-- The text of a field, unless it is left out. -/
def Field.text? : (f : Field) → f.Value → Option String
  | .required s, v => some (s.toJson v).compact
  | .nullable s, v => some (orNull (v.map fun v => (s.toJson v).compact))
  | .optional s, v => some (orNull (v.map fun v => (s.toJson v).compact))
  | .sparse s, v => v.map fun v => (s.toJson v).compact
  | .flag, b => some (truth b)
  | .listing s, xs => if xs.isEmpty then none else some (compact (.array (xs.map s.toJson)))

theorem Field.map_compact_toJson? (f : Field) (v : f.Value) : (f.toJson? v).map compact = f.text? v := by
  cases f with
  | required s => rfl
  | nullable s => cases v <;> rfl
  | optional s => cases v <;> rfl
  | sparse s => cases v <;> rfl
  | flag => cases v <;> rfl
  | listing s =>
    match v with
    | [] => rfl
    | x :: xs => rfl

namespace Fields

/-- All keys of a record with the texts of their fields. -/
def entries : (fs : Fields) → fs.Values → List FieldText
  | .nil, _ => []
  | .cons key field rest, (v, more) => (key, field.text? v) :: rest.entries more

theorem map_compact_toMembers : (fs : Fields) → (vs : fs.Values) →
    (fs.toMembers vs).map (fun m => (m.1, m.2.compact)) = written (fs.entries vs)
  | .nil, _ => rfl
  | .cons key field rest, (v, more) => by
    have hfield := field.map_compact_toJson? v
    have hrest := rest.map_compact_toMembers more
    rw [toMembers, entries, written, List.filterMap_cons, ← hfield]
    cases field.toJson? v with
    | none => exact hrest
    | some j => exact congrArg (_ :: ·) hrest

theorem map_fst_entries : (fs : Fields) → (vs : fs.Values) → (fs.entries vs).map Prod.fst = fs.keys
  | .nil, _ => rfl
  | .cons key _ rest, (_, more) => congrArg (key :: ·) (rest.map_fst_entries more)

variable (key : String) (change : (f : Field) → f.Value → f.Value)

/-- A changed field changes the text under its key and no other. -/
theorem filter_entries_modify : (fs : Fields) → (vs : fs.Values) →
    (fs.entries (Id.run (fs.modify key (fun f v => pure (change f v)) vs))).filter (·.1 ≠ key) =
      (fs.entries vs).filter (·.1 ≠ key)
  | .nil, _ => rfl
  | .cons k field rest, (v, more) => by
    by_cases hk : k = key
    · -- `modify` stops at the first field with the key, so the rest is as it was.
      have hmodify : Id.run ((Fields.cons k field rest).modify key (fun f v => pure (change f v))
          (v, more)) = (change field v, more) := congrArg Id.run (if_pos hk)
      rw [hmodify, entries, entries, List.filter_cons_of_neg (by simp [hk]),
        List.filter_cons_of_neg (by simp [hk])]
    · have hmodify : Id.run ((Fields.cons k field rest).modify key (fun f v => pure (change f v))
          (v, more)) = (v, Id.run (rest.modify key (fun f v => pure (change f v)) more)) :=
        congrArg Id.run (if_neg hk)
      rw [hmodify, entries, entries, List.filter_cons, List.filter_cons, rest.filter_entries_modify more]

end Fields

namespace Shape

/-- The values of the shape are written as objects. -/
def IsObject : Shape → Prop
  | .record _ _ => True
  | .wrapped _ _ => True
  | _ => False

/-- All keys of a value with the texts of their fields, if it has any. -/
def entries : (s : Shape) → s.Value → List FieldText
  | .record _ fields, vs => fields.entries vs
  | .wrapped key item, xs => [(key, Field.text? (.optional (.list item)) xs)]
  | _, _ => []

/-- The keys of the values themselves, not those of their parts. -/
def ownKeys : Shape → List String
  | .record _ fields => fields.keys
  | .wrapped key _ => [key]
  | _ => []

theorem membersOf_toJson {s : Shape} (h : s.IsObject) (v : s.Value) :
    membersOf (s.toJson v).compact = .ok (written (s.entries v)) := by
  cases s with
  | record name fields =>
    unfold toJson
    rw [membersOf_compact, fields.map_compact_toMembers v]
    rfl
  | wrapped key item =>
    unfold toJson
    rw [membersOf_compact]
    cases v <;> rfl
  | _ => exact h.elim

theorem map_fst_entries (s : Shape) (v : s.Value) : (s.entries v).map Prod.fst = s.ownKeys := by
  cases s with
  | record name fields => exact fields.map_fst_entries v
  | _ => rfl

theorem filter_entries_modify (s : Shape) (key : String) (change : (f : Field) → f.Value → f.Value)
    (v : s.Value) :
    (s.entries (Id.run (s.modify key (fun f v => pure (change f v)) v))).filter (·.1 ≠ key) =
      (s.entries v).filter (·.1 ≠ key) := by
  cases s with
  | record name fields => exact fields.filter_entries_modify key change v
  | wrapped k item =>
    by_cases hk : k = key
    · rw [entries, entries, List.filter_cons_of_neg (by simp [hk]), List.filter_cons_of_neg (by simp [hk])]
    · have hmodify : Id.run ((Shape.wrapped k item).modify key (fun f v => pure (change f v)) v) = v :=
        congrArg Id.run (if_neg hk)
      rw [hmodify]
  | _ => rfl

end Shape

/-- A value with one of its fields changed, the one under a key. -/
def Wire.changed {α : Type} [Wire α] (key : String) (change : (f : Field) → f.Value → f.Value)
    (a : α) : α :=
  unpack (Id.run ((shape α).modify key (fun f v => pure (change f v)) (pack a)))

/-! ## 3. Record types -/

namespace RecordType

/-- The keys of a record type, each with the text of the one field that stands under it. -/
def entries : (T : RecordType) → T.Value → List FieldText
  | requestCatalog, (c : Request.Catalog) => [("name", encode c.name)]
  | requestEngine, (e : Request.Engine) => [("name", encode e.name), ("version", encode e.version)]
  | requestColumn, (c : Request.Column) => [("name", encode c.name), ("type", encode c.type)]
  | requestSource, (s : Request.Source) =>
    [("name", encode s.name), ("catalog", encode s.catalog), ("schema_", encode s.schema),
      ("table", encode s.table), ("display_name", orNull (s.displayName.map encode)),
      ("description", orNull (s.description.map encode)), ("columns", encode s.columns),
      ("primary_key", encode s.primaryKey), ("mode", encode s.mode),
      ("update_if_exists", truth s.updateIfExists)]
  | requestDimension, (d : Request.Dimension) =>
    [("name", encode d.name), ("display_name", orNull (d.displayName.map encode)),
      ("description", orNull (d.description.map encode)), ("mode", encode d.mode),
      ("primary_key", encode d.primaryKey), ("tags", encode d.tags), ("query", encode d.query),
      ("update_if_exists", truth d.updateIfExists)]
  | requestTransform, (t : Request.Transform) =>
    [("name", encode t.name), ("display_name", orNull (t.displayName.map encode)),
      ("description", orNull (t.description.map encode)), ("mode", encode t.mode),
      ("primary_key", encode t.primaryKey), ("tags", encode t.tags), ("query", encode t.query),
      ("custom_metadata", t.customMetadata.map encode), ("update_if_exists", truth t.updateIfExists)]
  | requestMetric, (m : Request.Metric) =>
    [("name", encode m.name), ("display_name", orNull (m.displayName.map encode)),
      ("description", orNull (m.description.map encode)), ("mode", encode m.mode),
      ("query", encode m.query), ("update_if_exists", truth m.updateIfExists),
      ("required_dimensions", unlessEmpty m.requiredDimensions),
      ("metric_metadata", m.metadata.map encode), ("tags", unlessEmpty m.tags)]
  | requestMetricMetadata, (m : Request.MetricMetadata) =>
    [("direction", orNull (m.direction.map encode)), ("unit", orNull (m.unit.map encode)),
      ("significant_digits", orNull (m.significantDigits.map integer)),
      ("min_decimal_exponent", orNull (m.minDecimalExponent.map integer)),
      ("max_decimal_exponent", orNull (m.maxDecimalExponent.map integer))]
  | requestCube, (c : Request.Cube) =>
    [("name", encode c.name), ("display_name", orNull (c.displayName.map encode)),
      ("description", orNull (c.description.map encode)), ("mode", encode c.mode),
      ("metrics", encode c.metrics), ("dimensions", encode c.dimensions), ("filters", encode c.filters),
      ("tags", encode c.tags), ("update_if_exists", truth c.updateIfExists)]
  | catalog, (c : Response.Catalog) =>
    [("name", orNull (c.name.map encode)), ("engines", orNull (c.engines.map encode))]
  | engine, (e : Response.Engine) =>
    [("name", orNull (e.name.map encode)), ("version", orNull (e.version.map encode)),
      ("uri", orNull (e.uri.map encode)), ("dialect", orNull (e.dialect.map encode))]
  | commonDimensions, (c : Response.CommonDimensions) =>
    [("dimensions", orNull (c.dimensions.map encode))]
  | dimension, (d : Response.Dimension) =>
    [("name", orNull (d.name.map encode)), ("node_name", orNull (d.nodeName.map encode)),
      ("node_display_name", orNull (d.nodeDisplayName.map encode)),
      ("properties", orNull (d.properties.map encode)), ("type", orNull (d.type.map encode)),
      ("path", orNull (d.path.map encode)), ("filter_only", truth d.filterOnly)]
  | .namespace, (n : Response.Namespace) => [("message", orNull (n.message.map encode))]
  | node, (n : Response.Node) =>
    [("namespace", orNull (n.space.map encode)), ("node_revision_id", orNull (n.revisionId.map integer)),
      ("node_id", orNull (n.id.map integer)), ("type", orNull (n.type.map encode)),
      ("name", orNull (n.name.map encode)), ("display_name", orNull (n.displayName.map encode)),
      ("version", orNull (n.version.map encode)), ("status", orNull (n.status.map encode)),
      ("mode", orNull (n.mode.map encode)), ("catalog", orNull (n.catalog.map encode)),
      ("schema_", orNull (n.schema.map encode)), ("table", orNull (n.table.map encode)),
      ("description", orNull (n.description.map encode)), ("query", orNull (n.query.map encode)),
      ("columns", orNull (n.columns.map encode)), ("updated_at", orNull (n.updatedAt.map encode)),
      ("parents", orNull (n.parents.map encode)), ("created_at", orNull (n.createdAt.map encode)),
      ("created_by", orNull (n.createdBy.map encode)), ("tags", orNull (n.tags.map encode)),
      ("current_version", orNull (n.currentVersion.map encode)),
      ("missing_table", truth n.missingTable),
      ("custom_metadata", orNull (n.customMetadata.map encode))]
  | nodeCatalog, (c : Response.Node.Catalog) =>
    [("name", orNull (c.name.map encode)), ("engines", orNull (c.engines.map encode))]
  | nodeColumn, (c : Response.Node.Column) =>
    [("name", orNull (c.name.map encode)), ("display_name", orNull (c.displayName.map encode)),
      ("type", orNull (c.type.map encode)), ("attributes", orNull (c.attributes.map encode)),
      ("dimension", orNull (c.dimension.map encode)), ("partition", orNull (c.partition.map encode))]
  | nodeParent, (p : Response.Node.Parent) => [("name", orNull (p.name.map encode))]
  | nodeCreatedBy, (c : Response.Node.CreatedBy) => [("username", orNull (c.username.map encode))]
  | sql, (s : Response.Sql) =>
    [("sql", orNull (s.sql.map encode)), ("columns", orNull (s.columns.map encode)),
      ("dialect", orNull (s.dialect.map encode)),
      ("upstream_tables", orNull (s.upstreamTables.map encode))]
  | sqlColumn, (c : Response.Sql.Column) =>
    [("name", orNull (c.name.map encode)), ("type", orNull (c.type.map encode)),
      ("column", orNull (c.column.map encode)), ("node", orNull (c.node.map encode)),
      ("semantic_entity", orNull (c.semanticEntity.map encode)),
      ("semantic_type", orNull (c.semanticType.map encode))]

/-- The keys that a value is written without. -/
def Omits : (T : RecordType) → T.Value → String → Prop
  | requestMetric, (m : Request.Metric), key =>
    key = "required_dimensions" ∧ m.requiredDimensions = [] ∨
      key = "metric_metadata" ∧ m.metadata = none ∨ key = "tags" ∧ m.tags = []
  | requestTransform, (t : Request.Transform), key => key = "custom_metadata" ∧ t.customMetadata = none
  | _, _, _ => False

theorem text?_truth (b : Bool) : Field.text? (.required .truth) b = some (truth b) := by
  cases b <;> rfl

theorem compact_int (i : Integer) : (Json.number (.int i)).compact = toString i.val := by
  show String.ofList (renderInt i.val) = _
  unfold renderInt
  cases hi : i.val with
  | ofNat n =>
    have hn : ¬ Int.ofNat n < 0 := Int.not_lt.2 (Int.natCast_nonneg n)
    rw [if_neg hn]
    rfl
  | negSucc n =>
    rw [if_pos (Int.negSucc_lt_zero n)]
    show String.ofList ('-' :: Nat.toDigits 10 (n + 1)) = "-" ++ String.ofList (Nat.toDigits 10 (n + 1))
    rw [← List.singleton_append, String.ofList_append]

theorem text?_integer {w : Width} (i : Option w.Integer) :
    Field.text? (.optional (.integer w)) i = some (orNull (i.map integer)) := by
  cases i with
  | none => rfl
  | some i =>
    show some (Json.number (.int (w.toInteger i))).compact = some (toString i.val)
    rw [compact_int, w.val_toInteger]

theorem encode_texts (xs : List String) : encode xs = compact (.array (xs.map Shape.text.toJson)) := by
  show compact (.array ((xs.map id).map Shape.text.toJson)) = _
  rw [List.map_id]

theorem text?_texts (xs : List String) : Field.text? (.required (.list .text)) xs = some (encode xs) := by
  rw [encode_texts]
  rfl

theorem text?_optionalTexts (xs : Option (List String)) :
    Field.text? (.optional (.list .text)) xs = some (orNull (xs.map encode)) := by
  cases xs with
  | none => rfl
  | some xs => exact congrArg some (encode_texts xs).symm

theorem text?_optionalDocuments (xs : Option (List CanonicalJson)) :
    Field.text? (.optional (.list .json)) xs = some (orNull (xs.map encode)) := by
  cases xs with
  | none => rfl
  | some xs =>
    show some (compact (.array (xs.map Shape.json.toJson))) =
      some (compact (.array ((xs.map id).map Shape.json.toJson)))
    rw [List.map_id]

theorem text?_listing (xs : List String) : Field.text? (.listing .text) xs = unlessEmpty xs := by
  cases xs with
  | nil => rfl
  | cons x xs => exact congrArg some (encode_texts (x :: xs)).symm

theorem text?_optional {α : Type} [Wire α] (a : Option α) :
    Field.text? (.optional (Wire.shape α)) (a.map Wire.pack) = some (orNull (a.map encode)) := by
  cases a <;> rfl

theorem text?_sparse {α : Type} [Wire α] (a : Option α) :
    Field.text? (.sparse (Wire.shape α)) (a.map Wire.pack) = a.map encode := by
  cases a <;> rfl

theorem entries_eq (T : RecordType) (v : T.Value) :
    T.entries v = (Wire.shape T.Value).entries (Wire.pack v) := by
  -- Most fields agree by definition; the lemmas are for those whose encoding takes a value apart.
  cases T with
  | requestSource | requestDimension | requestTransform | requestCube =>
    simp only [entries, ← text?_truth, ← text?_texts]
    rfl
  | requestMetric =>
    simp only [entries, ← text?_truth, ← text?_listing]
    rw [← text?_sparse (Request.Metric.metadata v)]
    rfl
  | requestMetricMetadata =>
    simp only [entries, ← text?_integer]
    rfl
  | catalog =>
    simp only [entries]
    rw [← text?_optional (Response.Catalog.engines v)]
    rfl
  | nodeCatalog =>
    simp only [entries]
    rw [← text?_optional (Response.Node.Catalog.engines v)]
    rfl
  | commonDimensions =>
    simp only [entries]
    rw [← text?_optional (Response.CommonDimensions.dimensions v)]
    rfl
  | dimension =>
    simp only [entries, ← text?_optionalTexts]
    rfl
  | nodeColumn =>
    simp only [entries, ← text?_optionalDocuments]
    rfl
  | sql =>
    simp only [entries, ← text?_optionalTexts]
    rw [← text?_optional (Response.Sql.columns v)]
    rfl
  | node =>
    simp only [entries, ← text?_integer, ← text?_optionalTexts]
    rw [← text?_optional (Response.Node.catalog v), ← text?_optional (Response.Node.columns v),
      ← text?_optional (Response.Node.parents v), ← text?_optional (Response.Node.createdBy v)]
    rfl
  | _ => rfl

/-- The wire keys of a record type in the order of its declaration. -/
def keys (T : RecordType) : List String := (Wire.shape T.Value).ownKeys

theorem isObject (T : RecordType) : (Wire.shape T.Value).IsObject := by
  cases T <;> trivial

theorem keys_mem_recordKeys (T : RecordType) : T.keys ∈ (Wire.shape T.Value).recordKeys := by
  cases T <;> decide

theorem membersOf_entries (T : RecordType) (v : T.Value) :
    membersOf (encode v) = .ok (written (T.entries v)) := by
  rw [entries_eq]
  exact Shape.membersOf_toJson T.isObject (Wire.pack v)

theorem none_mem_entries (T : RecordType) (v : T.Value) (key : String) :
    (key, none) ∈ T.entries v ↔ T.Omits v key := by
  cases T
  case requestMetric => simp [entries, Omits, unlessEmpty, eq_comm]
  case requestTransform => simp [entries, Omits, eq_comm]
  all_goals simp [entries, Omits]

theorem filter_entries_changed (T : RecordType) (key : String) (change : (f : Field) → f.Value → f.Value)
    (v : T.Value) :
    (T.entries (Wire.changed key change v)).filter (·.1 ≠ key) = (T.entries v).filter (·.1 ≠ key) := by
  rw [entries_eq, entries_eq, Wire.changed, Wire.pack_unpack]
  exact Shape.filter_entries_modify _ key change _

end RecordType

theorem others_written (key : String) (es : List FieldText) :
    others key (written es) = written (es.filter (·.1 ≠ key)) := by
  unfold others written
  rw [List.filter_filterMap, List.filterMap_filter]
  congr
  funext ⟨k, text⟩
  by_cases hk : k = key <;> cases text <;> simp [hk]

/-- The text of a record comes apart into its wire keys, each once and in the order of the declaration, and
the texts of the fields under them, whatever characters its strings and documents hold. A metric's extras and
a transform's metadata are left out exactly while they are empty or unset. A change to one field leaves
the texts under all other keys as they are. -/
theorem membersOf_encode (T : RecordType) (v : T.Value) :
    membersOf (encode v) = .ok (written (T.entries v)) ∧
      (T.entries v).map Prod.fst = T.keys ∧ T.keys.Nodup ∧
      (∀ name ∈ ["column_type", "dimension_type", "node_type", "schema"], name ∉ T.keys) ∧
      (∀ key, (key, none) ∈ T.entries v ↔ T.Omits v key) ∧
      ∀ key change, (membersOf (encode (Wire.changed key change v))).map (others key) =
        (membersOf (encode v)).map (others key) := by
  refine ⟨T.membersOf_entries v, ?_, T.distinct _ T.keys_mem_recordKeys,
    T.renamed_not_mem _ T.keys_mem_recordKeys, T.none_mem_entries v, fun key change => ?_⟩
  · rw [T.entries_eq]
    exact Shape.map_fst_entries _ _
  · rw [T.membersOf_entries, T.membersOf_entries]
    show Except.ok (others key (written _)) = Except.ok (others key (written _))
    rw [others_written, others_written, T.filter_entries_changed]

end MetricCatalog
