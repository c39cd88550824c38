import MetricCatalog.Inspection.Payload
import MetricCatalog.Proofs.Json.CanonicalForm
import MetricCatalog.Proofs.Json.Rendered
import MetricCatalog.Proofs.Schema.Agreement

/-!
# Projections — what an inspected payload shows

A projection takes from a document what the answers of one kind have of it, and says nothing of how the
payload is read. `PayloadKind.projection` lists the keys of all answers in the order in which they are
shown.
-/

namespace MetricCatalog

open Json Shape

/-! ## 1. Projections -/

/-- What is kept of a document; nothing if it is refused. -/
abbrev Projection := Json → Option Json

namespace Projection

def text : Projection
  | .string s => some (.string s)
  | _ => none

def truth : Projection
  | .boolean b => some (.boolean b)
  | _ => none

/-- An integer of 64 bits. -/
def integer : Projection
  | .number (.int i) =>
    if -0x8000000000000000 ≤ i.val ∧ i.val < 0x8000000000000000 then some (.number (.int i)) else none
  | _ => none

/-- Any document, with its keys sorted. -/
def whole : Projection := fun j => some j.canonical

def list (item : Projection) : Projection
  | .array js => (js.mapM item).map .array
  | _ => none

/-- A key of a record, what is kept of the value under it, and what is shown if there is none. -/
structure Slot where
  key : String
  value : Projection
  unset : Json

namespace Slot

def optional (key : String) (value : Projection) : Slot := ⟨key, value, .null⟩

def flag (key : String) : Slot := ⟨key, truth, .boolean false⟩

/-- What is shown of a value, which may be null. -/
def orUnset (slot : Slot) : Json → Option Json
  | .null => some slot.unset
  | j => slot.value j

/-- The member that is shown, whether there is a value or not. -/
def member? (slot : Slot) (found : Option Json) : Option (String × Json) :=
  (match found with
    | none => some slot.unset
    | some j => slot.orUnset j).map (slot.key, ·)

end Slot

/-- The members that are shown of an array in the place of an object, which may be too short. -/
def ofItems : List Slot → List Json → Option (List (String × Json))
  | [], [] => some []
  | [], _ :: _ => none
  | slot :: slots, js => do return (← slot.member? js.head?) :: (← ofItems slots js.tail)

def record (slots : List Slot) : Projection
  | .object ms => (slots.mapM fun slot : Slot => slot.member? (ms.lookup slot.key)).map .object
  | .array js => (ofItems slots js).map .object
  | _ => none

/-- An object with a list under its only key, for which the bare list may stand. -/
def wrapped (key : String) (item : Projection) : Projection
  | .array js => (js.mapM item).map fun js => .object [(key, .array js)]
  | .object ms => record [.optional key (list item)] (.object ms)
  | _ => none

/-! ## 2. Answers -/

def engine : Projection := record
  [.optional "name" text, .optional "version" text, .optional "uri" text, .optional "dialect" text]

def catalog : Projection := record [.optional "name" text, .optional "engines" (list engine)]

def dimension : Projection := record
  [.optional "name" text, .optional "node_name" text, .optional "node_display_name" text,
    .optional "properties" (list text), .optional "type" text,
    .optional "path" (list text), .flag "filter_only"]

def namespaceAnswer : Projection := record [.optional "message" text]

def nodeColumn : Projection := record
  [.optional "name" text, .optional "display_name" text, .optional "type" text,
    .optional "attributes" (list whole), .optional "dimension" whole, .optional "partition" whole]

def nodeParent : Projection := record [.optional "name" text]

def nodeCreatedBy : Projection := record [.optional "username" text]

def node : Projection := record
  [.optional "namespace" text, .optional "node_revision_id" integer, .optional "node_id" integer,
    .optional "type" text, .optional "name" text, .optional "display_name" text,
    .optional "version" text, .optional "status" text, .optional "mode" text,
    .optional "catalog" catalog, .optional "schema_" text,
    .optional "table" text, .optional "description" text, .optional "query" text,
    .optional "columns" (list nodeColumn), .optional "updated_at" text,
    .optional "parents" (list nodeParent), .optional "created_at" text,
    .optional "created_by" nodeCreatedBy, .optional "tags" (list text),
    .optional "current_version" text, .flag "missing_table", .optional "custom_metadata" whole]

def sqlColumn : Projection := record
  [.optional "name" text, .optional "type" text, .optional "column" text, .optional "node" text,
    .optional "semantic_entity" text, .optional "semantic_type" text]

def sql : Projection := record
  [.optional "sql" text, .optional "columns" (list sqlColumn), .optional "dialect" text,
    .optional "upstream_tables" (list text)]

end Projection

open Projection in
/-- What is shown of the answers of a kind. -/
def PayloadKind.projection : PayloadKind → Projection
  | catalog => Projection.catalog
  | catalogs => list Projection.catalog
  | engine => Projection.engine
  | engines => list Projection.engine
  | commonDimensions => wrapped "dimensions" dimension
  | .namespace => namespaceAnswer
  | node => Projection.node
  | nodes => list Projection.node
  | sql => Projection.sql

/-! ## 3. Shapes and their projections -/

/-- What is written of the values taken is what the projection keeps, if no key is repeated. -/
def Shape.Projects (s : Shape) (p : Projection) : Prop :=
  ∀ j, j.KeysDistinct → (s.value? j).map s.toJson = p j

/-- What is written of a field is what is shown for a key. -/
structure Field.Projects (f : Field) (slot : Projection.Slot) : Prop where
  written : ∀ v, ∃ j, f.toJson? v = some j
  missing : f.ifMissing?.bind f.toJson? = some slot.unset
  cutOff : f.ifCutOff?.bind f.toJson? = some slot.unset
  value : ∀ j, j.KeysDistinct → (f.value? j).bind f.toJson? = slot.orUnset j

def Fields.Projects : Fields → List Projection.Slot → Prop
  | .nil, [] => True
  | .cons key field rest, slot :: slots => slot.key = key ∧ field.Projects slot ∧ rest.Projects slots
  | _, _ => False

theorem projects_text : Shape.text.Projects Projection.text := by
  intro j _
  cases j <;> rfl

theorem projects_whole : Shape.json.Projects Projection.whole := by
  intro j _
  rfl

theorem projects_integer : (Shape.integer .bits64).Projects Projection.integer := by
  intro j _
  rcases j with _ | _ | (i | _) | _ | _ | _
  case number.int =>
    show ((integerOf .bits64 (.number (.int i))).toOption.map fun n =>
      Json.number (.int (Width.bits64.toInteger n))) =
      if -0x8000000000000000 ≤ i.val ∧ i.val < 0x8000000000000000 then some (.number (.int i)) else none
    rw [integerOf]
    by_cases hi : -0x8000000000000000 ≤ i.val ∧ i.val < 0x8000000000000000
    · have hof : IntBetween.ofInt? Width.bits64.lo Width.bits64.hi i.val = some ⟨i.val, hi.1, hi.2⟩ :=
        dif_pos hi
      simp only [hof]
      rw [if_pos hi]
      rfl
    · have hof : IntBetween.ofInt? Width.bits64.lo Width.bits64.hi i.val = none := dif_neg hi
      simp only [hof]
      rw [if_neg hi]
      rfl
  all_goals rfl

/-- What is kept of the items of a list. -/
theorem mapM_projects {item : Shape} {p : Projection} (h : item.Projects p) {js : List Json}
    (hjs : KeysDistinctItems js) : (js.mapM item.value?).map (List.map item.toJson) = js.mapM p := by
  induction js with
  | nil => rfl
  | cons j js ih =>
    rw [List.mapM_cons, List.mapM_cons, ← ih hjs.2, ← h j hjs.1]
    cases item.value? j with
    | none => rfl
    | some v => cases js.mapM item.value? <;> rfl

theorem projects_list {item : Shape} {p : Projection} (h : item.Projects p) :
    (Shape.list item).Projects (.list p) := by
  intro j hj
  refine (congrArg _ (Shape.value?_list item j)).trans ?_
  cases j with
  | array js =>
    show _ = (js.mapM p).map Json.array
    rw [← mapM_projects h hj]
    exact (Option.map_map _ _ _).symm
  | _ => rfl

/-! ## 4. Fields -/

theorem Shape.Projects.optional {s : Shape} {p : Projection} (h : s.Projects p) (key : String) :
    (Field.optional s).Projects (.optional key p) where
  written v := ⟨_, rfl⟩
  missing := rfl
  cutOff := rfl
  value j hj := by
    have hvalue := h j hj
    have hfield : (Field.optional s).value? j = orNull? s.value? j := Field.value?_optional s j
    rw [hfield]
    cases j with
    | null => rfl
    | _ =>
      refine Eq.trans ?_ hvalue
      show ((s.value? _).map some).bind _ = (s.value? _).map s.toJson
      cases s.value? _ <;> rfl

theorem projects_flag (key : String) : Field.flag.Projects (.flag key) where
  written v := ⟨_, rfl⟩
  missing := rfl
  cutOff := rfl
  value j _ := by
    cases j <;> rfl

/-- A record is shown field by field. -/
theorem Field.Projects.toMembers {key : String} {field : Field} {rest : Fields} {slot : Projection.Slot}
    (h : field.Projects slot) (v : Option field.Value) (more : Option rest.Values) :
    (v.bind fun v => more.bind fun more => some (v, more)).map (Fields.cons key field rest).toMembers =
      ((v.bind field.toJson?).map (key, ·)).bind fun m =>
        (more.map rest.toMembers).bind fun ms => some (m :: ms) := by
  cases v with
  | none => rfl
  | some v =>
    -- Every field of these records is written, so none is left out of the members.
    rcases h.written v with ⟨j, hj⟩
    show (more.bind fun more => some (v, more)).map _ = ((field.toJson? v).map (key, ·)).bind _
    rw [hj]
    cases more with
    | none => rfl
    | some more =>
      show some ((Fields.cons key field rest).toMembers (v, more)) = _
      rw [Fields.toMembers, hj]
      rfl

/-- If no key is repeated, what is taken under a key is what is found there. -/
theorem underKey_of_nodup {α : Type} {key : String} {ms : List (String × Json)}
    (h : (ms.map Prod.fst).Nodup) (value : Json → Option α) :
    underKey key value ms = match ms.lookup key with
      | none => some none
      | some j => (value j).map some := by
  rw [lookup_eq_head?, underKey]
  rcases filter_of_nodup key h with hfilter | ⟨j, hfilter⟩
  · rw [hfilter]
    rfl
  · rw [hfilter]
    rfl

/-- What is taken from what is found for a field, be it nothing, is what is shown for its key. -/
theorem Field.Projects.member? {field : Field} {slot : Projection.Slot} (h : field.Projects slot)
    {found : Option Json} (hfound : ∀ j ∈ found, j.KeysDistinct) :
    ((match found with
      | none => field.ifMissing?
      | some j => field.value? j).bind field.toJson?).map (slot.key, ·) = slot.member? found := by
  cases found with
  | none => exact congrArg (Option.map _) h.missing
  | some j => exact congrArg (Option.map _) (h.value j (hfound j rfl))

/-- The members of an object are shown slot by slot, in the order of the fields. -/
theorem Fields.Projects.gather : {fs : Fields} → {slots : List Projection.Slot} → fs.Projects slots →
    {ms : List (String × Json)} → (Json.object ms).KeysDistinct →
    (fs.gather ms).map fs.toMembers = slots.mapM fun slot => slot.member? (ms.lookup slot.key)
  | .nil, [], _, _, _ => rfl
  | .cons key field rest, slot :: slots, h, ms, hms => by
    rcases h with ⟨rfl, hfield, hrest⟩
    have hfound : ((underKey slot.key field.value? ms).bind fun found => found.or field.ifMissing?) =
        match ms.lookup slot.key with
        | none => field.ifMissing?
        | some j => field.value? j := by
      rw [underKey_of_nodup hms.1]
      cases ms.lookup slot.key with
      | none => rfl
      | some j =>
        show ((field.value? j).map some).bind _ = field.value? j
        cases field.value? j <;> rfl
    -- Both sides take the first slot and then the others.
    rw [List.mapM_cons, ← hrest.gather hms, ← hfield.member? (hms.2.lookup slot.key), ← hfound]
    refine Eq.trans ?_ (hfield.toMembers _ _)
    exact congrArg _ (Option.bind_assoc _ _ _).symm

/-- So are the items of an array, where those that are cut off are shown as unset. -/
theorem Fields.Projects.items? : {fs : Fields} → {slots : List Projection.Slot} → fs.Projects slots →
    {js : List Json} → KeysDistinctItems js →
      (fs.items? js).map fs.toMembers = Projection.ofItems slots js
  | .nil, [], _, [], _ => rfl
  | .nil, [], _, _ :: _, _ => rfl
  | .cons key field rest, slot :: slots, h, j :: js, hjs => by
    rcases h with ⟨rfl, hfield, hrest⟩
    have hmember : ((field.value? j).bind field.toJson?).map (slot.key, ·) = slot.member? (some j) :=
      congrArg (Option.map _) (hfield.value j hjs.1)
    rw [Projection.ofItems, List.head?_cons, List.tail_cons, ← hmember, ← hrest.items? hjs.2]
    exact hfield.toMembers _ _
  | .cons key field rest, slot :: slots, h, [], hjs => by
    rcases h with ⟨rfl, hfield, hrest⟩
    have hmember : (field.ifCutOff?.bind field.toJson?).map (slot.key, ·) = slot.member? none :=
      congrArg (Option.map _) hfield.cutOff
    rw [Projection.ofItems, List.head?_nil, List.tail_nil, ← hmember,
      ← hrest.items? (show KeysDistinctItems [] from trivial)]
    exact hfield.toMembers _ _

theorem projects_record {name : String} {fields : Fields} {slots : List Projection.Slot}
    (hkeys : fields.keys.Nodup) (h : fields.Projects slots) :
    (Shape.record name fields).Projects (.record slots) := by
  intro j hj
  cases j with
  | object ms =>
    have hvalue : (Shape.record name fields).value? (.object ms) = fields.gather ms :=
      Shape.value?_object name hkeys ms
    rw [hvalue, Projection.record, ← h.gather hj]
    exact (Option.map_map _ _ _).symm
  | array js =>
    have hvalue : (Shape.record name fields).value? (.array js) = fields.items? js :=
      Shape.value?_array name fields js
    rw [hvalue, Projection.record, ← h.items? hj]
    exact (Option.map_map _ _ _).symm
  | _ => rfl

theorem projects_wrapped {key : String} {item : Shape} {p : Projection} (h : item.Projects p) :
    (Shape.wrapped key item).Projects (.wrapped key p) := by
  intro j hj
  cases j with
  | object ms =>
    -- The object is read and written like a record with this one field.
    have hkeys : (Fields.cons key (.optional (.list item)) .nil).keys.Nodup :=
      List.nodup_cons.2 ⟨List.not_mem_nil, List.nodup_nil⟩
    have hrecord : (Shape.record "" (.cons key (.optional (.list item)) .nil)).Projects
        (.record [.optional key (.list p)]) :=
      projects_record hkeys ⟨rfl, (projects_list h).optional key, trivial⟩
    refine Eq.trans ?_ (hrecord (.object ms) hj)
    have hfield : (Field.optional (.list item)).value? = orNull? (list? item.value?) :=
      funext fun j =>
        (Field.value?_optional _ j).trans (congrArg (orNull? · j) (funext (Shape.value?_list item)))
    have hvalue : (Shape.record "" (.cons key (.optional (.list item)) .nil)).value? (.object ms) =
        (underKey key (Field.optional (.list item)).value? ms).bind fun found =>
          (found.or (some none)).bind fun v => some (v, ()) :=
      Shape.value?_object "" hkeys ms
    have hwrapped : (Shape.wrapped key item).value? (.object ms) =
        (underKey key (Field.optional (.list item)).value? ms).map fun found => found.getD none := by
      rw [hfield]
      exact Shape.value?_wrappedObject key item ms
    rw [hvalue, hwrapped]
    rcases underKey key (Field.optional (.list item)).value? ms with _ | _ | _ | vs <;> rfl
  | array js =>
    have hvalue : (Shape.wrapped key item).value? (.array js) = (js.mapM item.value?).map some :=
      Shape.value?_wrappedArray key item js
    rw [hvalue, Projection.wrapped, ← mapM_projects h hj]
    cases js.mapM item.value? <;> rfl
  | _ => rfl

/-! ## 5. Answers and their projections -/

theorem projects_engine : (Wire.shape Response.Engine).Projects Projection.engine :=
  projects_record (by decide)
    ⟨rfl, projects_text.optional _, rfl, projects_text.optional _, rfl, projects_text.optional _,
      rfl, projects_text.optional _, trivial⟩

theorem projects_catalog : (Wire.shape Response.Catalog).Projects Projection.catalog :=
  projects_record (by decide)
    ⟨rfl, projects_text.optional _, rfl, (projects_list projects_engine).optional _, trivial⟩

theorem projects_dimension : (Wire.shape Response.Dimension).Projects Projection.dimension :=
  projects_record (by decide)
    ⟨rfl, projects_text.optional _, rfl, projects_text.optional _, rfl, projects_text.optional _,
      rfl, (projects_list projects_text).optional _, rfl, projects_text.optional _,
      rfl, (projects_list projects_text).optional _, rfl, projects_flag _, trivial⟩

theorem projects_namespaceAnswer :
    (Wire.shape Response.Namespace).Projects Projection.namespaceAnswer :=
  projects_record (by decide) ⟨rfl, projects_text.optional _, trivial⟩

theorem projects_nodeCatalog : (Wire.shape Response.Node.Catalog).Projects Projection.catalog :=
  projects_record (by decide)
    ⟨rfl, projects_text.optional _, rfl, (projects_list projects_engine).optional _, trivial⟩

theorem projects_nodeColumn : (Wire.shape Response.Node.Column).Projects Projection.nodeColumn :=
  projects_record (by decide)
    ⟨rfl, projects_text.optional _, rfl, projects_text.optional _, rfl, projects_text.optional _,
      rfl, (projects_list projects_whole).optional _, rfl, projects_whole.optional _,
      rfl, projects_whole.optional _, trivial⟩

theorem projects_nodeParent : (Wire.shape Response.Node.Parent).Projects Projection.nodeParent :=
  projects_record (by decide) ⟨rfl, projects_text.optional _, trivial⟩

theorem projects_nodeCreatedBy :
    (Wire.shape Response.Node.CreatedBy).Projects Projection.nodeCreatedBy :=
  projects_record (by decide) ⟨rfl, projects_text.optional _, trivial⟩

theorem projects_node : (Wire.shape Response.Node).Projects Projection.node :=
  projects_record (by decide)
    ⟨rfl, projects_text.optional _, rfl, projects_integer.optional _, rfl, projects_integer.optional _,
      rfl, projects_text.optional _, rfl, projects_text.optional _, rfl, projects_text.optional _,
      rfl, projects_text.optional _, rfl, projects_text.optional _, rfl, projects_text.optional _,
      rfl, projects_nodeCatalog.optional _, rfl, projects_text.optional _,
      rfl, projects_text.optional _,
      rfl, projects_text.optional _, rfl, projects_text.optional _,
      rfl, (projects_list projects_nodeColumn).optional _, rfl, projects_text.optional _,
      rfl, (projects_list projects_nodeParent).optional _, rfl, projects_text.optional _,
      rfl, projects_nodeCreatedBy.optional _, rfl, (projects_list projects_text).optional _,
      rfl, projects_text.optional _, rfl, projects_flag _, rfl, projects_whole.optional _, trivial⟩

theorem projects_sqlColumn : (Wire.shape Response.Sql.Column).Projects Projection.sqlColumn :=
  projects_record (by decide)
    ⟨rfl, projects_text.optional _, rfl, projects_text.optional _, rfl, projects_text.optional _,
      rfl, projects_text.optional _, rfl, projects_text.optional _, rfl, projects_text.optional _,
      trivial⟩

theorem projects_sql : (Wire.shape Response.Sql).Projects Projection.sql :=
  projects_record (by decide)
    ⟨rfl, projects_text.optional _, rfl, (projects_list projects_sqlColumn).optional _,
      rfl, projects_text.optional _, rfl, (projects_list projects_text).optional _, trivial⟩

theorem PayloadKind.projects_projection (kind : PayloadKind) :
    (Wire.shape kind.Answer).Projects kind.projection := by
  cases kind with
  | catalog => exact projects_catalog
  | catalogs => exact projects_list projects_catalog
  | engine => exact projects_engine
  | engines => exact projects_list projects_engine
  | commonDimensions => exact projects_wrapped projects_dimension
  | «namespace» => exact projects_namespaceAnswer
  | node => exact projects_node
  | nodes => exact projects_list projects_node
  | sql => exact projects_sql

/-! ## 6. Inspection -/

theorem inspect_eq_ok {kind : PayloadKind} {payload out : String} :
    inspect kind payload = .ok out ↔
      ∃ a, decode kind.Answer payload = .ok a ∧ encodePretty a = out := by
  unfold inspect
  cases decode kind.Answer payload with
  | error e => exact ⟨nofun, nofun⟩
  | ok a =>
    constructor
    · intro h
      exact ⟨a, rfl, Except.ok.inj h⟩
    · rintro ⟨_, ha, rfl⟩
      cases ha
      rfl

/-- A payload that is a document without repeated keys is inspected exactly if its projection is defined, and
then the projection is what is shown. -/
theorem inspect_projection (kind : PayloadKind) {payload : String} {doc : Json}
    (h : parse payload = .ok doc) (hdistinct : doc.KeysDistinct) :
    ((∃ out, inspect kind payload = .ok out) ↔ ∃ j, kind.projection doc = some j) ∧
      ∀ j, kind.projection doc = some j → inspect kind payload = .ok j.pretty := by
  have hprojects := kind.projects_projection doc hdistinct
  -- What is decoded is written again as it is projected, so the two succeed together.
  have hshown : ∀ j, kind.projection doc = some j → inspect kind payload = .ok j.pretty := by
    intro j hj
    rw [← hprojects, Option.map_eq_some_iff] at hj
    rcases hj with ⟨v, hv, rfl⟩
    refine inspect_eq_ok.2 ⟨Wire.unpack v, (decode_eq_ok h).2 ?_, ?_⟩
    · rw [Wire.pack_unpack]
      exact hv
    · rw [encodePretty, Wire.toJson, Wire.pack_unpack]
  refine ⟨⟨?_, ?_⟩, hshown⟩
  · rintro ⟨out, hout⟩
    rcases inspect_eq_ok.1 hout with ⟨a, ha, -⟩
    refine ⟨Wire.toJson a, ?_⟩
    rw [← hprojects, (decode_eq_ok h).1 ha]
    rfl
  · rintro ⟨j, hj⟩
    exact ⟨j.pretty, hshown j hj⟩

/-- An array stands in the place of a dimension, and a key that no dimension has is gone. -/
theorem inspect_projection_commonDimensions :
    inspect .commonDimensions "\x7b\"dimensions\":[[\"a\",null,\"b\"]],\"extra\":[null]\x7d" =
      .ok ("\x7b\n  \"dimensions\": [\n    \x7b\n      \"name\": \"a\",\n      \"node_name\": null,\n" ++
        "      \"node_display_name\": \"b\",\n      \"properties\": null,\n      \"type\": null,\n" ++
        "      \"path\": null,\n      \"filter_only\": false\n    \x7d\n  ]\n\x7d") := by
  let doc : Json := .object
    [("dimensions", .array [.array [.string "a", .null, .string "b"]]), ("extra", .array [.null])]
  let shown : Json := .object [("dimensions", .array [.object
    [("name", .string "a"), ("node_name", .null), ("node_display_name", .string "b"),
      ("properties", .null), ("type", .null), ("path", .null), ("filter_only", .boolean false)]])]
  have hparse : parse "\x7b\"dimensions\":[[\"a\",null,\"b\"]],\"extra\":[null]\x7d" = .ok doc := by
    rw [show "\x7b\"dimensions\":[[\"a\",null,\"b\"]],\"extra\":[null]\x7d" =
      doc.compact by decide +kernel]
    exact parse_compact (by repeat' constructor) (by decide)
  have hdistinct : doc.KeysDistinct := ⟨by decide, by repeat' constructor⟩
  -- What is left is to render the projection.
  rw [(inspect_projection .commonDimensions hparse hdistinct).2 shown rfl]
  refine congrArg Except.ok ?_
  decide +kernel

end MetricCatalog
