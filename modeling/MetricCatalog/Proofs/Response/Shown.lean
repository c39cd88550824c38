import MetricCatalog.Proofs.Schema.Decoded
import MetricCatalog.Proofs.Schema.Received
import MetricCatalog.Proofs.Vocabulary.Words

/-!
# Shown requests — what an answer with the text of a request says

What the service stores of a request it shows under the same keys. Read as an answer, the text of a request
says of the thing what the request says of it, and leaves unset what a request has no key for.
-/

namespace MetricCatalog

open Json Shape

/-! ## 1. Answers -/

namespace Request

/-- The catalog that an answer with the text of the request shows. -/
def Catalog.shown (c : Catalog) : Response.Catalog := { name := some c.name }

def Engine.shown (e : Engine) : Response.Engine := { name := some e.name, version := some e.version }

def Column.shown (c : Column) : Response.Node.Column := { name := some c.name, type := some c.type }

/-- A generated query shows a column under the same keys as a node does. -/
def Column.shownInSql (c : Column) : Response.Sql.Column := { name := some c.name, type := some c.type }

def Dimension.shown (d : Dimension) : Response.Node :=
  { name := some d.name
    displayName := d.displayName
    description := d.description
    mode := some (Vocabulary.spell d.mode)
    query := some d.query
    tags := some d.tags }

/-- Tags are not written while there are none, so they are unset then. -/
def Metric.shown (m : Metric) : Response.Node :=
  { name := some m.name
    displayName := m.displayName
    description := m.description
    mode := some (Vocabulary.spell m.mode)
    query := some m.query
    tags := if m.tags = [] then none else some m.tags }

/-- Metadata that are null are unset. -/
def Transform.shown (t : Transform) : Response.Node :=
  { name := some t.name
    displayName := t.displayName
    description := t.description
    mode := some (Vocabulary.spell t.mode)
    query := some t.query
    tags := some t.tags
    customMetadata := unsetNull t.customMetadata }

def Cube.shown (c : Cube) : Response.Node :=
  { name := some c.name
    displayName := c.displayName
    description := c.description
    mode := some (Vocabulary.spell c.mode)
    tags := some c.tags }

end Request

/-! ## 2. Nodes -/

/-- The keys of a node that no request has. -/
def Response.Node.serviceKeys : List String :=
  ["namespace", "node_revision_id", "node_id", "type", "version", "status", "catalog", "schema_", "table",
    "columns", "updated_at", "parents", "created_at", "created_by", "current_version", "missing_table"]

/-- A node is unset under all keys that a request does not have. -/
theorem Response.Node.value?_request {request : String} {qs : Fields} {ws : qs.Values}
    {name displayName description mode query : Option String} {tags : Option (List String)}
    {customMetadata : Option CanonicalJson} (hqs : qs.keys.Nodup)
    (hservice : ∀ key ∈ serviceKeys, key ∉ qs.keys)
    (hname : (Field.optional .text).Receives (qs.written? ws "name") name)
    (hdisplayName : (Field.optional .text).Receives (qs.written? ws "display_name") displayName)
    (hdescription : (Field.optional .text).Receives (qs.written? ws "description") description)
    (hmode : (Field.optional .text).Receives (qs.written? ws "mode") mode)
    (hquery : (Field.optional .text).Receives (qs.written? ws "query") query)
    (htags : (Field.optional (.list .text)).Receives (qs.written? ws "tags") tags)
    (hmetadata : (Field.optional .json).Receives (qs.written? ws "custom_metadata") customMetadata) :
    (Wire.shape Response.Node).value? ((Shape.record request qs).toJson ws) =
      some (Wire.pack
        ({ name, displayName, description, mode, query, tags, customMetadata } : Response.Node)) := by
  have hunset (s : Shape) {key : String} (hkey : key ∈ serviceKeys) :
      (Field.optional s).Receives (qs.written? ws key) none := by
    rw [Fields.written?_eq_none (hservice key hkey)]
    rfl
  have hfalse : Field.flag.Receives (qs.written? ws "missing_table") false := by
    rw [Fields.written?_eq_none (hservice _ (by decide))]
    rfl
  exact Shape.value?_received "NodeResponse" request hqs (by decide)
    ⟨hunset _ (by decide), hunset _ (by decide), hunset _ (by decide), hunset _ (by decide), hname,
      hdisplayName, hunset _ (by decide), hunset _ (by decide), hmode, hunset _ (by decide),
      hunset _ (by decide), hunset _ (by decide), hdescription, hquery, hunset _ (by decide),
      hunset _ (by decide), hunset _ (by decide), hunset _ (by decide), hunset _ (by decide), htags,
      hunset _ (by decide), hfalse, hmetadata, trivial⟩

/-! ## 3. Requests -/

theorem Request.Catalog.value?_shown (c : Request.Catalog) :
    (Wire.shape Response.Catalog).value? (Wire.toJson c) = some (Wire.pack c.shown) :=
  Shape.value?_received "CatalogResponse" "Catalog" (by decide) (by decide)
    ⟨receives_text (some c.name), rfl, trivial⟩

theorem Request.Engine.value?_shown (e : Request.Engine) :
    (Wire.shape Response.Engine).value? (Wire.toJson e) = some (Wire.pack e.shown) :=
  Shape.value?_received "EngineResponse" "Engine" (by decide) (by decide)
    ⟨receives_text (some e.name), receives_text (some e.version), rfl, rfl, trivial⟩

theorem Request.Column.value?_shown (c : Request.Column) :
    (Wire.shape Response.Node.Column).value? (Wire.toJson c) = some (Wire.pack c.shown) :=
  Shape.value?_received "Column" "Column" (by decide) (by decide)
    ⟨receives_text (some c.name), rfl, receives_text (some c.type), rfl, rfl, rfl, trivial⟩

theorem Request.Column.value?_shownInSql (c : Request.Column) :
    (Wire.shape Response.Sql.Column).value? (Wire.toJson c) = some (Wire.pack c.shownInSql) :=
  Shape.value?_received "Column" "Column" (by decide) (by decide)
    ⟨receives_text (some c.name), receives_text (some c.type), rfl, rfl, rfl, rfl, trivial⟩

theorem Request.Dimension.value?_shown (d : Request.Dimension) :
    (Wire.shape Response.Node).value? (Wire.toJson d) = some (Wire.pack d.shown) :=
  Response.Node.value?_request (by decide) (by decide) (receives_text (some d.name))
    (receives_text d.displayName) (receives_text d.description)
    (receives_text (some (Vocabulary.spell d.mode))) (receives_text (some d.query))
    (receives_texts (some d.tags)) rfl

theorem Request.Metric.value?_shown (m : Request.Metric) :
    (Wire.shape Response.Node).value? (Wire.toJson m) = some (Wire.pack m.shown) :=
  Response.Node.value?_request (by decide) (by decide) (receives_text (some m.name))
    (receives_text m.displayName) (receives_text m.description)
    (receives_text (some (Vocabulary.spell m.mode))) (receives_text (some m.query))
    (receives_listing m.tags) rfl

theorem Request.Transform.value?_shown (t : Request.Transform) :
    (Wire.shape Response.Node).value? (Wire.toJson t) = some (Wire.pack t.shown) :=
  Response.Node.value?_request (by decide) (by decide) (receives_text (some t.name))
    (receives_text t.displayName) (receives_text t.description)
    (receives_text (some (Vocabulary.spell t.mode))) (receives_text (some t.query))
    (receives_texts (some t.tags)) (receives_sparse t.customMetadata)

theorem Request.Cube.value?_shown (c : Request.Cube) :
    (Wire.shape Response.Node).value? (Wire.toJson c) = some (Wire.pack c.shown) :=
  Response.Node.value?_request (by decide) (by decide) (receives_text (some c.name))
    (receives_text c.displayName) (receives_text c.description)
    (receives_text (some (Vocabulary.spell c.mode))) rfl (receives_texts (some c.tags)) rfl

/-- A value without documents of any kind is written as a text that is parsed. -/
theorem decode_encode_plain {α β : Type} [Wire α] [Wire β] (hfits : (Wire.shape α).fits Scan.depthLimit)
    {a : α} {b : β} (h : (Wire.shape β).value? (Wire.toJson a) = some (Wire.pack b)) :
    decode β (encode a) = .ok b := by
  have hplain := (Wire.shape α).plain_toJson Scan.depthLimit hfits (Wire.pack a)
  exact (decode_eq_ok (parse_compact hplain.floatFree hplain.depth)).2 h

/-! ## 4. From text to text -/

/-- The mode of a node is a word, so that it can be told. -/
theorem Response.Node.mode?_spell (mode : NodeMode) {node : Response.Node}
    (h : node.mode = some (Vocabulary.spell mode)) : node.mode? = some mode := by
  rw [mode?, h, Vocabulary.named?_eq_some]
  exact congrArg some (WordType.spell_eq_name .nodeMode mode)

/-- The text of every request is decoded as the answer that says the same, with the mode told by its word. -/
theorem decode_encode_shown :
    (∀ c : Request.Catalog, decode Response.Catalog (encode c) = .ok c.shown) ∧
    (∀ e : Request.Engine, decode Response.Engine (encode e) = .ok e.shown) ∧
    (∀ c : Request.Column, decode Response.Node.Column (encode c) = .ok c.shown ∧
      decode Response.Sql.Column (encode c) = .ok c.shownInSql) ∧
    (∀ d : Request.Dimension, decode Response.Node (encode d) = .ok d.shown ∧
      d.shown.mode? = some d.mode) ∧
    (∀ m : Request.Metric, decode Response.Node (encode m) = .ok m.shown ∧ m.shown.mode? = some m.mode) ∧
    (∀ t : Request.Transform, (Wire.toJson t).FloatFree → (Wire.toJson t).depth ≤ Scan.depthLimit →
      decode Response.Node (encode t) = .ok t.shown ∧ t.shown.mode? = some t.mode) ∧
    (∀ c : Request.Cube, decode Response.Node (encode c) = .ok c.shown ∧ c.shown.mode? = some c.mode) := by
  refine ⟨fun c => ?_, fun e => ?_, fun c => ⟨?_, ?_⟩, fun d => ⟨?_, ?_⟩, fun m => ⟨?_, ?_⟩,
    fun t hfloat hdepth => ⟨?_, ?_⟩, fun c => ⟨?_, ?_⟩⟩
  · exact decode_encode_plain (by decide) c.value?_shown
  · exact decode_encode_plain (by decide) e.value?_shown
  · exact decode_encode_plain (by decide) c.value?_shown
  · exact decode_encode_plain (by decide) c.value?_shownInSql
  · exact decode_encode_plain (by decide) d.value?_shown
  · exact Response.Node.mode?_spell d.mode rfl
  · exact decode_encode_plain (by decide) m.value?_shown
  · exact Response.Node.mode?_spell m.mode rfl
  · exact (decode_eq_ok (parse_compact hfloat hdepth)).2 t.value?_shown
  · exact Response.Node.mode?_spell t.mode rfl
  · exact decode_encode_plain (by decide) c.value?_shown
  · exact Response.Node.mode?_spell c.mode rfl

/-- Null is kept inside of the metadata, but does not stand for them. No tags are still a list of tags. -/
theorem decode_encode_shown_transform :
    let owner := (Json.object [("owner", .null)]).canonicalize
    let t : Request.Transform :=
      { name := "clean", mode := .draft, query := "SELECT 1", customMetadata := some owner }
    decode Response.Node (encode t) = .ok
        { name := some "clean", mode := some "draft", query := some "SELECT 1", tags := some [],
          customMetadata := some owner } ∧
      decode Response.Node (encode { t with customMetadata := some .null }) = .ok
        { name := some "clean", mode := some "draft", query := some "SELECT 1", tags := some [] } := by
  intro owner t
  have hdraft : "draft" = Vocabulary.spell NodeMode.draft := by decide +kernel
  obtain ⟨-, -, -, -, -, htransform, -⟩ := decode_encode_shown
  rw [hdraft]
  exact ⟨(htransform t (by repeat' constructor) (by decide)).1,
    (htransform { t with customMetadata := some .null } (by repeat' constructor) (by decide)).1⟩

end MetricCatalog
