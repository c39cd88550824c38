import Mathlib.Data.List.Induction
import MetricCatalog.Proofs.Schema.Decoded
import MetricCatalog.Proofs.Schema.Encodings

/-!
# Metrics — built by any number of calls, known by the last ones

A metric can be given its extras any number of times and in any order. Each extra is that of the last call
for it, so the order of the calls does not show, neither in the metric nor in its texts.
-/

namespace MetricCatalog.Request.Metric

open Json FieldText

/-! ## 1. Last calls -/

namespace Extra

def requiredDimensions? : Extra → Option (List String)
  | .requiredDimensions ds => some ds
  | _ => none

def metadata? : Extra → Option MetricMetadata
  | .metadata md => some md
  | _ => none

def tags? : Extra → Option (List String)
  | .tags ts => some ts
  | _ => none

variable {α : Type}

/-- The argument of the last call of one kind, if there was one. -/
def last? (argument? : Extra → Option α) (extras : List Extra) : Option α :=
  (extras.filterMap argument?).getLast?

theorem last?_concat (argument? : Extra → Option α) (extras : List Extra) (e : Extra) :
    last? argument? (extras ++ [e]) = (argument? e).or (last? argument? extras) := by
  unfold last?
  rw [List.filterMap_append]
  cases h : argument? e with
  | none => simp [h]
  | some a => simp [h]

theorem isSome_last?_metadata (extras : List Extra) :
    (last? metadata? extras).isSome ↔ ∃ md, .metadata md ∈ extras := by
  rw [last?, List.getLast?_isSome]
  constructor
  · intro h
    obtain ⟨md, hmd⟩ := List.exists_mem_of_ne_nil _ h
    obtain ⟨e, he, hsome⟩ := List.mem_filterMap.1 hmd
    cases e with
    | metadata md' => exact ⟨md', he⟩
    | requiredDimensions | tags => cases hsome
  · rintro ⟨md, h⟩
    exact List.ne_nil_of_mem (List.mem_filterMap.2 ⟨_, h, rfl⟩)

end Extra

open Extra

/-- The metric with extras, given one after the other. -/
def withExtras (m : Metric) (extras : List Extra) : Metric := extras.foldl withExtra m

/-- A call for one extra changes that one and nothing else. -/
theorem withExtra_eq (m : Metric) (e : Extra) :
    m.withExtra e = { m with
      requiredDimensions := e.requiredDimensions?.getD m.requiredDimensions
      metadata := e.metadata?.or m.metadata
      tags := e.tags?.getD m.tags } := by
  cases e <;> rfl

/-- After any number of calls each extra is that of the last call for it. -/
theorem withExtras_eq (m : Metric) (extras : List Extra) :
    m.withExtras extras = { m with
      requiredDimensions := (last? requiredDimensions? extras).getD m.requiredDimensions
      metadata := (last? metadata? extras).or m.metadata
      tags := (last? tags? extras).getD m.tags } := by
  -- From the end of the calls, since the last one counts.
  induction extras using List.reverseRecOn with
  | nil => rfl
  | append_singleton extras e ih =>
    rw [withExtras, List.foldl_concat]
    show (m.withExtras extras).withExtra e = _
    rw [ih, withExtra_eq, last?_concat, last?_concat, last?_concat]
    congr 1
    · cases requiredDimensions? e <;> rfl
    · exact (Option.or_assoc ..).symm
    · cases tags? e <;> rfl

/-! ## 2. Texts -/

/-- The members for the extras, each left out while it is empty or unset. -/
def extraMembers (requiredDimensions : List String) (metadata : Option MetricMetadata)
    (tags : List String) : List (String × String) :=
  (if requiredDimensions = [] then [] else [("required_dimensions", encode requiredDimensions)]) ++
    (metadata.map fun metadata => ("metric_metadata", encode metadata)).toList ++
      if tags = [] then [] else [("tags", encode tags)]

theorem membersOf_encode_metric (m : Metric) :
    membersOf (encode m) = .ok ([("name", encode m.name),
      ("display_name", orNull (m.displayName.map encode)),
      ("description", orNull (m.description.map encode)), ("mode", encode m.mode),
      ("query", encode m.query), ("update_if_exists", truth m.updateIfExists)] ++
        extraMembers m.requiredDimensions m.metadata m.tags) := by
  refine (RecordType.requestMetric.membersOf_entries m).trans (congrArg Except.ok ?_)
  simp only [RecordType.entries, written, unlessEmpty, extraMembers]
  by_cases hdimensions : m.requiredDimensions = [] <;> by_cases htags : m.tags = [] <;>
    cases m.metadata <;> simp [hdimensions, htags]

/-- A metric is read again from either of its texts. -/
theorem decode_encode_metric (m : Metric) :
    decode Metric (encode m) = .ok m ∧ decode Metric (encodePretty m) = .ok m := by
  -- A metric holds no float and is not nested deeper than is read, so both of its texts are parsed.
  have hplain := (Wire.shape Metric).plain_toJson Scan.depthLimit (by decide) (Wire.pack m)
  have hvalue : (Wire.shape Metric).value? (Wire.toJson m) = some (Wire.pack m) := by
    rw [Wire.toJson, (Wire.shape Metric).value?_toJson (RecordType.distinct .requestMetric) (Wire.pack m)]
    exact congrArg some (RecordType.pack_unsetNulls .requestMetric m).symm
  constructor
  · exact (decode_eq_ok (parse_compact hplain.floatFree hplain.depth)).2 hvalue
  · exact (decode_eq_ok (parse_pretty hplain.floatFree hplain.depth)).2 hvalue

/-! ## 3. Any sequence of calls -/

/-- A metric keeps what it was made with and has each extra as it was given last. Its text has the members
for what it was made with and then, in a fixed order, those for the extras that are neither empty nor unset.
Two sequences of calls with the same last arguments make the same metric, and it is read again from either of
its texts. -/
theorem withExtras_last (name : String) (displayName description : Option String) (mode : NodeMode)
    (query : String) (updateIfExists : Bool) (extras : List Extra) :
    let made : Metric := { name, displayName, description, mode, query, updateIfExists }
    let m := made.withExtras extras
    let requiredDimensions := (last? requiredDimensions? extras).getD []
    let metadata := last? metadata? extras
    let tags := (last? tags? extras).getD []
    (m.name = name ∧ m.displayName = displayName ∧ m.description = description ∧ m.mode = mode ∧
        m.query = query ∧ m.updateIfExists = updateIfExists) ∧
      (m.requiredDimensions = requiredDimensions ∧ m.metadata = metadata ∧ m.tags = tags) ∧
      membersOf (encode m) = .ok ([("name", encode name),
        ("display_name", orNull (displayName.map encode)),
        ("description", orNull (description.map encode)), ("mode", encode mode), ("query", encode query),
        ("update_if_exists", truth updateIfExists)] ++
          extraMembers requiredDimensions metadata tags) ∧
      (metadata.isSome ↔ ∃ md, .metadata md ∈ extras) ∧
      (∀ extras', (last? requiredDimensions? extras').getD [] = requiredDimensions →
        last? metadata? extras' = metadata → (last? tags? extras').getD [] = tags →
          made.withExtras extras' = m ∧ encode (made.withExtras extras') = encode m ∧
            encodePretty (made.withExtras extras') = encodePretty m) ∧
      decode Metric (encode m) = .ok m ∧ decode Metric (encodePretty m) = .ok m := by
  intro made m requiredDimensions metadata tags
  have hm (es : List Extra) : made.withExtras es = { made with
      requiredDimensions := (last? requiredDimensions? es).getD []
      metadata := last? metadata? es
      tags := (last? tags? es).getD [] } := by
    rw [withExtras_eq]
    simp only [made, Option.or_none]
  have hlast : m = { made with requiredDimensions, metadata, tags } := hm extras
  refine ⟨?_, ?_, ?_, isSome_last?_metadata extras, ?_, decode_encode_metric m⟩
  · rw [hlast]
    exact ⟨rfl, rfl, rfl, rfl, rfl, rfl⟩
  · rw [hlast]
    exact ⟨rfl, rfl, rfl⟩
  · rw [membersOf_encode_metric, hlast]
  · intro extras' hdimensions hmetadata htags
    have hsame : made.withExtras extras' = m := by
      rw [hm, hdimensions, hmetadata, htags, hlast]
    rw [hsame]
    exact ⟨rfl, rfl, rfl⟩

/-- Tags that are cleared again, and dimensions that are given twice, leave no trace. -/
theorem withExtras_last_cleared :
    let made : Metric := { name := "revenue", query := "SELECT 1" }
    made.withExtras [.requiredDimensions ["day"], .metadata { unit := some "dollar" }, .tags []] =
      made.withExtras [.tags ["finance"], .requiredDimensions [], .metadata {}, .tags [],
        .metadata { unit := some "dollar" }, .requiredDimensions ["day"]] :=
  ((withExtras_last "revenue" none none default "SELECT 1" false _).2.2.2.2.1 _ rfl rfl rfl).1

end MetricCatalog.Request.Metric
