import MetricCatalog.Proofs.Schema.Insertion
import MetricCatalog.Proofs.Schema.Simulation

/-!
# Decoding routes — from a text, or from the document read from it

A text may be decoded at once, or read as a document first and the document decoded. The document is
canonical, so it does not show repeated keys any more, which the text route refuses in records.
-/

namespace MetricCatalog

open Json Shape

/-! ## 1. Objects that are read as records -/

/-- Some object of the document that is read as a record with some keys has members as `P` says. -/
inductive Shape.Meets (P : List String → List (String × Json) → Prop) : Shape → Json → Prop where
  | record {name : String} {fields : Fields} {ms : List (String × Json)} (h : P fields.keys ms) :
      Meets P (.record name fields) (.object ms)
  | wrapped {key : String} {item : Shape} {ms : List (String × Json)} (h : P [key] ms) :
      Meets P (.wrapped key item) (.object ms)
  | item {item : Shape} {js : List Json} {j : Json} (hj : j ∈ js) (h : Meets P item j) :
      Meets P (.list item) (.array js)
  | wrappedItem {key : String} {item : Shape} {js : List Json} {j : Json} (hj : j ∈ js)
      (h : Meets P item j) :
      Meets P (.wrapped key item) (.array js)
  | value {name : String} {fields : Fields} {field : Field} {ms : List (String × Json)} {key : String}
      {j : Json} (hj : (key, j) ∈ ms) (hfield : fields.field? key = some field) (h : Meets P field.inner j) :
      Meets P (.record name fields) (.object ms)
  | wrappedValue {key : String} {item : Shape} {ms : List (String × Json)} {j : Json}
      (hj : (key, j) ∈ ms) (h : Meets P (.list item) j) :
      Meets P (.wrapped key item) (.object ms)
  | position {name : String} {fields : Fields} {field : Field} {js : List Json} {index : Nat} {j : Json}
      (hj : js[index]? = some j) (hfield : fields.fieldAt? index = some field)
      (h : Meets P field.inner j) :
      Meets P (.record name fields) (.array js)

/-- One of the keys occurs more than once. -/
def RepeatsKey (keys : List String) (ms : List (String × Json)) : Prop :=
  ∃ key ∈ keys, 1 < (ms.map Prod.fst).count key

theorem Shape.Meets.ne_null {P : List String → List (String × Json) → Prop} {s : Shape} {j : Json}
    (h : s.Meets P j) : j ≠ .null := by
  cases h <;> exact nofun

/-! ## 2. Repeated keys -/

theorem length_filter_eq_count (key : String) (ms : List (String × Json)) :
    (ms.filter (·.1 = key)).length = (ms.map Prod.fst).count key := by
  rw [List.count, List.countP_map, List.countP_eq_length_filter]
  refine congrArg List.length (List.filter_congr fun m _ => ?_)
  exact (beq_eq_decide m.1 key).symm

theorem underKey_of_repeated {α : Type} {key : String} {ms : List (String × Json)}
    (h : 1 < (ms.map Prod.fst).count key) (value : Json → Option α) : underKey key value ms = none := by
  rw [← length_filter_eq_count] at h
  rw [underKey]
  rcases hfilter : ms.filter (·.1 = key) with _ | ⟨m, _ | ⟨m', more⟩⟩
  · rw [hfilter] at h
    exact absurd h (Nat.not_lt_zero 1)
  · rw [hfilter] at h
    exact absurd h (Nat.lt_irrefl 1)
  · rw [hfilter]

/-- A member that is not taken leaves nothing to take under its key. -/
theorem underKey_of_none {α : Type} {key : String} {ms : List (String × Json)} {j : Json}
    (hj : (key, j) ∈ ms) {value : Json → Option α} (h : value j = none) :
    underKey key value ms = none := by
  have hmem : (key, j) ∈ ms.filter (·.1 = key) := List.mem_filter.2 ⟨hj, decide_eq_true rfl⟩
  rw [underKey]
  rcases hfilter : ms.filter (·.1 = key) with _ | ⟨m, _ | ⟨m', more⟩⟩
  · rw [hfilter] at hmem
    cases hmem
  · rw [hfilter] at hmem
    cases List.mem_singleton.1 hmem
    rw [hfilter]
    exact congrArg (Option.map some) h
  · rw [hfilter]

theorem mapM_eq_none {α β : Type} {f : β → Option α} {xs : List β} {x : β} (hx : x ∈ xs)
    (h : f x = none) :
    xs.mapM f = none := by
  induction xs with
  | nil => cases hx
  | cons y ys ih =>
    rw [List.mapM_cons]
    rcases List.mem_cons.1 hx with rfl | hx
    · rw [h]
      rfl
    · rw [ih hx]
      exact Option.bind_fun_none _

/-- If nothing is taken under one key, no record is taken. -/
theorem Fields.gather_eq_none : {fs : Fields} → {key : String} → {field : Field} →
    {ms : List (String × Json)} → fs.field? key = some field → underKey key field.value? ms = none →
    fs.gather ms = none
  | .nil, _, _, _, hfield, _ => nomatch hfield
  | .cons k field rest, key, field', ms, hfield, h => by
    -- Whatever the other fields take, this one takes nothing.
    rw [Fields.field?] at hfield
    by_cases hk : key = k
    · rw [if_pos hk] at hfield
      cases hfield
      subst hk
      rw [Fields.gather, h]
      rfl
    · rw [if_neg hk] at hfield
      rw [Fields.gather, Fields.gather_eq_none hfield h]
      refine (congrArg _ (funext fun found => ?_)).trans (Option.bind_fun_none _)
      exact Option.bind_fun_none _

theorem Fields.items?_eq_none : {fs : Fields} → {js : List Json} → {index : Nat} → {field : Field} →
    {j : Json} → js[index]? = some j → fs.fieldAt? index = some field → field.value? j = none →
    fs.items? js = none
  | .nil, _, _, _, _, _, hfield, _ => nomatch hfield
  | .cons _ field rest, [], _, _, _, hj, _, _ => nomatch hj
  | .cons _ field rest, j :: js, 0, _, _, hj, hfield, h => by
    cases hj
    cases hfield
    rw [Fields.items?, h]
    rfl
  | .cons _ field rest, _ :: js, index + 1, _, _, hj, hfield, h => by
    have hmore : js[index]? = some _ := hj
    rw [Fields.items?, Fields.items?_eq_none hmore hfield h]
    exact Option.bind_fun_none _

/-- A value that the shape of a field does not take is not taken by the field, unless it is null. -/
theorem Field.value?_eq_none {f : Field} {j : Json} (hj : j ≠ .null) (h : f.inner.value? j = none) :
    f.value? j = none := by
  have hnull : ∀ {α : Type} {value : Json → Option α}, value j = none → orNull? value j = none := by
    intro α value hvalue
    cases j with
    | null => exact absurd rfl hj
    | _ => exact congrArg (Option.map some) hvalue
  cases f with
  | required shape => exact h
  | nullable shape => exact (Field.value?_nullable shape j).trans (hnull h)
  | optional shape => exact (Field.value?_optional shape j).trans (hnull h)
  | sparse shape => exact (Field.value?_sparse shape j).trans (hnull h)
  | flag => exact (Field.value?_flag j).trans (congrArg _ (hnull h))
  | listing item => exact h

theorem Field.recordKeys_inner (f : Field) : f.inner.recordKeys = f.recordKeys := by
  cases f <;> rfl

theorem Fields.recordKeys_field? : {fs : Fields} → {key : String} → {field : Field} →
    fs.field? key = some field → ∀ keys ∈ field.recordKeys, keys ∈ fs.recordKeys
  | .nil, _, _, h => nomatch h
  | .cons k field rest, key, field', h => by
    rw [Fields.field?] at h
    intro keys hkeys
    by_cases hk : key = k
    · rw [if_pos hk] at h
      cases h
      exact List.mem_append_left _ hkeys
    · rw [if_neg hk] at h
      exact List.mem_append_right _ (Fields.recordKeys_field? h keys hkeys)

theorem Fields.recordKeys_fieldAt? : (fs : Fields) → {index : Nat} → {field : Field} →
    fs.fieldAt? index = some field → ∀ keys ∈ field.recordKeys, keys ∈ fs.recordKeys
  | .nil, _, _, h => nomatch h
  | .cons _ _ _, 0, _, h => by
    cases h
    exact fun keys hkeys => List.mem_append_left _ hkeys
  | .cons _ _ rest, index + 1, field', h => fun keys hkeys =>
    List.mem_append_right _ (rest.recordKeys_fieldAt? h keys hkeys)

theorem Shape.Distinct.inner_field? {name key : String} {fields : Fields} {field : Field}
    (hs : (Shape.record name fields).Distinct) (h : fields.field? key = some field) : field.inner.Distinct :=
  fun keys hkeys => hs.fields keys (Fields.recordKeys_field? h keys (field.recordKeys_inner ▸ hkeys))

theorem Shape.Distinct.inner_fieldAt? {name : String} {fields : Fields} {index : Nat} {field : Field}
    (hs : (Shape.record name fields).Distinct) (h : fields.fieldAt? index = some field) : field.inner.Distinct :=
  fun keys hkeys => hs.fields keys (fields.recordKeys_fieldAt? h keys (field.recordKeys_inner ▸ hkeys))

/-- Nothing is taken from a document in which a record repeats one of its keys. -/
theorem Shape.Meets.value?_eq_none {s : Shape} {j : Json} (h : s.Meets RepeatsKey j) (hs : s.Distinct) :
    s.value? j = none := by
  -- By induction on where the record stands: whatever encloses it needs the value that is not taken.
  induction h with
  | @record name fields ms h =>
    rcases h with ⟨key, hkey, hcount⟩
    rcases Fields.exists_field? hkey with ⟨field, hfield⟩
    rw [Shape.value?_object name hs.keys_nodup]
    exact Fields.gather_eq_none hfield (underKey_of_repeated hcount _)
  | @wrapped key item ms h =>
    rcases h with ⟨key', hkey, hcount⟩
    cases List.mem_singleton.1 hkey
    rw [Shape.value?_wrappedObject, underKey_of_repeated hcount]
    rfl
  | item hj h ih =>
    rw [Shape.value?_list]
    exact mapM_eq_none hj (ih hs)
  | wrappedItem hj h ih =>
    rw [Shape.value?_wrappedArray,
      mapM_eq_none hj (ih hs.item)]
    rfl
  | @value name fields field ms key j hj hfield h ih =>
    have hvalue := Field.value?_eq_none h.ne_null (ih (hs.inner_field? hfield))
    rw [Shape.value?_object name hs.keys_nodup]
    exact Fields.gather_eq_none hfield (underKey_of_none hj hvalue)
  | @wrappedValue key item ms j hj h ih =>
    have hlist : list? item.value? j = none := by
      rw [← Shape.value?_list]
      exact ih hs.item
    have hvalue : orNull? (list? item.value?) j = none := by
      cases j with
      | null => exact absurd rfl h.ne_null
      | _ => exact congrArg (Option.map some) hlist
    rw [Shape.value?_wrappedObject, underKey_of_none hj hvalue]
    rfl
  | @position name fields field js index j hj hfield h ih =>
    rw [Shape.value?_array]
    exact Fields.items?_eq_none hj hfield (Field.value?_eq_none h.ne_null (ih (hs.inner_fieldAt? hfield)))

/-! ## 3. Both routes -/

/-- The two routes agree. What the text route decodes, the document route decodes; the converse holds if no
key is repeated; and a record that repeats one of its keys is refused on the text route. -/
theorem decode_eq_decodeJson (T : PayloadType) {text : String} {j : CanonicalJson}
    (h : decode CanonicalJson text = .ok j) :
    ∃ doc, parse text = .ok doc ∧
      (∀ v, decode T.Value text = .ok v → decodeJson T.Value j.toJson = .ok v) ∧
      (doc.KeysDistinct → ∀ v, decodeJson T.Value j.toJson = .ok v → decode T.Value text = .ok v) ∧
      (T.shape.Meets RepeatsKey doc → ∃ refusal, decode T.Value text = .error (.json refusal)) := by
  rcases decode_canonicalJson.1 h with ⟨doc, hparse, rfl⟩
  -- Each direction is a simulation: a document by its canonical form, and the other way round if no
  -- key is repeated.
  refine ⟨doc, hparse, fun v hv => ?_, fun hdistinct v hv => ?_, fun hmeets => ?_⟩
  · rw [decode_eq_ok hparse] at hv
    rw [decodeJson_eq_ok]
    exact simulation_canonical.below_value? T.shape T.distinct doc doc.canonical rfl _ hv
  · rw [decodeJson_eq_ok] at hv
    rw [decode_eq_ok hparse]
    exact simulation_of_canonical.below_value? T.shape T.distinct doc.canonical doc
      ⟨rfl, hdistinct⟩ _ hv
  · refine decode_eq_error fun v hv => ?_
    rw [decode_eq_ok hparse] at hv
    have hnone := hmeets.value?_eq_none T.distinct
    rw [PayloadType.shape] at hnone
    rw [hnone] at hv
    cases hv

/-- Null under a repeated key is refused, in a record inside of another one. -/
theorem decode_eq_decodeJson_repeated :
    ∃ refusal, decode (List Response.Node) "[\x7b\"catalog\":\x7b\"name\":null,\"name\":null\x7d\x7d]" =
      .error (.json refusal) := by
  let doc : Json := .array [.object [("catalog", .object [("name", .null), ("name", .null)])]]
  have hparse : parse "[\x7b\"catalog\":\x7b\"name\":null,\"name\":null\x7d\x7d]" = .ok doc := by
    rw [show "[\x7b\"catalog\":\x7b\"name\":null,\"name\":null\x7d\x7d]" =
      doc.compact by decide +kernel]
    exact parse_compact (by repeat' constructor) (by decide)
  have hrepeats : Shape.Meets RepeatsKey (PayloadType.many .node).shape doc :=
    .item List.mem_cons_self (@Shape.Meets.value _ _ _ _ _ _ _ List.mem_cons_self rfl
      (.record ⟨"name", List.mem_cons_self, by decide⟩))
  rcases decode_eq_decodeJson (.many .node) (decode_canonicalJson.2 ⟨doc, hparse, rfl⟩) with
    ⟨doc', hparse', _, _, hrefused⟩
  rw [hparse] at hparse'
  cases hparse'
  exact hrefused hrepeats

end MetricCatalog
