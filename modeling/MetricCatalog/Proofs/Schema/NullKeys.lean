import MetricCatalog.Proofs.Schema.SetToNull
import MetricCatalog.Proofs.Schema.Taken

/-!
# Null keys — null in the place of a key that is missing

Null under a key that a record lacks says the same as the missing key, wherever the key may be missing and
null may stand. In responses this is so for every key of every record, in requests only for some.
-/

namespace MetricCatalog

open Json Json.Scan Json.Tree Shape

/-! ## 1. Fields that are left unset -/

/-- The tree is taken as the value that the field has when its key is missing. -/
def Field.UnsetBy (f : Field) (x : Tree) : Prop :=
  ∀ room, ∃ v, f.ofTree room x = .ok v ∧ f.ifMissing? = some v

/-- A member with this value is put somewhere among the others, under a key that none of them has. -/
def InsertsAt (P : String → Prop) (x : Tree) (keys : List String) (ms ms' : Members) : Prop :=
  ∃ before after k key, ms = before ++ after ∧ ms' = before ++ (k, x) :: after ∧
    Literal.text k = .ok key ∧ key ∈ keys ∧ P key ∧ ∀ m ∈ ms, Literal.text m.1 ≠ .ok key

/-- The same with any value. -/
def Inserts (P : String → Prop) (keys : List String) (ms ms' : Members) : Prop :=
  ∃ x, InsertsAt P x keys ms ms'

namespace Fields

/-- What has been found, with the value of a missing field under a key where nothing has been found. -/
def fillMissing (key : String) : (fs : Fields) → fs.Filling → fs.Filling
  | .nil, _ => ()
  | .cons k field rest, (found, more) =>
    if key = k then (found.or field.ifMissing?, more) else (found, rest.fillMissing key more)

section

variable {key k : String} {field : Field} {rest : Fields}

theorem fillMissing_self (found : Option field.Value) (more : rest.Filling) :
    (Fields.cons key field rest).fillMissing key (found, more) = (found.or field.ifMissing?, more) :=
  if_pos rfl

theorem fillMissing_other (hk : key ≠ k) (found : Option field.Value) (more : rest.Filling) :
    (Fields.cons k field rest).fillMissing key (found, more) = (found, rest.fillMissing key more) :=
  if_neg hk

end

/-- Where nothing has been found under a key, a member that unsets its field fills in the missing value. -/
theorem putTree_unset {key : String} {room : Nat} {x : Tree} : {fs : Fields} → {field : Field} →
    {found : fs.Filling} → fs.field? key = some field → field.UnsetBy x → fs.Lacks key found →
    fs.putTree room key x found = .ok (fs.fillMissing key found)
  | .nil, _, _, h, _, _ => nomatch h
  | .cons k field' rest, field, (found, more), h, hunset, hlacks => by
    rw [field?] at h
    by_cases hk : key = k
    · rw [if_pos hk] at h
      cases h
      subst hk
      cases foundUnder_self.1 hlacks
      obtain ⟨v, hv, hmissing⟩ := hunset room
      rw [putTree_self, fillMissing_self, hmissing, hv]
      rfl
    · rw [if_neg hk] at h
      rw [putTree_other hk, fillMissing_other hk, putTree_unset h hunset ((foundUnder_other hk).1 hlacks)]
      rfl

/-- Members under other keys do not see whether the missing value has been filled in. -/
theorem putTree_fillMissing {key k : String} (hk : k ≠ key) {room : Nat} {t : Tree} : {fs : Fields} →
    (found : fs.Filling) →
    fs.putTree room k t (fs.fillMissing key found) = (fs.putTree room k t found).map (fs.fillMissing key)
  | .nil, _ => rfl
  | .cons k' field rest, (found, more) => by
    by_cases hkey : key = k'
    · subst hkey
      rw [fillMissing_self, putTree_other hk, putTree_other hk]
      cases rest.putTree room k t more with
      | error e => rfl
      | ok more' => exact congrArg Except.ok (fillMissing_self found more').symm
    · rw [fillMissing_other hkey]
      by_cases hk' : k = k'
      · subst hk'
        rw [putTree_self, putTree_self]
        cases takeUnder k found (field.ofTree room t) with
        | error e => rfl
        | ok taken => exact congrArg Except.ok (fillMissing_other hkey taken more).symm
      · rw [putTree_other hk', putTree_other hk', putTree_fillMissing hk more]
        cases rest.putTree room k t more with
        | error e => rfl
        | ok more' => exact congrArg Except.ok (fillMissing_other hkey found more').symm

/-- A missing value that has been filled in is what the field gets in the end. -/
theorem finish_fillMissing {key : String} : {fs : Fields} → (found : fs.Filling) →
    fs.finish (fs.fillMissing key found) = fs.finish found
  | .nil, _ => rfl
  | .cons k field rest, (found, more) => by
    by_cases hk : key = k
    · subst hk
      rw [fillMissing_self, finish, finish, Option.or_assoc, Option.or_self]
    · rw [fillMissing_other hk, finish, finish, finish_fillMissing more]

/-- Among members without the key, one that unsets its field fills in the missing value. -/
theorem foldTrees_insert {fs : Fields} {field : Field} {key : String} {k : List Literal.Piece} {x : Tree}
    (hk : Literal.text k = .ok key) (hfield : fs.field? key = some field) (hunset : field.UnsetBy x)
    {before after : Members} (hnone : ∀ m ∈ before ++ after, Literal.text m.1 ≠ .ok key) (room : Nat) :
    fs.foldTrees room (before ++ (k, x) :: after) =
      (fs.foldTrees room (before ++ after)).map (fs.fillMissing key) := by
  let step : fs.Filling → List Literal.Piece × Tree → Except Fault fs.Filling :=
    fun found m => Literal.text m.1 >>= fun k => fs.putTree room k m.2 found
  change (before ++ (k, x) :: after).foldlM step fs.unfilled =
    ((before ++ after).foldlM step fs.unfilled).map (fs.fillMissing key)
  rw [List.foldlM_append, List.foldlM_append]
  cases hbefore : before.foldlM step fs.unfilled with
  | error e => rfl
  | ok found =>
    have hlacks : fs.Lacks key found :=
      lacks_foldTrees (fun m hm => hnone m (List.mem_append_left _ hm)) hbefore
    have hput : step found (k, x) = .ok (fs.fillMissing key found) := by
      change (Literal.text k >>= fun k => fs.putTree room k x found) = _
      rw [hk]
      exact putTree_unset hfield hunset hlacks
    change ((k, x) :: after).foldlM step found = (after.foldlM step found).map (fs.fillMissing key)
    rw [List.foldlM_cons, hput]
    refine foldlM_map (fun found m hm => ?_) found
    change (Literal.text m.1 >>= fun k => fs.putTree room k m.2 (fs.fillMissing key found)) =
      (Literal.text m.1 >>= fun k => fs.putTree room k m.2 found).map (fs.fillMissing key)
    cases hm' : Literal.text m.1 with
    | error e => rfl
    | ok k' =>
      refine putTree_fillMissing (fun hsame => ?_) found
      exact hnone m (List.mem_append_right _ hm) (hsame ▸ hm')

theorem unseen_insertsAt (fs : Fields) {P : String → Prop} {x : Tree}
    (h : ∀ key field, fs.field? key = some field → P key → field.UnsetBy x) :
    fs.Unseen (InsertsAt P x) := by
  rintro _ _ ⟨before, after, k, key, rfl, rfl, hk, hkey, hP, hnone⟩ name room
  cases room with
  | zero => rfl
  | succ room =>
    obtain ⟨field, hfield⟩ := Fields.exists_field? hkey
    rw [Shape.ofTree_recordObject, Shape.ofTree_recordObject,
      foldTrees_insert hk hfield (h key field hfield hP) hnone]
    cases fs.foldTrees room (before ++ after) with
    | error e => rfl
    | ok found =>
      change fs.complete (fs.fillMissing key found) = fs.complete found
      rw [complete, complete, finish_fillMissing]

end Fields

/-! ## 2. Null -/

/-- Null unsets the field. -/
def Field.nullUnsets : Field → Bool
  | .required _ => false
  | .listing _ => false
  | _ => true

/-- Null is not taken by the field. -/
def Field.nullRefused : Field → Bool
  | .required shape => !shape.takesNull
  | .listing _ => true
  | _ => false

theorem Field.unsetBy_null {f : Field} (h : f.nullUnsets) : f.UnsetBy .null := by
  intro room
  cases f with
  | required shape => cases h
  | listing item => cases h
  | _ => exact ⟨_, rfl, rfl⟩

theorem Field.unsetBy_false : Field.flag.UnsetBy (.boolean false) := fun _ => ⟨false, rfl, rfl⟩

theorem Shape.ofTree_null_ne_ok {s : Shape} (h : s.takesNull = false) {room : Nat} {v : s.Value} :
    s.ofTree room .null ≠ .ok v := by
  intro hv
  cases s with
  | json => cases h
  | _ => cases hv

theorem Field.ofTree_null_ne_ok {f : Field} (h : f.nullRefused) {room : Nat} {v : f.Value} :
    f.ofTree room .null ≠ .ok v := by
  cases f with
  | required shape => exact Shape.ofTree_null_ne_ok (Bool.not_eq_true' _ ▸ h)
  | listing item => exact Shape.ofTree_null_ne_ok (s := .list item) rfl
  | _ => cases h

/-! ## 3. Members that are refused, and members that can be spared -/

/-- One of the members, after some change, has null under one of these keys. -/
def HasNull (P : String → Prop) (keys : List String) (_ ms : Members) : Prop :=
  ∃ m ∈ ms, ∃ key ∈ keys, Literal.text m.1 = .ok key ∧ P key ∧ m.2 = .null

/-- Where null is refused under a key, so is the record that has it there. -/
theorem Fields.ofTree_hasNull_ne_ok {fs : Fields} {P : String → Prop}
    (h : ∀ key field, fs.field? key = some field → P key → field.nullRefused) {ms ms' : Members}
    (hnull : HasNull P fs.keys ms ms') (name : String) (room : Nat) (vs : fs.Values) :
    (Shape.record name fs).ofTree room (.object ms') ≠ .ok vs := by
  obtain ⟨m, hm, key, hkey, hk, hP, hnull⟩ := hnull
  intro hvs
  cases room with
  | zero => cases hvs
  | succ room =>
    rw [Shape.ofTree_recordObject] at hvs
    obtain ⟨found, hfold, -⟩ := ok_of_bind hvs
    obtain ⟨field, hfield⟩ := Fields.exists_field? hkey
    obtain ⟨v, hv⟩ := Fields.exists_of_foldTrees hfold hm hk hfield
    rw [hnull] at hv
    exact Field.ofTree_null_ne_ok (h key field hfield hP) hv

theorem Fields.exists_of_inserts {fs : Fields} {P : String → Prop}
    (h : ∀ key field, fs.field? key = some field → P key → ∃ v, field.ifMissing? = some v) {ms ms' : Members}
    (hinserts : Inserts P fs.keys ms ms') {name : String} {room : Nat} {vs' : fs.Values}
    (hvs : (Shape.record name fs).ofTree room (.object ms') = .ok vs') :
    ∃ vs, (Shape.record name fs).ofTree room (.object ms) = .ok vs := by
  obtain ⟨x, before, after, k, key, rfl, rfl, hk, hkey, hP, -⟩ := hinserts
  obtain ⟨field, hfield⟩ := Fields.exists_field? hkey
  obtain ⟨missing, hmissing⟩ := h key field hfield hP
  exact Fields.exists_spared hk hfield hmissing hvs

/-! ## 4. Payloads -/

/-- The keys of requests under which null may stand: those of all metadata of a metric, and the others that
a request may leave unset. -/
def requestNullKeys : List String :=
  ["display_name", "description", "custom_metadata", "metric_metadata",
    "direction", "unit", "significant_digits", "min_decimal_exponent", "max_decimal_exponent"]

/-- The keys of the lists in a metric. -/
def metricLists : List String := ["required_dimensions", "tags"]

/-- The keys of the truth values in responses. -/
def responseFlags : List String := ["filter_only", "missing_table"]

namespace RecordType

def isResponse : RecordType → Bool
  | requestCatalog | requestEngine | requestColumn | requestSource | requestDimension | requestTransform
  | requestMetric | requestMetricMetadata | requestCube => false
  | _ => true

/-- Null may stand under the key in a record of this type, or in one inside of it. -/
def nullMayStand (R : RecordType) (key : String) : Bool := R.isResponse || requestNullKeys.contains key

/-- The key may be missing from a record of this type, or from one inside of it. -/
def mayBeMissing (R : RecordType) (key : String) : Bool :=
  R.nullMayStand key || R matches requestMetric && metricLists.contains key

end RecordType

def PayloadType.record : PayloadType → RecordType
  | one R => R
  | many R => R

theorem PayloadType.records_shape (T : PayloadType) :
    T.shape.records = (Wire.shape T.record.Value).records := by
  cases T <;> rfl

/-- Whether something holds of all fields and their keys. -/
def Fields.every (p : String → Field → Bool) : Fields → Bool
  | .nil => true
  | .cons key field rest => p key field && rest.every p

theorem Fields.every_field? {p : String → Field → Bool} : {fs : Fields} → fs.every p → {key : String} →
    {field : Field} → fs.field? key = some field → p key field
  | .nil, _, _, _, h => nomatch h
  | .cons k field' rest, hp, key, field, h => by
    obtain ⟨hfirst, hrest⟩ := Bool.and_eq_true_iff.1 hp
    rw [Fields.field?] at h
    by_cases hk : key = k
    · rw [if_pos hk] at h
      cases h
      exact hk ▸ hfirst
    · rw [if_neg hk] at h
      exact Fields.every_field? hrest h

theorem RecordType.nulls (R : RecordType) : ∀ fs ∈ (Wire.shape R.Value).records,
    fs.every fun key field => if R.nullMayStand key then field.nullUnsets else field.nullRefused := by
  cases R <;> decide

theorem RecordType.flags (R : RecordType) : ∀ fs ∈ (Wire.shape R.Value).records,
    fs.every fun key field => !responseFlags.contains key || field matches .flag := by
  cases R <;> decide

theorem RecordType.missing (R : RecordType) : ∀ fs ∈ (Wire.shape R.Value).records,
    fs.every fun key field => !R.mayBeMissing key || field.ifMissing?.isSome := by
  cases R <;> decide

/-- Null says the same as a missing key, in responses under every key and in requests under those where it may
stand; so does false for a truth value of a response. Under all other keys of requests null is refused. What
stands under a key that may be missing can be left out, also the lists of a metric. In every record of a
document that is decoded, the fields with null or without a member are unset. -/
theorem decode_nullKeys (T : PayloadType) {t t' : Tree} {text text' : String}
    (ht : t.Spells (Utf8.encode text.toList)) (ht' : t'.Spells (Utf8.encode text'.toList)) :
    (T.shape.AtRecord (InsertsAt (T.record.nullMayStand ·) .null) t t' →
        ∀ v, decode T.Value text' = .ok v ↔ decode T.Value text = .ok v) ∧
      (T.shape.AtRecord (InsertsAt (· ∈ responseFlags) (.boolean false)) t t' →
        ∀ v, decode T.Value text' = .ok v ↔ decode T.Value text = .ok v) ∧
      (T.shape.AtRecord (HasNull fun key => ¬ T.record.nullMayStand key) t t →
        ∃ refusal, decode T.Value text = .error (.json refusal)) ∧
      (T.shape.AtRecord (Inserts (T.record.mayBeMissing ·)) t t' →
        ∀ v', decode T.Value text' = .ok v' → ∃ v, decode T.Value text = .ok v) ∧
      ∀ v, decode T.Value text = .ok v → T.shape.EachRecord Fields.Unset t (Wire.pack v) := by
  have hsame : (∀ room, T.shape.ofTree room t' = T.shape.ofTree room t) →
      ∀ v, decode T.Value text' = .ok v ↔ decode T.Value text = .ok v := by
    intro hvalue v
    have hdepth : (Wire.shape T.Value).ofTree depthLimit t' = (Wire.shape T.Value).ofTree depthLimit t :=
      hvalue depthLimit
    rw [decode, decode, decodeBytes_spells ht, decodeBytes_spells ht', hdepth]
  refine ⟨fun h => hsame (h.ofTree_eq_of_records fun fs hfs => ?_),
    fun h => hsame (h.ofTree_eq_of_records fun fs hfs => ?_), fun h => ?_, fun h v' hv => ?_, ?_⟩
  · refine fs.unseen_insertsAt fun key field hfield hkey => Field.unsetBy_null ?_
    have hnull := Fields.every_field? (T.record.nulls fs (T.records_shape ▸ hfs)) hfield
    rw [if_pos hkey] at hnull
    exact hnull
  · refine fs.unseen_insertsAt fun key field hfield hkey => ?_
    have hflag := Fields.every_field? (T.record.flags fs (T.records_shape ▸ hfs)) hfield
    rw [List.contains_iff_mem.2 hkey] at hflag
    cases field with
    | flag => exact Field.unsetBy_false
    | _ => cases hflag
  · refine decode_eq_error fun v hv => ?_
    rw [decode, decodeBytes_spells ht] at hv
    refine h.ofTree_ne_ok (fun fs hfs ms ms' hnull => Fields.ofTree_hasNull_ne_ok ?_ hnull) _ _ hv
    intro key field hfield hkey
    have hnull := Fields.every_field? (T.record.nulls fs (T.records_shape ▸ hfs)) hfield
    rw [if_neg hkey] at hnull
    exact hnull
  · rw [decode, decodeBytes_spells ht'] at hv
    have hvalue : ∃ vs, (Wire.shape T.Value).ofTree depthLimit t = .ok vs := by
      refine h.exists_ofTree (fun fs hfs ms ms' hinserts name room vs' hvs => ?_) hv
      refine fs.exists_of_inserts (fun key field hfield hkey => ?_) hinserts hvs
      have hmissing := Fields.every_field? (T.record.missing fs (T.records_shape ▸ hfs)) hfield
      rw [hkey, Bool.not_true, Bool.false_or] at hmissing
      exact Option.isSome_iff_exists.1 hmissing
    obtain ⟨vs, hvs⟩ := hvalue
    refine ⟨Wire.unpack vs, ?_⟩
    rw [decode, decodeBytes_spells ht, Wire.pack_unpack]
    exact hvs
  · intro v hv
    rw [decode, decodeBytes_spells ht] at hv
    exact T.shape.eachRecord_ofTree Fields.holdsOfObjects_unset depthLimit t (Wire.pack v) hv

/-- A document with null under a key is spelled by an object with such a member. -/
theorem exists_null_member {text key : String} {js : List (String × Json)} (h : parse text = .ok (.object js))
    (hnull : (key, Json.null) ∈ js) :
    ∃ ms, (Tree.object ms).Spells (Utf8.encode text.toList) ∧
      ∃ m ∈ ms, Literal.text m.1 = .ok key ∧ m.2 = .null := by
  obtain ⟨t, hspells, hdocument⟩ := parse_eq_ok.1 h
  obtain ⟨-, -, hobject⟩ | ⟨_, _, _, -, -, -, hdoc⟩ | ⟨ms, room, _, rfl, -, hms, hdoc⟩ :=
    document_inv hdocument
  · exact absurd rfl hobject
  · cases hdoc
  · cases hdoc
    obtain ⟨m, hm, hj⟩ := exists_of_mem_mapM hms _ hnull
    obtain ⟨hk, hx⟩ := memberDocument_inv hj
    exact ⟨ms, hspells, m, hm, hk, eq_null_of_document hx⟩

/-- Null in a column of a node is not seen. In a metric null is refused in the place of the tags, which may
be missing. -/
theorem decode_nullKeys_column_tags :
    decode (List Response.Node) "[\x7b\"columns\":[\x7b\"partition\":null,\"name\":\"a\"\x7d]\x7d]" =
        .ok [{ columns := some [{ name := some "a" }] }] ∧
      decode Request.Metric ("\x7b\"name\":\"m\",\"mode\":\"draft\",\"query\":\"q\"," ++
        "\"update_if_exists\":true\x7d") =
        .ok { name := "m", mode := .draft, query := "q", updateIfExists := true } ∧
      ∃ refusal, decode Request.Metric ("\x7b\"name\":\"m\",\"mode\":\"draft\",\"query\":\"q\"," ++
        "\"update_if_exists\":true,\"tags\":null\x7d") = .error (.json refusal) := by
  let metric : List (String × Json) :=
    [("name", .string "m"), ("mode", .string "draft"), ("query", .string "q"),
      ("update_if_exists", .boolean true)]
  refine ⟨?_, ?_, ?_⟩
  · obtain ⟨columns, hcolumns, hcolumns'⟩ := Literal.exists_pieces "columns"
    obtain ⟨partition, hpartition, hpartition'⟩ := Literal.exists_pieces "partition"
    obtain ⟨name, hname, hname'⟩ := Literal.exists_pieces "name"
    obtain ⟨a, ha, -⟩ := Literal.exists_pieces "a"
    let doc : Json := .array [.object [("columns", .array [.object [("name", .string "a")]])]]
    have ht : Tree.Spells (.array [.object [(columns, .array [.object [(name, .string a)]])]])
        (Utf8.encode doc.compact.toList) := by
      refine ⟨_, [], ?_, laid_flatten _, blank_nil⟩
      simp only [tokens, tokensOfItems, tokensOfMembers, hcolumns, hname, ha]
      decide +kernel
    have ht' : Tree.Spells
        (.array [.object [(columns, .array [.object [(partition, .null), (name, .string a)]])]])
        (Utf8.encode "[\x7b\"columns\":[\x7b\"partition\":null,\"name\":\"a\"\x7d]\x7d]".toList) := by
      refine ⟨_, [], ?_, laid_flatten _, blank_nil⟩
      simp only [tokens, tokensOfItems, tokensOfMembers, hcolumns, hpartition, hname, ha]
      decide +kernel
    have hinserts : InsertsAt ((PayloadType.many .node).record.nullMayStand ·) .null
        ["name", "display_name", "type", "attributes", "dimension", "partition"]
        [(name, .string a)] [(partition, .null), (name, .string a)] := by
      refine ⟨[], _, partition, "partition", rfl, rfl, hpartition', by decide, rfl, ?_⟩
      intro m hm hkey
      cases List.mem_singleton.1 hm
      rw [hname'] at hkey
      exact absurd (Except.ok.inj hkey) (by decide)
    refine ((decode_nullKeys (.many .node) ht ht').1 ?_ _).2 ?_
    · exact @Shape.AtRecord.item _ _ [] [] _ _
        (@Shape.AtRecord.value _ _ _ _ [] [] columns "columns" _ _ hcolumns' rfl
          (@Shape.AtRecord.item _ _ [] [] _ _ (.record hinserts)))
    · exact (decode_eq_ok (parse_compact (by repeat' constructor) (by decide))).2 rfl
  · have hparse : parse ("\x7b\"name\":\"m\",\"mode\":\"draft\",\"query\":\"q\"," ++
        "\"update_if_exists\":true\x7d") = .ok (.object metric) := by
      rw [show "\x7b\"name\":\"m\",\"mode\":\"draft\",\"query\":\"q\"," ++
        "\"update_if_exists\":true\x7d" = (Json.object metric).compact by decide +kernel]
      exact parse_compact (by repeat' constructor) (by decide)
    exact (decode_eq_ok hparse).2 rfl
  · have hparse : parse ("\x7b\"name\":\"m\",\"mode\":\"draft\",\"query\":\"q\"," ++
        "\"update_if_exists\":true,\"tags\":null\x7d") = .ok (.object (metric ++ [("tags", .null)])) := by
      rw [show "\x7b\"name\":\"m\",\"mode\":\"draft\",\"query\":\"q\"," ++
        "\"update_if_exists\":true,\"tags\":null\x7d" =
          (Json.object (metric ++ [("tags", .null)])).compact by decide +kernel]
      exact parse_compact (by repeat' constructor) (by decide)
    obtain ⟨ms, hspells, m, hm, hk, hnull⟩ :=
      exists_null_member hparse (List.mem_append_right _ List.mem_cons_self)
    exact (decode_nullKeys (.one .requestMetric) hspells hspells).2.2.1
      (.record ⟨m, hm, "tags", by decide, hk, by decide, hnull⟩)

end MetricCatalog
