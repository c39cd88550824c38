import MetricCatalog.Proofs.Schema.SetToNull

/-!
# Received values — what one record takes from the document of another

Two records may have keys in common. Under each of its own keys a record takes what the other one writes
there, and if the other one writes nothing there, the key is missing (`Shape.value?_received`).
-/

namespace MetricCatalog

open Json Shape

variable {α β : Type}

/-! ## 1. Members by their keys -/

/-- What a record writes under a key. -/
def Fields.written? : (fs : Fields) → fs.Values → String → Option Json
  | .nil, _, _ => none
  | .cons k field rest, (v, more), key => if k = key then field.toJson? v else rest.written? more key

theorem Fields.written?_eq_none {key : String} : {fs : Fields} → key ∉ fs.keys → (vs : fs.Values) →
    fs.written? vs key = none
  | .nil, _, _ => rfl
  | .cons k field rest, h, (v, more) => by
    rw [Fields.keys, List.mem_cons, not_or] at h
    rw [Fields.written?, if_neg (Ne.symm h.1), Fields.written?_eq_none h.2]

/-- What is taken under a key is what is written there. -/
theorem Fields.underKey_toMembers (key : String) (value : Json → Option α) : {fs : Fields} →
    fs.keys.Nodup → (vs : fs.Values) →
    underKey key value (fs.toMembers vs) = match fs.written? vs key with
      | none => some none
      | some j => (value j).map some
  | .nil, _, _ => rfl
  | .cons k field rest, hkeys, (v, more) => by
    obtain ⟨hk, hrest⟩ := List.nodup_cons.1 hkeys
    have ih := Fields.underKey_toMembers key value hrest more
    rw [Fields.toMembers, Fields.written?]
    by_cases hkey : k = key
    · -- The other fields write nothing under this key.
      subst hkey
      have hfilter := rest.filter_toMembers hk more
      rw [if_pos rfl]
      cases field.toJson? v with
      | none => exact underKey_nil hfilter value
      | some j => exact underKey_cons hfilter j value
    · rw [if_neg hkey, ← ih]
      cases field.toJson? v with
      | none => rfl
      | some j =>
        change underKey key value ((k, j) :: rest.toMembers more) = _
        rw [underKey, underKey, filter_cons_other hkey]

/-! ## 2. Fields -/

/-- The value is what a field takes from what is found under its key, be it nothing. -/
def Field.Receives (f : Field) (found : Option Json) (v : f.Value) : Prop :=
  match found with
  | none => f.ifMissing? = some v
  | some j => f.value? j = some v

/-- The values are what the fields take from what is found under their keys. -/
def Fields.Receive (found : String → Option Json) : (fs : Fields) → fs.Values → Prop
  | .nil, _ => True
  | .cons key field rest, (v, more) => field.Receives (found key) v ∧ rest.Receive found more

/-- A field takes again what it has written, or not written. -/
theorem Field.receives_collapse (f : Field) (hf : ∀ keys ∈ f.recordKeys, keys.Nodup) (v : f.Value) :
    f.Receives (f.toJson? v) (f.collapse v) := by
  cases hj : f.toJson? v with
  | none => exact f.ifMissing?_of_toJson? v hj
  | some j => exact f.value?_toJson hf v j hj

theorem Field.receives_self (f : Field) (hf : ∀ keys ∈ f.recordKeys, keys.Nodup) (h : f.noNulls)
    (v : f.Value) : f.Receives (f.toJson? v) v := by
  have hv := f.receives_collapse hf v
  rwa [f.collapse_eq_self h v] at hv

theorem receives_text (v : Option String) :
    (Field.optional .text).Receives ((Field.optional .text).toJson? v) v :=
  (Field.optional .text).receives_self (by decide) rfl v

theorem receives_texts (v : Option (List String)) :
    (Field.optional (.list .text)).Receives ((Field.optional (.list .text)).toJson? v) v :=
  (Field.optional (.list .text)).receives_self (by decide) rfl v

/-- A list that is not written while it is empty is unset then. -/
theorem receives_listing (vs : List String) :
    (Field.optional (.list .text)).Receives ((Field.listing .text).toJson? vs)
      (if vs = [] then none else some vs) := by
  cases vs with
  | nil => rfl
  | cons v vs => exact receives_texts (some (v :: vs))

/-- A document is unset if it is null. -/
theorem receives_sparse (j : Option CanonicalJson) :
    (Field.optional .json).Receives ((Field.sparse .json).toJson? j) (unsetNull j) := by
  cases j with
  | none => rfl
  | some j =>
    rw [← collapseOption_toJson]
    exact (Field.optional .json).receives_collapse (by decide) (some j)

/-! ## 3. Records -/

section

variable {qs : Fields} {ws : qs.Values}

theorem Fields.gather_received (hqs : qs.keys.Nodup) : {fs : Fields} → {vs : fs.Values} →
    fs.Receive (qs.written? ws) vs → fs.gather (qs.toMembers ws) = some vs
  | .nil, _, _ => rfl
  | .cons key field rest, (v, more), h => by
    obtain ⟨hv, hmore⟩ := h
    have hfound : ((underKey key field.value? (qs.toMembers ws)).bind fun found =>
        found.or field.ifMissing?) = some v := by
      rw [Fields.underKey_toMembers key _ hqs]
      cases hj : qs.written? ws key with
      | none =>
        rw [hj] at hv
        exact hv
      | some j =>
        rw [hj] at hv
        change ((field.value? j).map some).bind _ = some v
        rw [show field.value? j = some v from hv]
        rfl
    have hassoc : (Fields.cons key field rest).gather (qs.toMembers ws) =
        ((underKey key field.value? (qs.toMembers ws)).bind fun found => found.or field.ifMissing?).bind
          fun v => (rest.gather (qs.toMembers ws)).bind fun more => some (v, more) :=
      (Option.bind_assoc _ _ _).symm
    rw [hassoc, hfound, Fields.gather_received hqs hmore]
    rfl

theorem Shape.value?_received (name name' : String) {fs : Fields} {vs : fs.Values} (hqs : qs.keys.Nodup)
    (hfs : fs.keys.Nodup) (h : fs.Receive (qs.written? ws) vs) :
    (Shape.record name fs).value? ((Shape.record name' qs).toJson ws) = some vs :=
  (Shape.value?_object name hfs _).trans (Fields.gather_received hqs h)

end

end MetricCatalog
