import MetricCatalog.Proofs.Json.CanonicalForm
import MetricCatalog.Proofs.Json.Rendered
import MetricCatalog.Proofs.Schema.Agreement

/-!
# Round trip — what is written is taken again

Where a field may hold any document or be unset, null is written for a field that is set to null as well as
for one that is unset, and is taken as unset. `Shape.collapse` unsets such fields; apart from it every
value is taken from its document as it was.
-/

namespace MetricCatalog

open Json Shape

variable {α β : Type}

def Json.isNull : Json → Bool
  | .null => true
  | _ => false

/-! ## 1. Fields set to null -/

/-- An optional value, unset if it is written as null. -/
def collapseOption (toJson : α → Json) (collapse : α → α) : Option α → Option α
  | none => none
  | some a => if (toJson a).isNull then none else some (collapse a)

mutual

/-- The value with all fields unset that are set to null. -/
def Shape.collapse : (s : Shape) → s.Value → s.Value
  | .text, v => v
  | .truth, v => v
  | .integer _, v => v
  | @Shape.word _ _, v => v
  | .json, v => v
  | .list item, vs => List.map item.collapse vs
  | .record _ fields, vs => fields.collapse vs
  | .wrapped _ item, vs => Option.map (List.map item.collapse) vs

def Field.collapse : (f : Field) → f.Value → f.Value
  | .required shape, v => shape.collapse v
  | .nullable shape, v => collapseOption shape.toJson shape.collapse v
  | .optional shape, v => collapseOption shape.toJson shape.collapse v
  | .sparse shape, v => collapseOption shape.toJson shape.collapse v
  | .flag, v => v
  | .listing item, vs => List.map item.collapse vs

def Fields.collapse : (fs : Fields) → fs.Values → fs.Values
  | .nil, _ => ()
  | .cons _ field rest, (v, more) => (field.collapse v, rest.collapse more)

end

/-! ## 2. Members -/

theorem Fields.key_mem_of_mem_toMembers : {fs : Fields} → {vs : fs.Values} → {m : String × Json} →
    m ∈ fs.toMembers vs → m.1 ∈ fs.keys
  | .nil, _, _, h => nomatch h
  | .cons key field rest, (v, more), m, h => by
    -- The first field is written as one member or not at all.
    have hcases : m.1 = key ∨ m ∈ rest.toMembers more := by
      rw [Fields.toMembers] at h
      cases hj : field.toJson? v with
      | none =>
        rw [hj] at h
        exact .inr h
      | some j =>
        rw [hj] at h
        rcases List.mem_cons.1 h with rfl | h
        · exact .inl rfl
        · exact .inr h
    rcases hcases with h | h
    · rw [h]
      exact List.mem_cons_self
    · exact List.mem_cons_of_mem _ (Fields.key_mem_of_mem_toMembers h)

theorem Fields.filter_toMembers {fs : Fields} {key : String} (h : key ∉ fs.keys) (vs : fs.Values) :
    (fs.toMembers vs).filter (·.1 = key) = [] := by
  rw [List.filter_eq_nil_iff]
  intro m hm hkey
  exact h (of_decide_eq_true hkey ▸ Fields.key_mem_of_mem_toMembers hm)

/-- A member under an unknown key is not gathered. -/
theorem Fields.gather_unknown : {fs : Fields} → {key : String} → key ∉ fs.keys → (j : Json) →
    (ms : List (String × Json)) → fs.gather ((key, j) :: ms) = fs.gather ms
  | .nil, _, _, _, _ => rfl
  | .cons k field rest, key, h, j, ms => by
    rw [Fields.keys, List.mem_cons, not_or] at h
    rw [Fields.gather, Fields.gather, underKey, underKey, filter_cons_other h.1,
      Fields.gather_unknown h.2]

theorem underKey_nil {key : String} {ms : List (String × Json)} (h : ms.filter (·.1 = key) = [])
    (value : Json → Option α) : underKey key value ms = some none := by
  rw [underKey, h]

theorem underKey_cons {key : String} {ms : List (String × Json)} (h : ms.filter (·.1 = key) = [])
    (j : Json) (value : Json → Option α) :
    underKey key value ((key, j) :: ms) = (value j).map some := by
  rw [underKey, filter_cons_self, h]

theorem mapM_map_eq_some {f : Json → Option α} {g : β → Json} {k : β → α}
    (h : ∀ x, f (g x) = some (k x)) (xs : List β) : (xs.map g).mapM f = some (xs.map k) := by
  induction xs with
  | nil => rfl
  | cons x xs ih =>
    rw [List.map_cons, List.mapM_cons, h, ih]
    rfl

theorem orNull?_collapse {value : Json → Option α} {toJson : α → Json} {collapse : α → α}
    (h : ∀ a, value (toJson a) = some (collapse a)) (a : α) :
    orNull? value (toJson a) = some (collapseOption toJson collapse (some a)) := by
  have ha := h a
  rw [collapseOption]
  cases hj : toJson a with
  | null => rfl
  | _ =>
    rw [hj] at ha
    exact congrArg (Option.map some) ha

/-! ## 3. All shapes -/

theorem Json.Width.val_toInteger (w : Width) (i : w.Integer) : (w.toInteger i).val = i.val := by
  cases w <;> rfl

theorem toOption_integerOf (w : Width) (i : w.Integer) :
    (integerOf w (.number (.int (w.toInteger i)))).toOption = some i := by
  have hi : IntBetween.ofInt? w.lo w.hi (w.toInteger i).val = some i := by
    rw [w.val_toInteger]
    exact IntBetween.ofInt?_val i
  rw [integerOf]
  simp only [hi]
  rfl

theorem CanonicalJson.canonicalize_toJson (j : CanonicalJson) : j.toJson.canonicalize = j := by
  rcases j with ⟨j, hj⟩
  simp only [Json.canonicalize, hj.canonical_eq]

/-- A field whose value is not written is filled with that value when its key is missing. -/
theorem Field.ifMissing?_of_toJson? : (f : Field) → (v : f.Value) → f.toJson? v = none →
    f.ifMissing? = some (f.collapse v)
  | .sparse _, none, _ => rfl
  | .listing _, [], _ => rfl

mutual

/-- Every value is taken from its document again, but for the fields set to null. -/
theorem Shape.value?_toJson : (s : Shape) → s.Distinct → (v : s.Value) →
    s.value? (s.toJson v) = some (s.collapse v)
  | .text, _, _ => rfl
  | .truth, _, _ => rfl
  | .integer width, _, i => toOption_integerOf width i
  | @Shape.word α _, _, a => (Shape.value?_word α _).trans (Vocabulary.ofWord?_spell (show α from a))
  | .json, _, j => congrArg some j.canonicalize_toJson
  | .list item, hs, vs => (Shape.value?_list item _).trans (mapM_map_eq_some (item.value?_toJson hs) vs)
  | .record name fields, hs, vs => by
    have hkeys : fields.keys.Nodup := hs.keys_nodup
    exact (Shape.value?_object name hkeys _).trans (fields.gather_toMembers hkeys hs.fields vs)
  | .wrapped key item, hs, vs => by
    -- The list is always written under its key, never bare.
    refine (Shape.value?_wrappedObject key item _).trans ?_
    rw [underKey_cons rfl]
    cases vs with
    | none => rfl
    | some vs =>
      have hlist : orNull? (list? item.value?) (.array (vs.map item.toJson)) =
          some (some (vs.map item.collapse)) :=
        congrArg (Option.map some) (mapM_map_eq_some (item.value?_toJson hs.item) vs)
      exact congrArg (fun found => (found.map some).map fun found => found.getD none) hlist

theorem Field.value?_toJson : (f : Field) → (∀ keys ∈ f.recordKeys, keys.Nodup) → (v : f.Value) →
    (j : Json) → f.toJson? v = some j → f.value? j = some (f.collapse v)
  | .required shape, hf, v, _, h => by
    cases h
    exact shape.value?_toJson hf v
  | .nullable shape, hf, v, _, h => by
    cases h
    refine (Field.value?_nullable shape _).trans ?_
    cases v with
    | none => rfl
    | some v => exact orNull?_collapse (shape.value?_toJson hf) v
  | .optional shape, hf, v, _, h => by
    cases h
    refine (Field.value?_optional shape _).trans ?_
    cases v with
    | none => rfl
    | some v => exact orNull?_collapse (shape.value?_toJson hf) v
  | .sparse shape, hf, v, _, h => by
    cases v with
    | none => cases h
    | some v =>
      cases h
      exact (Field.value?_sparse shape _).trans (orNull?_collapse (shape.value?_toJson hf) v)
  | .flag, _, b, _, h => by
    cases h
    rfl
  | .listing item, hf, vs, j, h => by
    -- An empty list is not written, so this one is not empty.
    have hj : j = .array (List.map item.toJson vs) := by
      rw [Field.toJson?] at h
      split at h
      · cases h
      · exact (Option.some.inj h).symm
    rw [hj]
    exact (Field.value?_listing item _).trans (mapM_map_eq_some (item.value?_toJson hf) vs)

theorem Fields.gather_toMembers : (fs : Fields) → fs.keys.Nodup → (∀ keys ∈ fs.recordKeys, keys.Nodup) →
    (vs : fs.Values) → fs.gather (fs.toMembers vs) = some (fs.collapse vs)
  | .nil, _, _, _ => rfl
  | .cons key field rest, hkeys, hfs, (v, more) => by
    rcases List.nodup_cons.1 hkeys with ⟨hkey, hrest⟩
    have hfield : ∀ keys ∈ field.recordKeys, keys.Nodup := Fields.nodup_first hfs
    have hgather := rest.gather_toMembers hrest (Fields.nodup_rest hfs) more
    have hfilter := rest.filter_toMembers hkey more
    show (underKey key field.value? ((Fields.cons key field rest).toMembers (v, more))).bind _ = _
    cases hj : field.toJson? v with
    | none =>
      -- The field is not written, so nothing is found under its key, which the others do not have.
      have hmembers : (Fields.cons key field rest).toMembers (v, more) = rest.toMembers more := by
        rw [Fields.toMembers, hj]
      rw [hmembers, underKey_nil hfilter]
      show (field.ifMissing?.bind fun v =>
        (rest.gather (rest.toMembers more)).bind fun more => some (v, more)) = _
      rw [field.ifMissing?_of_toJson? v hj, hgather]
      rfl
    | some j =>
      -- The member that is written is the only one under its key, and the others do not see it.
      have hmembers :
          (Fields.cons key field rest).toMembers (v, more) = (key, j) :: rest.toMembers more := by
        rw [Fields.toMembers, hj]
      rw [hmembers, underKey_cons hfilter, field.value?_toJson hfield v j hj]
      show (rest.gather ((key, j) :: rest.toMembers more)).bind
        (fun more => some (field.collapse v, more)) = _
      rw [Fields.gather_unknown hkey, hgather]
      rfl

end

end MetricCatalog
