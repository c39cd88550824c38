import Mathlib.Data.List.Forall2
import MetricCatalog.Proofs.Json.CanonicalForm
import MetricCatalog.Proofs.Schema.Agreement

/-!
# Simulation — documents from which the same is taken

A relation between documents is a simulation if it keeps what a reader of records can see: what stands in
front, the items of arrays one by one, and the only member under a key. Whatever a shape takes from a
document it then also takes from every related one (`Simulation.below_value?`).
-/

namespace MetricCatalog

open Shape

variable {α β : Type}

/-! ## 1. Values that are also taken -/

/-- The second has every value that the first has. -/
def Below (x y : Option α) : Prop := ∀ a, x = some a → y = some a

theorem Below.refl (x : Option α) : Below x x := fun _ h => h

theorem below_none (y : Option α) : Below none y := nofun

theorem Below.bind {x y : Option α} {f g : α → Option β} (h : Below x y) (hf : ∀ a, Below (f a) (g a)) :
    Below (x.bind f) (y.bind g) := by
  intro b hb
  cases x with
  | none => cases hb
  | some a =>
    rw [h a rfl]
    exact hf a b hb

theorem Below.map {x y : Option α} (h : Below x y) (f : α → β) : Below (x.map f) (y.map f) := by
  intro b hb
  cases x with
  | none => cases hb
  | some a =>
    rw [h a rfl]
    exact hb

theorem below_mapM {γ δ : Type} {R : γ → δ → Prop} {f : γ → Option α} {g : δ → Option α}
    (hitem : ∀ x y, R x y → Below (f x) (g y)) {xs : List γ} {ys : List δ} (h : List.Forall₂ R xs ys) :
    Below (xs.mapM f) (ys.mapM g) := by
  induction h with
  | nil => exact .refl _
  | cons hxy _ ih =>
    rw [List.mapM_cons, List.mapM_cons]
    exact (hitem _ _ hxy).bind fun a => ih.bind fun as => .refl _

/-! ## 2. Simulations -/

/-- A relation that keeps all that can be taken from a document. -/
structure Simulation (R : Json → Json → Prop) : Prop where
  head {j j' : Json} (h : R j j') : j.head = j'.head
  canonical {j j' : Json} (h : R j j') : j.canonical = j'.canonical
  items {js js' : List Json} (h : R (.array js) (.array js')) : List.Forall₂ R js js'
  none {ms ms' : List (String × Json)} {key : String} (h : R (.object ms) (.object ms'))
    (hnone : ms.filter (·.1 = key) = []) : ms'.filter (·.1 = key) = []
  only {ms ms' : List (String × Json)} {key : String} {j : Json} (h : R (.object ms) (.object ms'))
    (honly : ms.filter (·.1 = key) = [(key, j)]) : ∃ j', ms'.filter (·.1 = key) = [(key, j')] ∧ R j j'
  single {m : String × Json} {ms' : List (String × Json)} (h : R (.object [m]) (.object ms')) :
    ∃ m', ms' = [m']

theorem head_eq_null {j : Json} (h : j.head = .null) : j = .null := by
  cases j with
  | null => rfl
  | _ => cases h

theorem head_eq_array {j : Json} (h : j.head = .array) : ∃ js, j = .array js := by
  cases j with
  | array js => exact ⟨js, rfl⟩
  | _ => cases h

theorem head_eq_object {j : Json} (h : j.head = .object) : ∃ ms, j = .object ms := by
  cases j with
  | object ms => exact ⟨ms, rfl⟩
  | _ => cases h

theorem canonicalize_congr {j j' : Json} (h : j.canonical = j'.canonical) :
    j.canonicalize = j'.canonicalize := by
  simp only [Json.canonicalize, h]

/-- A filter by keys keeps only members under the key. -/
theorem filter_eq_single {key : String} {ms : List (String × Json)} {m : String × Json}
    (h : ms.filter (·.1 = key) = [m]) : m = (key, m.2) := by
  have hm : m ∈ ms.filter (·.1 = key) := h ▸ List.mem_singleton_self m
  have hkey : m.1 = key := of_decide_eq_true (List.mem_filter.1 hm).2
  rw [← hkey]

namespace Simulation

variable {R : Json → Json → Prop}

section

variable (hR : Simulation R)

include hR

theorem below_underKey {value value' : Json → Option α}
    (hvalue : ∀ j j', R j j' → Below (value j) (value' j')) {ms ms' : List (String × Json)}
    (h : R (.object ms) (.object ms')) (key : String) :
    Below (underKey key value ms) (underKey key value' ms') := by
  -- Nothing is claimed where the key is repeated, since nothing is taken there.
  unfold underKey
  cases hfilter : ms.filter (·.1 = key) with
  | nil =>
    rw [hR.none h hfilter]
    exact .refl _
  | cons m more =>
    cases more with
    | nil =>
      have hm := filter_eq_single hfilter
      rw [hm] at hfilter
      rcases hR.only h hfilter with ⟨j', hfilter', hj⟩
      rw [hfilter']
      exact (hvalue m.2 j' hj).map some
    | cons m' more => exact below_none _

theorem below_word (α : Type) [Vocabulary α] {j j' : Json} (h : R j j') :
    Below (word? α j) (word? α j') := by
  have hhead := hR.head h
  cases j with
  | string s =>
    cases j' with
    | string s' =>
      cases hhead
      exact .refl _
    | _ => cases hhead
  | object ms =>
    rcases head_eq_object hhead.symm with ⟨ms', rfl⟩
    -- An object spells a word only if it has a single member.
    rcases ms with _ | ⟨⟨key, j⟩, _ | ⟨m, ms⟩⟩
    · exact below_none _
    · rcases hR.single h with ⟨m', rfl⟩
      rcases hR.only h (Json.filter_cons_self key j []) with ⟨j', hfilter, hj⟩
      have hm : m' ∈ [m'].filter (·.1 = key) := by
        rw [List.filter_cons] at hfilter ⊢
        by_cases hkey : decide (m'.1 = key) = true
        · rw [if_pos hkey]
          exact List.mem_cons_self
        · rw [if_neg hkey] at hfilter
          cases hfilter
      rw [hfilter] at hm
      cases List.mem_singleton.1 hm
      have hvalue := hR.head hj
      cases j with
      | null =>
        rw [head_eq_null hvalue.symm]
        exact .refl _
      | _ => exact below_none _
    · cases j <;> exact below_none _
  | _ => exact below_none _

theorem below_list {item : Json → Option α} (hitem : ∀ j j', R j j' → Below (item j) (item j'))
    {j j' : Json} (h : R j j') : Below (list? item j) (list? item j') := by
  have hhead := hR.head h
  cases j with
  | array js =>
    rcases head_eq_array hhead.symm with ⟨js', rfl⟩
    exact below_mapM hitem (hR.items h)
  | _ => exact below_none _

theorem below_orNull {value : Json → Option α} (hvalue : ∀ j j', R j j' → Below (value j) (value j'))
    {j j' : Json} (h : R j j') : Below (orNull? value j) (orNull? value j') := by
  have hhead := hR.head h
  by_cases hj : j = .null
  · subst hj
    rw [head_eq_null hhead.symm]
    exact .refl _
  · -- Null is told by what stands in front.
    have hj' : j' ≠ .null := by
      rintro rfl
      exact hj (head_eq_null hhead)
    have hsome : ∀ {j : Json}, j ≠ .null → orNull? value j = (value j).map some := by
      intro j hj
      cases j with
      | null => exact absurd rfl hj
      | _ => rfl
    rw [hsome hj, hsome hj']
    exact (hvalue j j' h).map some

end

theorem below_of_head {k : Json.Head → Except Json.Fault α} {f : Json → Except Json.Fault α}
    (hk : ∀ doc : Json, (k doc.head).toOption = (f doc).toOption) {j j' : Json} (h : j.head = j'.head) :
    Below (f j).toOption (f j').toOption := by
  rw [← hk, ← hk, h]
  exact .refl _

/-! ## 3. All shapes -/

mutual

/-- What a shape takes from a document it takes from every related one, by recursion on the shape. -/
theorem below_value? (hR : Simulation R) : (s : Shape) → s.Distinct → (j j' : Json) → R j j' →
    Below (s.value? j) (s.value? j')
  | .text, _, _, _, h => below_of_head toOption_headText (hR.head h)
  | .truth, _, _, _, h => below_of_head toOption_headTruth (hR.head h)
  | .integer width, _, _, _, h => below_of_head (toOption_headInteger width) (hR.head h)
  | @Shape.word α _, _, j, j', h => by
    rw [Shape.value?_word, Shape.value?_word]
    exact hR.below_word α h
  | .json, _, j, j', h => by
    show Below (some j.canonicalize) (some j'.canonicalize)
    rw [canonicalize_congr (hR.canonical h)]
    exact .refl _
  | .list item, hs, j, j', h => by
    rw [Shape.value?_list, Shape.value?_list]
    exact hR.below_list (below_value? hR item hs) h
  | .record name fields, hs, j, j', h => by
    have hkeys : fields.keys.Nodup := hs.keys_nodup
    have hhead := hR.head h
    -- The related document is read in the same place, as an object or as an array.
    cases j with
    | object ms =>
      rcases head_eq_object hhead.symm with ⟨ms', rfl⟩
      rw [Shape.value?_object name hkeys, Shape.value?_object name hkeys]
      exact below_gather hR fields hs.fields ms ms' h
    | array js =>
      rcases head_eq_array hhead.symm with ⟨js', rfl⟩
      rw [Shape.value?_array, Shape.value?_array]
      exact below_items hR fields hs.fields js js' (hR.items h)
    | _ => exact below_none _
  | .wrapped key item, hs, j, j', h => by
    have hhead := hR.head h
    cases j with
    | object ms =>
      rcases head_eq_object hhead.symm with ⟨ms', rfl⟩
      rw [Shape.value?_wrappedObject, Shape.value?_wrappedObject]
      refine Below.map (hR.below_underKey (fun j j' h => ?_) h key) _
      exact hR.below_orNull (fun j j' h => hR.below_list (below_value? hR item hs.item) h) h
    | array js =>
      rcases head_eq_array hhead.symm with ⟨js', rfl⟩
      rw [Shape.value?_wrappedArray, Shape.value?_wrappedArray]
      exact (below_mapM (below_value? hR item hs.item) (hR.items h)).map some
    | _ => exact below_none _

theorem below_field (hR : Simulation R) : (f : Field) → (∀ keys ∈ f.recordKeys, keys.Nodup) →
    (j j' : Json) → R j j' → Below (f.value? j) (f.value? j')
  | .required shape, hf, j, j', h => below_value? hR shape hf j j' h
  | .nullable shape, hf, j, j', h => by
    rw [Field.value?_nullable, Field.value?_nullable]
    exact hR.below_orNull (below_value? hR shape hf) h
  | .optional shape, hf, j, j', h => by
    rw [Field.value?_optional, Field.value?_optional]
    exact hR.below_orNull (below_value? hR shape hf) h
  | .sparse shape, hf, j, j', h => by
    rw [Field.value?_sparse, Field.value?_sparse]
    exact hR.below_orNull (below_value? hR shape hf) h
  | .flag, _, j, j', h => by
    rw [Field.value?_flag, Field.value?_flag]
    exact (hR.below_orNull (fun j j' h => below_of_head toOption_headTruth (hR.head h)) h).map _
  | .listing item, hf, j, j', h => by
    rw [Field.value?_listing, Field.value?_listing]
    exact hR.below_list (below_value? hR item hf) h

theorem below_gather (hR : Simulation R) : (fs : Fields) → (∀ keys ∈ fs.recordKeys, keys.Nodup) →
    (ms ms' : List (String × Json)) → R (.object ms) (.object ms') →
    Below (fs.gather ms) (fs.gather ms')
  | .nil, _, _, _, _ => .refl _
  | .cons key field rest, hfs, ms, ms', h => by
    refine (hR.below_underKey (below_field hR field (Fields.nodup_first hfs)) h key).bind fun found => ?_
    refine Below.bind (.refl _) fun v => ?_
    exact (below_gather hR rest (Fields.nodup_rest hfs) ms ms' h).bind fun more => .refl _

theorem below_items (hR : Simulation R) : (fs : Fields) → (∀ keys ∈ fs.recordKeys, keys.Nodup) →
    (js js' : List Json) → List.Forall₂ R js js' → Below (fs.items? js) (fs.items? js')
  | .nil, _, _, _, .nil => .refl _
  | .nil, _, _, _, .cons _ _ => below_none _
  | .cons _ field rest, _, _, _, .nil => .refl _
  | .cons _ field rest, hfs, j :: js, j' :: js', .cons h hmore => by
    refine (below_field hR field (Fields.nodup_first hfs) j j' h).bind fun v => ?_
    exact (below_items hR rest (Fields.nodup_rest hfs) js js' hmore).bind fun more => .refl _

end

end Simulation

/-! ## 4. Canonical forms -/

/-- The canonical form of a document simulates it: members that are dropped could not have been taken. -/
theorem simulation_canonical : Simulation fun j j' => j' = j.canonical where
  head := by
    rintro j _ rfl
    cases j <;> rfl
  canonical := by
    rintro j _ rfl
    exact j.canonical_idem.symm
  items := by
    intro js js' h
    cases h
    rw [Json.canonicalItems_eq_map, List.forall₂_map_right_iff]
    exact List.forall₂_same.2 fun _ _ => rfl
  none := by
    intro ms ms' key h hnone
    cases h
    rw [Json.filter_canonicalMembers, hnone]
    rfl
  only := by
    intro ms ms' key j h honly
    cases h
    refine ⟨j.canonical, ?_, rfl⟩
    rw [Json.filter_canonicalMembers, honly]
    rfl
  single := by
    intro m ms' h
    cases h
    exact ⟨_, rfl⟩

/-- Where no key is repeated, a document simulates its canonical form. -/
theorem simulation_of_canonical : Simulation fun j j' => j = j'.canonical ∧ j'.KeysDistinct where
  head := by
    rintro _ j ⟨rfl, -⟩
    cases j <;> rfl
  canonical := by
    rintro _ j ⟨rfl, -⟩
    exact j.canonical_idem
  items := by
    rintro js js' ⟨h, hdistinct⟩
    cases h
    rw [Json.canonicalItems_eq_map, List.forall₂_map_left_iff]
    exact List.forall₂_same.2 fun x hx => ⟨rfl, Json.KeysDistinctItems.forall hdistinct x hx⟩
  none := by
    rintro ms ms' key ⟨h, hdistinct⟩ hnone
    cases h
    rcases Json.filter_of_nodup key hdistinct.1 with hfilter | ⟨j, hfilter⟩
    · exact hfilter
    · -- The canonical form keeps the member under the key, so there is none to be missed.
      rw [Json.filter_canonicalMembers, hfilter] at hnone
      cases hnone
  only := by
    rintro ms ms' key j ⟨h, hdistinct⟩ honly
    cases h
    rcases Json.filter_of_nodup key hdistinct.1 with hfilter | ⟨j', hfilter⟩
    · rw [Json.filter_canonicalMembers, hfilter] at honly
      cases honly
    · -- The value that the canonical form has is that of the only member under the key.
      have hmem : (key, j') ∈ ms'.filter (·.1 = key) := hfilter ▸ List.mem_singleton_self _
      rw [Json.filter_canonicalMembers, hfilter] at honly
      cases honly
      exact ⟨j', hfilter, rfl,
        Json.KeysDistinctMembers.forall hdistinct.2 _ (List.mem_of_mem_filter hmem)⟩
  single := by
    rintro m ms' ⟨h, hdistinct⟩
    -- No member has been dropped, so there were as many before.
    have hperm := (Json.perm_canonicalMembers hdistinct.1).length_eq
    have hms : Json.canonicalMembers ms' = [m] := (Json.object.inj h).symm
    rw [hms, List.length_map] at hperm
    exact List.length_eq_one_iff.1 hperm.symm

end MetricCatalog
