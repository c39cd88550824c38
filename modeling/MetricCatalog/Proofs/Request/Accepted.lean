import MetricCatalog.Proofs.Request.Slots
import MetricCatalog.Proofs.Schema.Insertion
import MetricCatalog.Proofs.Schema.NullKeys

/-!
# Accepted requests — what is decoded and what it becomes

`Shape.Takes` ties a shape to what a document has to say for it, `Fields.Take` the fields of a record to its
slots. From there it is settled key by key which documents are decoded, what the parts of the request are,
and which key is missed first.
-/

namespace MetricCatalog

open Json Json.Scan Json.Tree Shape Request

variable {α β : Type}

/-! ## 1. Shapes -/

/-- The shape takes from a document the values that it gives, and `pack` leaves none of them out. -/
structure Shape.Takes (s : Shape) (pack : β → s.Value) (gives : Giving β) : Prop where
  onto : ∀ v, ∃ b, pack b = v
  value : ∀ j b, s.value? j = some (pack b) ↔ gives j b

theorem takes_text : Shape.text.Takes id Giving.text where
  onto v := ⟨v, rfl⟩
  value j b := by
    cases j with
    | string s =>
      exact ⟨fun h => congrArg Json.string (Option.some.inj h), fun h => congrArg some (Json.string.inj h)⟩
    | _ => exact ⟨nofun, nofun⟩

theorem takes_truth : Shape.truth.Takes id Giving.truth where
  onto v := ⟨v, rfl⟩
  value j b := by
    cases j with
    | boolean c =>
      exact ⟨fun h => congrArg Json.boolean (Option.some.inj h), fun h => congrArg some (Json.boolean.inj h)⟩
    | _ => exact ⟨nofun, nofun⟩

theorem takes_integer (width : Width) : (Shape.integer width).Takes id (Giving.integer width) where
  onto v := ⟨v, rfl⟩
  value j b := by
    rcases j with _ | _ | (i | x) | _ | _ | _
    case number.int =>
      have hvalue : (Shape.integer width).value? (.number (.int i)) =
          IntBetween.ofInt? width.lo width.hi i.val := by
        change (integerOf width (.number (.int i))).toOption = _
        rw [integerOf]
        cases IntBetween.ofInt? width.lo width.hi i.val <;> rfl
      rw [hvalue]
      refine IntBetween.ofInt?_eq_some_iff.trans ⟨fun h => ⟨i, rfl, h.symm⟩, ?_⟩
      rintro ⟨i', hi', hval⟩
      cases hi'
      exact hval.symm
    all_goals
      constructor
      · rintro ⟨⟩
      · rintro ⟨_, ⟨⟩, _⟩

theorem word?_eq_some {α : Type} [Vocabulary α] {j : Json} {a : α} :
    word? α j = some a ↔ Giving.word α j a := by
  constructor
  · intro h
    unfold word? at h
    split at h
    · exact .inl (congrArg Json.string (Vocabulary.ofWord?_eq_some_iff.1 h).symm)
    · rw [← Vocabulary.ofWord?_eq_some_iff.1 h]
      exact .inr rfl
    · cases h
  · rintro (rfl | rfl)
    · exact Vocabulary.ofWord?_spell a
    · exact Vocabulary.ofWord?_spell a

theorem takes_word (α : Type) [Vocabulary α] : (Shape.word α).Takes id (Giving.word α) where
  onto v := ⟨v, rfl⟩
  value j a := by
    rw [Shape.value?_word]
    exact word?_eq_some

theorem takes_document : Shape.json.Takes id Giving.document where
  onto v := ⟨v, rfl⟩
  value _ _ := ⟨Option.some.inj, congrArg some⟩

theorem mapM_eq_some_map {f : Json → Option α} {pack : β → α} {gives : Giving β}
    (h : ∀ j b, f j = some (pack b) ↔ gives j b) {js : List Json} {bs : List β} :
    js.mapM f = some (bs.map pack) ↔ List.Forall₂ gives js bs := by
  induction js generalizing bs with
  | nil => cases bs <;> simp
  | cons j js ih =>
    rw [List.mapM_cons]
    cases bs with
    | nil =>
      refine ⟨fun heq => ?_, nofun⟩
      cases hj : f j with
      | none => rw [hj] at heq; cases heq
      | some a =>
        rw [hj] at heq
        change ((js.mapM f).bind fun more => some (a :: more)) = some [] at heq
        cases hjs : js.mapM f <;> rw [hjs] at heq <;> cases heq
    | cons b bs =>
      rw [List.forall₂_cons, ← h, ← ih]
      cases hj : f j with
      | none => exact ⟨nofun, fun h => nomatch h.1⟩
      | some a =>
        cases hjs : js.mapM f with
        | none => exact ⟨nofun, fun h => nomatch h.2⟩
        | some more => simp

theorem Shape.Takes.list {s : Shape} {pack : β → s.Value} {gives : Giving β} (h : s.Takes pack gives) :
    (Shape.list s).Takes (List.map pack) (.list gives) where
  onto vs := by
    induction vs with
    | nil => exact ⟨[], rfl⟩
    | cons v vs ih =>
      obtain ⟨b, rfl⟩ := h.onto v
      obtain ⟨bs, rfl⟩ := ih
      exact ⟨b :: bs, rfl⟩
  value j bs := by
    rw [Shape.value?_list]
    cases j with
    | array js =>
      refine (mapM_eq_some_map h.value).trans ⟨fun hjs => ⟨js, rfl, hjs⟩, ?_⟩
      rintro ⟨js', hjs', hgives⟩
      cases hjs'
      exact hgives
    | _ => exact ⟨nofun, fun ⟨_, h, _⟩ => nomatch h⟩

/-! ## 2. Fields -/

/-- The field takes what the slot asks for, and may be missing or cut off where the slot says so. -/
structure Field.Takes (f : Field) (slot : Slot α) (pack : slot.β → f.Value) : Prop where
  onto : ∀ v, ∃ b, pack b = v
  value : ∀ j b, f.value? j = some (pack b) ↔ slot.gives j b
  missing : ∀ b, f.ifMissing? = some (pack b) ↔ slot.missing? = some b
  cutOff : ∀ b, f.ifCutOff? = some (pack b) ↔ slot.cutOff? = some b

theorem orNull?_eq_some_map {f : Json → Option α} {pack : β → α} {gives : Giving β}
    (h : ∀ j b, f j = some (pack b) ↔ gives j b) (j : Json) (b : Option β) :
    orNull? f j = some (b.map pack) ↔ Giving.orNull gives j b := by
  have hvalue : (f j).map some = some (b.map pack) ↔ ∃ a, gives j a ∧ b = some a := by
    rw [Option.map_eq_some_iff]
    constructor
    · rintro ⟨x, hx, hb⟩
      obtain ⟨a, rfl, rfl⟩ := Option.map_eq_some_iff.1 hb.symm
      exact ⟨a, (h j a).1 hx, rfl⟩
    · rintro ⟨a, ha, rfl⟩
      exact ⟨pack a, (h j a).2 ha, rfl⟩
  cases j with
  | null => exact ⟨fun heq => Option.map_eq_none_iff.1 (Option.some.inj heq).symm, fun hb => by rw [hb]; rfl⟩
  | _ => exact hvalue

theorem unset_eq_map {pack : β → α} (b : Option β) : some none = some (b.map pack) ↔ some none = some b := by
  rw [Option.some.injEq, Option.some.injEq, eq_comm, Option.map_eq_none_iff, eq_comm]

theorem empty_eq_map {pack : β → α} (bs : List β) : some [] = some (bs.map pack) ↔ some [] = some bs := by
  rw [Option.some.injEq, Option.some.injEq, eq_comm, List.map_eq_nil_iff, eq_comm]

theorem onto_map {pack : β → α} (h : ∀ v, ∃ b, pack b = v) (v : Option α) : ∃ b, Option.map pack b = v := by
  cases v with
  | none => exact ⟨none, rfl⟩
  | some a =>
    obtain ⟨b, rfl⟩ := h a
    exact ⟨some b, rfl⟩

section

variable {γ : Type} {s : Shape} {pack : β → s.Value} {gives : Giving β} (h : s.Takes pack gives) (key : String)
include h

theorem Shape.Takes.required (part : γ → β) : (Field.required s).Takes (.required key part gives) pack where
  onto := h.onto
  value := h.value
  missing _ := ⟨nofun, nofun⟩
  cutOff _ := ⟨nofun, nofun⟩

theorem Shape.Takes.nullable (part : γ → Option β) :
    (Field.nullable s).Takes (.nullable key part gives) (Option.map pack) where
  onto := onto_map h.onto
  value j b := by
    have hvalue : (Field.nullable s).value? j = orNull? s.value? j := Field.value?_nullable s j
    rw [hvalue]
    exact orNull?_eq_some_map h.value j b
  missing := unset_eq_map
  cutOff _ := ⟨nofun, nofun⟩

theorem Shape.Takes.optional (part : γ → Option β) :
    (Field.optional s).Takes (.optional key part gives) (Option.map pack) where
  onto := onto_map h.onto
  value j b := by
    have hvalue : (Field.optional s).value? j = orNull? s.value? j := Field.value?_optional s j
    rw [hvalue]
    exact orNull?_eq_some_map h.value j b
  missing := unset_eq_map
  cutOff := unset_eq_map

theorem Shape.Takes.sparse (part : γ → Option β) :
    (Field.sparse s).Takes (.optional key part gives) (Option.map pack) where
  onto := onto_map h.onto
  value j b := by
    have hvalue : (Field.sparse s).value? j = orNull? s.value? j := Field.value?_sparse s j
    rw [hvalue]
    exact orNull?_eq_some_map h.value j b
  missing := unset_eq_map
  cutOff := unset_eq_map

theorem Shape.Takes.listing (part : γ → List β) :
    (Field.listing s).Takes (.listing key part gives) (List.map pack) where
  onto := h.list.onto
  value j bs := by
    have hvalue : (Field.listing s).value? j = (Shape.list s).value? j := by
      rw [Shape.value?_list]
      exact Field.value?_listing s j
    rw [hvalue]
    exact h.list.value j bs
  missing := empty_eq_map
  cutOff := empty_eq_map

end

/-! ## 3. Records -/

/-- What the fields of a record take is what its slots ask for, and `pack` puts together the parts. -/
def Fields.Take : (fs : Fields) → (α → fs.Values) → List (Slot α) → Prop
  | .nil, _, [] => True
  | .cons key field rest, pack, slot :: slots =>
    slot.key = key ∧ (∃ p, field.Takes slot p ∧ ∀ a, (pack a).1 = p (slot.part a)) ∧
      rest.Take (fun a => (pack a).2) slots
  | _, _, _ => False

/-- What the members of an object have under the key of a field, or have not. -/
theorem Field.Takes.found {f : Field} {slot : Slot α} {p : slot.β → f.Value} (h : f.Takes slot p)
    (ms : List (String × Json)) (b : slot.β) :
    ((underKey slot.key f.value? ms).bind fun found => found.or f.ifMissing?) = some (p b) ↔
      slot.Found ms b := by
  have hkeys : ∀ m ∈ ms.filter (·.1 = slot.key), m.1 = slot.key :=
    fun m hm => by simpa using (List.mem_filter.1 hm).2
  rw [underKey, Slot.Found]
  generalize ms.filter (·.1 = slot.key) = under at hkeys
  rcases under with _ | ⟨⟨k, j⟩, _ | ⟨m, under⟩⟩
  · refine (h.missing b).trans ⟨fun hb => .inl ⟨rfl, hb⟩, ?_⟩
    rintro (⟨-, hb⟩ | ⟨j, hj, -⟩)
    · exact hb
    · cases hj
  · obtain rfl : k = slot.key := hkeys (k, j) List.mem_cons_self
    have hvalue : (((f.value? j).map some).bind fun found => found.or f.ifMissing?) = f.value? j := by
      cases f.value? j <;> rfl
    refine (Eq.congr_left hvalue).trans ((h.value j b).trans ⟨fun hb => .inr ⟨j, rfl, hb⟩, ?_⟩)
    rintro (⟨hnone, -⟩ | ⟨j', hj', hb⟩)
    · cases hnone
    · cases hj'
      exact hb
  · refine ⟨by rintro ⟨⟩, ?_⟩
    rintro (⟨hnone, -⟩ | ⟨j', hj', -⟩)
    · cases hnone
    · cases hj'

theorem bind_pair_eq_some {γ : Type} {x : Option α} {y : Option γ} {v : α × γ} :
    (x.bind fun a => y.bind fun c => some (a, c)) = some v ↔ x = some v.1 ∧ y = some v.2 := by
  cases x with
  | none => exact ⟨nofun, fun h => nomatch h.1⟩
  | some a =>
    cases y with
    | none => exact ⟨nofun, fun h => nomatch h.2⟩
    | some c =>
      constructor
      · intro h
        cases h
        exact ⟨rfl, rfl⟩
      · rintro ⟨ha, hc⟩
        cases ha
        cases hc
        rfl

section

variable {key : String} {field : Field} {rest : Fields} {vs : (Fields.cons key field rest).Values}

theorem Fields.gather_cons {ms : List (String × Json)} :
    (Fields.cons key field rest).gather ms = some vs ↔
      ((underKey key field.value? ms).bind fun found => found.or field.ifMissing?) = some vs.1 ∧
        rest.gather ms = some vs.2 := by
  have hassoc : (Fields.cons key field rest).gather ms =
      ((underKey key field.value? ms).bind fun found => found.or field.ifMissing?).bind fun v =>
        (rest.gather ms).bind fun more => some (v, more) := (Option.bind_assoc _ _ _).symm
  exact (Eq.congr_left hassoc).trans bind_pair_eq_some

theorem Fields.items?_cons {j : Json} {js : List Json} :
    (Fields.cons key field rest).items? (j :: js) = some vs ↔
      field.value? j = some vs.1 ∧ rest.items? js = some vs.2 :=
  bind_pair_eq_some

theorem Fields.items?_end :
    (Fields.cons key field rest).items? [] = some vs ↔
      field.ifCutOff? = some vs.1 ∧ rest.items? [] = some vs.2 :=
  bind_pair_eq_some

end

/-- The fields are gathered as the parts of a record exactly if each slot finds its part. -/
theorem Fields.Take.gather : {fs : Fields} → {pack : α → fs.Values} → {slots : List (Slot α)} →
    fs.Take pack slots → (ms : List (String × Json)) → (a : α) →
    (fs.gather ms = some (pack a) ↔ ∀ slot ∈ slots, slot.Found ms (slot.part a))
  | .nil, _, [], _, _, _ => ⟨fun _ => nofun, fun _ => rfl⟩
  | .cons key field rest, pack, slot :: slots, h, ms, a => by
    obtain ⟨rfl, ⟨p, hfield, hpack⟩, hrest⟩ := h
    rw [Fields.gather_cons, hpack, hfield.found, hrest.gather ms a, List.forall_mem_cons]

/-- They are gathered at all if each slot finds some part. -/
theorem Fields.Take.exists_gather : {fs : Fields} → {pack : α → fs.Values} → {slots : List (Slot α)} →
    fs.Take pack slots → (ms : List (String × Json)) →
    ((∃ vs, fs.gather ms = some vs) ↔ ∀ slot ∈ slots, ∃ b, slot.Found ms b)
  | .nil, _, [], _, _ => ⟨fun _ => nofun, fun _ => ⟨(), rfl⟩⟩
  | .cons key field rest, pack, slot :: slots, h, ms => by
    obtain ⟨rfl, ⟨p, hfield, -⟩, hrest⟩ := h
    rw [List.forall_mem_cons, ← hrest.exists_gather ms]
    constructor
    · rintro ⟨vs, hvs⟩
      obtain ⟨hfirst, hmore⟩ := Fields.gather_cons.1 hvs
      obtain ⟨b, hb⟩ := hfield.onto vs.1
      exact ⟨⟨b, (hfield.found ms b).1 (hb ▸ hfirst)⟩, vs.2, hmore⟩
    · rintro ⟨⟨b, hb⟩, more, hmore⟩
      exact ⟨(p b, more), Fields.gather_cons.2 ⟨(hfield.found ms b).2 hb, hmore⟩⟩

/-- The items of an array are taken as the parts of a record exactly if they are placed so. -/
theorem Fields.Take.items : {fs : Fields} → {pack : α → fs.Values} → {slots : List (Slot α)} →
    fs.Take pack slots → (js : List Json) → (a : α) → (fs.items? js = some (pack a) ↔ Placed slots js a)
  | .nil, _, [], _, [], _ => ⟨fun _ => rfl, fun _ => rfl⟩
  | .nil, _, [], _, _ :: _, _ => ⟨nofun, nofun⟩
  | .cons key field rest, pack, slot :: slots, h, j :: js, a => by
    obtain ⟨-, ⟨p, hfield, hpack⟩, hrest⟩ := h
    rw [Fields.items?_cons, hpack, hfield.value, hrest.items js a]
    rfl
  | .cons key field rest, pack, slot :: slots, h, [], a => by
    obtain ⟨-, ⟨p, hfield, hpack⟩, hrest⟩ := h
    rw [Fields.items?_end, hpack, hfield.cutOff, hrest.items [] a]
    rfl

theorem Fields.Take.record {fs : Fields} {pack : α → fs.Values} {slots : List (Slot α)}
    (h : fs.Take pack slots) (hkeys : fs.keys.Nodup) (honto : ∀ vs, ∃ a, pack a = vs) (name : String) :
    (Shape.record name fs).Takes pack (Giving.record slots) where
  onto := honto
  value j a := by
    cases j with
    | object ms =>
      rw [Shape.value?_object name hkeys]
      exact h.gather ms a
    | array js =>
      rw [Shape.value?_array]
      exact h.items js a
    | _ => exact ⟨nofun, nofun⟩

/-! ## 4. Missing keys -/

theorem Field.Takes.under_found {f : Field} {slot : Slot α} {p : slot.β → f.Value} (h : f.Takes slot p)
    {ms : List (String × Json)} {b : slot.β} (hb : slot.Found ms b) :
    ∃ found, underKey slot.key f.value? ms = some found ∧ found.or f.ifMissing? = some (p b) :=
  Option.bind_eq_some_iff.1 ((h.found ms b).2 hb)

theorem Field.Takes.under_lacking {f : Field} {slot : Slot α} {p : slot.β → f.Value} (h : f.Takes slot p)
    {ms : List (String × Json)} (hms : slot.Lacking ms) :
    underKey slot.key f.value? ms = some none ∧ f.ifMissing? = none := by
  refine ⟨underKey_nil hms.1 _, ?_⟩
  cases hmissing : f.ifMissing? with
  | none => rfl
  | some v =>
    obtain ⟨b, rfl⟩ := h.onto v
    have hslot := (h.missing b).1 hmissing
    rw [hms.2] at hslot
    cases hslot

/-- Where each slot finds its part or lacks it, the members are all taken, and the record is refused for the
first key that is lacking. -/
theorem Fields.Take.lacking : {fs : Fields} → {pack : α → fs.Values} → {slots : List (Slot α)} →
    fs.Take pack slots → fs.keys.Nodup → {ms : List (String × Json)} →
    (∀ slot ∈ slots, (∃ b, slot.Found ms b) ∨ slot.Lacking ms) →
    ∃ found, fs.fold ms fs.unfilled = some found ∧
      ∀ before slot after, slots = before ++ slot :: after → (∀ s ∈ before, ∃ b, s.Found ms b) →
        slot.Lacking ms → fs.finish found = .error slot.key
  | .nil, _, [], _, _, ms, _ => by
    refine ⟨(), ?_, fun before slot after h => absurd h.symm (List.append_ne_nil_of_right_ne_nil _ nofun)⟩
    induction ms with
    | nil => rfl
    | cons m ms ih => exact ih nofun
  | .cons key field rest, pack, slot₀ :: slots, h, hkeys, ms, hslots => by
    obtain ⟨rfl, ⟨p, hfield, -⟩, hrest⟩ := h
    obtain ⟨hkey, hkeys⟩ := List.nodup_cons.1 hkeys
    obtain ⟨hfirst, hslots⟩ := List.forall_mem_cons.1 hslots
    obtain ⟨more, hmore, hfinish⟩ := hrest.lacking hkeys hslots
    obtain ⟨found, hfound⟩ : ∃ found, underKey slot₀.key field.value? ms = some found := by
      rcases hfirst with ⟨b, hb⟩ | hlacking
      · obtain ⟨found, hfound, -⟩ := hfield.under_found hb
        exact ⟨found, hfound⟩
      · exact ⟨none, (hfield.under_lacking hlacking).1⟩
    refine ⟨(found, more), ?_, ?_⟩
    · change (Fields.cons slot₀.key field rest).fold ms (none, rest.unfilled) = _
      rw [Fields.fold_cons hkey, foldField_unfilled, hfound, hmore]
      rfl
    · rintro (_ | ⟨first, before⟩) slot after heq hbefore hlacking
      · -- The first slot is the one that lacks its key.
        cases heq
        obtain ⟨hnone, hmissing⟩ := hfield.under_lacking hlacking
        rw [hfound] at hnone
        cases hnone
        rw [Fields.finish, Option.none_or, hmissing]
      · cases heq
        obtain ⟨⟨b, hb⟩, hbefore⟩ := List.forall_mem_cons.1 hbefore
        obtain ⟨found', hfound', hpart⟩ := hfield.under_found hb
        rw [hfound] at hfound'
        cases hfound'
        rw [Fields.finish, hpart]
        change (rest.finish more).map _ = _
        rw [hfinish before slot after rfl hbefore hlacking]
        rfl

/-! ## 5. Requests -/

/-- A shape asks for some keys: it takes a record from what they ask for, an object has a value if they all
find their parts, and if some are only missing it is refused for the first of them. -/
structure Shape.Asks (s : Shape) (pack : α → s.Value) (slots : List (Slot α)) : Prop where
  takes : s.Takes pack (.record slots)
  exists_value : ∀ ms, (∃ v, s.value? (.object ms) = some v) ↔ ∀ slot ∈ slots, ∃ b, slot.Found ms b
  lacking : ∀ room (members : Members) ms, members.mapM (memberDocument room) = .ok ms →
    (∀ slot ∈ slots, (∃ b, slot.Found ms b) ∨ slot.Lacking ms) →
    ∀ before slot after, slots = before ++ slot :: after → (∀ s ∈ before, ∃ b, s.Found ms b) →
      slot.Lacking ms → s.ofTree (room + 1) (.object members) = .error (.mismatch (.missingKey slot.key))

theorem Fields.Take.asks {fs : Fields} {pack : α → fs.Values} {slots : List (Slot α)}
    (h : fs.Take pack slots) (hkeys : fs.keys.Nodup) (honto : ∀ vs, ∃ a, pack a = vs) (name : String) :
    (Shape.record name fs).Asks pack slots where
  takes := h.record hkeys honto name
  exists_value ms := by
    rw [Shape.value?_object name hkeys]
    exact h.exists_gather ms
  lacking room members ms hms hslots before slot after heq hbefore hlacking := by
    obtain ⟨found, hfold, hfinish⟩ := h.lacking hkeys hslots
    -- The members of the tree are put into their fields as those of the document are.
    have hfound : fs.foldTrees room members = .ok found := by
      refine toOption_eq_some.1 (Eq.trans ?_ hfold)
      refine toOption_foldlM_document (fun found m j hm => ?_) hms fs.unfilled
      obtain ⟨hk, hvalue⟩ := memberDocument_inv hm
      rw [hk]
      exact fs.toOption_putTree room j.1 found hvalue
    rw [Shape.ofTree_recordObject, hfound]
    change fs.complete found = _
    rw [Fields.complete, hfinish before slot after heq hbefore hlacking]
    rfl

/-- The shape is that of a record whose fields take what the slots ask for. -/
def Shape.TakenBy : (s : Shape) → (α → s.Value) → List (Slot α) → Prop
  | .record _ fs, pack, slots => fs.Take pack slots
  | _, _, _ => False

theorem Shape.TakenBy.asks {s : Shape} {pack : α → s.Value} {slots : List (Slot α)} (h : s.TakenBy pack slots)
    (hs : s.Distinct) (honto : ∀ v, ∃ a, pack a = v) : s.Asks pack slots := by
  cases s with
  | record name fs => exact Fields.Take.asks h hs.keys_nodup honto name
  | _ => exact h.elim

theorem Wire.asks [Wire α] {slots : List (Slot α)} (h : (shape α).TakenBy pack slots)
    (hs : (shape α).Distinct) : (shape α).Asks pack slots :=
  h.asks hs fun v => ⟨unpack v, pack_unpack v⟩

theorem Fields.Take.cons {slot : Slot α} {slots : List (Slot α)} {field : Field} {rest : Fields}
    {pack : α → (Fields.cons slot.key field rest).Values} {p : slot.β → field.Value}
    (hfield : field.Takes slot p) (hpack : ∀ a, (pack a).1 = p (slot.part a))
    (hrest : rest.Take (fun a => (pack a).2) slots) :
    (Fields.cons slot.key field rest).Take pack (slot :: slots) :=
  ⟨rfl, ⟨p, hfield, hpack⟩, hrest⟩

theorem unset_or_set (b : Option α) : b = b.map id := Option.map_id_apply.symm

theorem each_item (bs : List α) : bs = bs.map id := (List.map_id bs).symm

theorem takenBy_column : (Wire.shape Request.Column).TakenBy Wire.pack columnSlots :=
  .cons (takes_text.required _ _) (fun _ => rfl) <|
  .cons (takes_text.required _ _) (fun _ => rfl) trivial

theorem takenBy_metadata : (Wire.shape Request.MetricMetadata).TakenBy Wire.pack metadataSlots :=
  .cons ((takes_word _).optional _ _) (fun _ => unset_or_set _) <|
  .cons (takes_text.optional _ _) (fun _ => unset_or_set _) <|
  .cons ((takes_integer _).optional _ _) (fun _ => unset_or_set _) <|
  .cons ((takes_integer _).optional _ _) (fun _ => unset_or_set _) <|
  .cons ((takes_integer _).optional _ _) (fun _ => unset_or_set _) trivial

theorem takenBy_source : (Wire.shape Request.Source).TakenBy Wire.pack sourceSlots :=
  .cons (takes_text.required _ _) (fun _ => rfl) <|
  .cons (takes_text.required _ _) (fun _ => rfl) <|
  .cons (takes_text.required _ _) (fun _ => rfl) <|
  .cons (takes_text.required _ _) (fun _ => rfl) <|
  .cons (takes_text.nullable _ _) (fun _ => unset_or_set _) <|
  .cons (takes_text.nullable _ _) (fun _ => unset_or_set _) <|
  .cons ((Wire.asks takenBy_column (by decide)).takes.list.required _ _) (fun _ => rfl) <|
  .cons (takes_text.list.required _ _) (fun _ => each_item _) <|
  .cons ((takes_word _).required _ _) (fun _ => rfl) <|
  .cons (takes_truth.required _ _) (fun _ => rfl) trivial

theorem takenBy_dimension : (Wire.shape Request.Dimension).TakenBy Wire.pack dimensionSlots :=
  .cons (takes_text.required _ _) (fun _ => rfl) <|
  .cons (takes_text.nullable _ _) (fun _ => unset_or_set _) <|
  .cons (takes_text.nullable _ _) (fun _ => unset_or_set _) <|
  .cons ((takes_word _).required _ _) (fun _ => rfl) <|
  .cons (takes_text.list.required _ _) (fun _ => each_item _) <|
  .cons (takes_text.list.required _ _) (fun _ => each_item _) <|
  .cons (takes_text.required _ _) (fun _ => rfl) <|
  .cons (takes_truth.required _ _) (fun _ => rfl) trivial

theorem takenBy_transform : (Wire.shape Request.Transform).TakenBy Wire.pack transformSlots :=
  .cons (takes_text.required _ _) (fun _ => rfl) <|
  .cons (takes_text.nullable _ _) (fun _ => unset_or_set _) <|
  .cons (takes_text.nullable _ _) (fun _ => unset_or_set _) <|
  .cons ((takes_word _).required _ _) (fun _ => rfl) <|
  .cons (takes_text.list.required _ _) (fun _ => each_item _) <|
  .cons (takes_text.list.required _ _) (fun _ => each_item _) <|
  .cons (takes_text.required _ _) (fun _ => rfl) <|
  .cons (takes_document.sparse _ _) (fun _ => unset_or_set _) <|
  .cons (takes_truth.required _ _) (fun _ => rfl) trivial

theorem takenBy_metric : (Wire.shape Request.Metric).TakenBy Wire.pack metricSlots :=
  .cons (takes_text.required _ _) (fun _ => rfl) <|
  .cons (takes_text.nullable _ _) (fun _ => unset_or_set _) <|
  .cons (takes_text.nullable _ _) (fun _ => unset_or_set _) <|
  .cons ((takes_word _).required _ _) (fun _ => rfl) <|
  .cons (takes_text.required _ _) (fun _ => rfl) <|
  .cons (takes_truth.required _ _) (fun _ => rfl) <|
  .cons (takes_text.listing _ _) (fun _ => each_item _) <|
  .cons ((Wire.asks takenBy_metadata (by decide)).takes.sparse _ _) (fun _ => rfl) <|
  .cons (takes_text.listing _ _) (fun _ => each_item _) trivial

theorem takenBy_cube : (Wire.shape Request.Cube).TakenBy Wire.pack cubeSlots :=
  .cons (takes_text.required _ _) (fun _ => rfl) <|
  .cons (takes_text.nullable _ _) (fun _ => unset_or_set _) <|
  .cons (takes_text.nullable _ _) (fun _ => unset_or_set _) <|
  .cons ((takes_word _).required _ _) (fun _ => rfl) <|
  .cons (takes_text.list.required _ _) (fun _ => each_item _) <|
  .cons (takes_text.list.required _ _) (fun _ => each_item _) <|
  .cons (takes_text.list.required _ _) (fun _ => each_item _) <|
  .cons (takes_text.list.required _ _) (fun _ => each_item _) <|
  .cons (takes_truth.required _ _) (fun _ => rfl) trivial

theorem RecordType.takenBy (T : RecordType) (h : T.isResponse = false) :
    (Wire.shape T.Value).TakenBy Wire.pack T.slots := by
  cases T with
  | requestCatalog => exact .cons (takes_text.required _ _) (fun _ => rfl) trivial
  | requestEngine =>
    exact .cons (takes_text.required _ _) (fun _ => rfl) <|
      .cons (takes_text.required _ _) (fun _ => rfl) trivial
  | requestColumn => exact takenBy_column
  | requestSource => exact takenBy_source
  | requestDimension => exact takenBy_dimension
  | requestTransform => exact takenBy_transform
  | requestMetric => exact takenBy_metric
  | requestMetricMetadata => exact takenBy_metadata
  | requestCube => exact takenBy_cube
  | _ => cases h

/-- An object is decoded as a request exactly if each key of the request is there at most once and finds its
part, and these parts are then those of the request. Other members are not looked at. Where keys are only
missing, the first of those that have to be there is named. -/
theorem decode_request (T : RecordType) (hT : T.isResponse = false) {text : String}
    {ms : List (String × Json)} (h : parse text = .ok (.object ms)) :
    ((∃ v, decode T.Value text = .ok v) ↔ ∀ slot ∈ T.slots, ∃ b, slot.Found ms b) ∧
    (∀ v, decode T.Value text = .ok v ↔ ∀ slot ∈ T.slots, slot.Found ms (slot.part v)) ∧
    ((∀ slot ∈ T.slots, (∃ b, slot.Found ms b) ∨ slot.Lacking ms) →
      ∀ before slot after, T.slots = before ++ slot :: after → (∀ s ∈ before, ∃ b, s.Found ms b) →
        slot.Lacking ms → ∃ refusal, decode T.Value text = .error (.json refusal) ∧
          refusal.fault = .mismatch (.missingKey slot.key) ∧ refusal.fault.category = .mismatch) := by
  have hasks := Wire.asks (T.takenBy hT) T.distinct
  have hdecode : ∀ v, decode T.Value text = .ok v ↔ ∀ slot ∈ T.slots, slot.Found ms (slot.part v) :=
    fun v => (decode_eq_ok h).trans (hasks.takes.value (.object ms) v)
  refine ⟨?_, hdecode, fun hslots before slot after heq hbefore hlacking => ?_⟩
  · rw [← hasks.exists_value]
    constructor
    · rintro ⟨v, hv⟩
      exact ⟨_, (decode_eq_ok h).1 hv⟩
    · rintro ⟨v, hv⟩
      exact ⟨Wire.unpack v, (decode_eq_ok h).2 (by rw [hv, Wire.pack_unpack])⟩
  · -- The text spells an object whose members denote those of the document.
    obtain ⟨t, hspells, hdocument⟩ := parse_eq_ok.1 h
    obtain ⟨-, -, hnoObject⟩ | ⟨ts, less, js, -, -, -, hdoc⟩ | ⟨members, less, js, rfl, hroom, hms, hdoc⟩ :=
      document_inv hdocument
    · exact absurd rfl hnoObject
    · cases hdoc
    · cases hdoc
      have hrefused := hasks.lacking less members ms hms hslots before slot after heq hbefore hlacking
      rw [← hroom] at hrefused
      obtain ⟨refusal, hdecoded, hfault⟩ := (decodeBytes_refusedFor (α := T.Value) hspells).2 hrefused
      exact ⟨refusal, hdecoded, hfault, by rw [hfault]; rfl⟩

/-- The mode is an object and the metadata an array, both in the place of what is usual there, and one member
is unknown. Of two keys that are missing the first one is named, and a key that is repeated is refused. -/
theorem decode_request_metric :
    let text := "\x7b\"x\":[7],\"query\":\"q\",\"mode\":\x7b\"draft\":null\x7d,\"name\":\"m\"," ++
      "\"metric_metadata\":[null,\"percent\"],\"tags\":[\"b\",\"a\",\"b\"],\"update_if_exists\":true\x7d"
    let given : List (String × Json) :=
      [("x", .array [.number (.int ⟨7, by decide, by decide⟩)]), ("query", .string "q"),
        ("mode", .object [("draft", .null)]), ("name", .string "m"),
        ("metric_metadata", .array [.null, .string "percent"]),
        ("tags", .array [.string "b", .string "a", .string "b"]), ("update_if_exists", .boolean true)]
    let metric : Request.Metric :=
      { name := "m", mode := .draft, query := "q", updateIfExists := true,
        metadata := some { unit := some "percent" }, tags := ["b", "a", "b"] }
    decode Request.Metric text = .ok metric ∧ (∀ slot ∈ metricSlots, slot.Found given (slot.part metric)) ∧
    (∃ refusal, decode Request.Engine "\x7b\"x\":null\x7d" = .error (.json refusal) ∧
      refusal.fault = .mismatch (.missingKey "name")) ∧
    ∀ c, decode Request.Catalog "\x7b\"name\":\"a\",\"name\":\"a\"\x7d" ≠ .ok c := by
  intro text given metric
  have htext : parse text = .ok (.object given) :=
    parse_of_eq_compact (by decide +kernel) (by repeat' constructor) (by decide)
  have hmetric : decode Request.Metric text = .ok metric := (decode_eq_ok htext).2 rfl
  refine ⟨hmetric, ?_, ?_, fun c hc => ?_⟩
  · obtain ⟨-, hdecode, -⟩ := decode_request .requestMetric rfl htext
    exact (hdecode metric).1 hmetric
  · have hnull : parse "\x7b\"x\":null\x7d" = .ok (.object [("x", .null)]) :=
      parse_of_eq_compact (by decide +kernel) (by repeat' constructor) (by decide)
    obtain ⟨-, -, hlacking⟩ := decode_request .requestEngine rfl hnull
    have hslots : ∀ slot ∈ engineSlots, slot.Lacking [("x", .null)] := by
      intro slot hslot
      rcases List.mem_cons.1 hslot with rfl | hslot
      · exact ⟨rfl, rfl⟩
      · rw [List.mem_singleton.1 hslot]
        exact ⟨rfl, rfl⟩
    obtain ⟨refusal, hrefusal, hfault, -⟩ :=
      hlacking (fun slot hslot => .inr (hslots slot hslot)) [] _ _ rfl nofun ⟨rfl, rfl⟩
    exact ⟨refusal, hrefusal, hfault⟩
  · have htwice : parse "\x7b\"name\":\"a\",\"name\":\"a\"\x7d" =
        .ok (.object [("name", .string "a"), ("name", .string "a")]) :=
      parse_of_eq_compact (by decide +kernel) (by repeat' constructor) (by decide)
    obtain ⟨-, hdecode, -⟩ := decode_request .requestCatalog rfl htwice
    obtain ⟨hnone, -⟩ | ⟨j, hone, -⟩ := (hdecode c).1 hc _ List.mem_cons_self
    · cases hnone
    · cases hone

end MetricCatalog
