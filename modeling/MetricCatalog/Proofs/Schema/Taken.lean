import MetricCatalog.Proofs.Schema.Found

/-!
# Taken trees — what depends on one record

Where a tree is taken with one of its records changed, the changed record is taken, and nothing but the
unchanged record can keep the tree from being taken without the change. A record is also taken without a
member whose key may be missing.
-/

namespace MetricCatalog

open Json Json.Scan Json.Tree Shape

/-! ## 1. The place of a tree -/

/-- The value of a field that is given as a value of its shape. -/
def Field.given : (f : Field) → f.inner.Value → f.Value
  | .required _, a => a
  | .nullable _, a => some a
  | .optional _, a => some a
  | .sparse _, a => some a
  | .flag, b => b
  | .listing _, xs => xs

/-- What is not null is taken by a field as the shape of the field takes it. -/
theorem Field.ofTree_of_ne_null {f : Field} {t : Tree} (ht : t ≠ .null) (room : Nat) :
    f.ofTree room t = (f.inner.ofTree room t).map f.given := by
  have horNull : ∀ {α : Type} (value : Tree → Except Fault α),
      orNullOfTree value t = (value t).map some := by
    intro α value
    rw [orNullOfTree_of_ne_null ht]
    cases value t <;> rfl
  have hself : ∀ {α : Type} (x : Except Fault α), x = x.map id := by
    intro α x
    cases x <;> rfl
  cases f with
  | required shape => exact hself _
  | listing item => exact hself _
  | flag =>
    change (orNullOfTree (fun t => t.head >>= headTruth) t).map (fun found => found.getD false) =
      (t.head >>= headTruth).map id
    rw [horNull]
    cases t.head >>= headTruth <;> rfl
  | nullable shape => exact horNull _
  | optional shape => exact horNull _
  | sparse shape => exact horNull _

/-- A field takes a value that is not null only if the shape of the field does. -/
theorem Field.exists_inner {f : Field} {room : Nat} {t : Tree} (ht : t ≠ .null) {v : f.Value}
    (h : f.ofTree room t = .ok v) : ∃ a, f.inner.ofTree room t = .ok a ∧ f.given a = v := by
  rw [Field.ofTree_of_ne_null ht] at h
  exact ok_of_map h

theorem Field.exists_of_inner {f : Field} {room : Nat} {t : Tree} {a : f.inner.Value}
    (h : f.inner.ofTree room t = .ok a) : ∃ v, f.ofTree room t = .ok v := by
  by_cases ht : t = .null
  · subst ht
    cases f with
    | required shape => exact ⟨a, h⟩
    | listing item => exact ⟨a, h⟩
    | _ => exact ⟨_, rfl⟩
  · rw [Field.ofTree_of_ne_null ht, h]
    exact ⟨_, rfl⟩

/-- An item of an array is taken by its field, and whatever this field takes may stand in its place. -/
theorem Fields.exists_of_ofTrees {name : String} {size room : Nat} {t' : Tree} {after : List Tree} :
    {fs : Fields} → {before : List Tree} → {field : Field} → {index : Nat} → {vs' : fs.Values} →
    fs.fieldAt? before.length = some field →
    fs.ofTrees name size room (before ++ t' :: after) index = .ok vs' →
    (∃ v', field.ofTree room t' = .ok v') ∧
      ∀ t v, field.ofTree room t = .ok v →
        ∃ vs, fs.ofTrees name size room (before ++ t :: after) index = .ok vs
  | .nil, _, _, _, _, h, _ => nomatch h
  | .cons _ field rest, [], _, index, _, h, hvs => by
    cases h
    obtain ⟨v', hv', hmore⟩ := ok_of_bind hvs
    obtain ⟨more, hrest, -⟩ := ok_of_bind hmore
    refine ⟨⟨v', hv'⟩, fun t v hv => ⟨(v, more), ?_⟩⟩
    rw [List.nil_append, ofTrees, hv]
    exact congrArg (· >>= fun more => Except.ok (v, more)) hrest
  | .cons _ field rest, u :: before, _, index, _, h, hvs => by
    obtain ⟨v, hv, hmore⟩ := ok_of_bind hvs
    obtain ⟨_, hrest, -⟩ := ok_of_bind hmore
    obtain ⟨hitem, hplace⟩ := Fields.exists_of_ofTrees (show rest.fieldAt? before.length = _ from h) hrest
    refine ⟨hitem, fun t w hw => ?_⟩
    obtain ⟨more, hmore⟩ := hplace t w hw
    refine ⟨(v, more), ?_⟩
    rw [List.cons_append, ofTrees, hv]
    exact congrArg (· >>= fun more => Except.ok (v, more)) hmore

/-! ## 2. Enough for a record -/

namespace Fields

/-- `found` has nothing that `found'` lacks, and it lacks nothing more that has to be there. -/
def Suffices : (fs : Fields) → (found found' : fs.Filling) → Prop
  | .nil, _, _ => True
  | .cons _ field rest, (found, more), (found', more') =>
    (found' = none → found = none) ∧ (found = none → found' = none ∨ ∃ v, field.ifMissing? = some v) ∧
      rest.Suffices more more'

theorem suffices_refl : (fs : Fields) → (found : fs.Filling) → fs.Suffices found found
  | .nil, _ => trivial
  | .cons _ _ rest, (_, more) => ⟨id, .inl, rest.suffices_refl more⟩

/-- A member is taken along if its value can be taken. -/
theorem suffices_putTree {room : Nat} {k : String} {t t' : Tree} : {fs : Fields} →
    {found found' later' : fs.Filling} → fs.Suffices found found' →
    (∀ field, fs.field? k = some field → ∀ v', field.ofTree room t' = .ok v' →
      ∃ v, field.ofTree room t = .ok v) →
    fs.putTree room k t' found' = .ok later' →
    ∃ later, fs.putTree room k t found = .ok later ∧ fs.Suffices later later'
  | .nil, _, _, _, _, _, _ => ⟨(), rfl, trivial⟩
  | .cons key field rest, (found, more), (found', more'), later', ⟨hnone, hmissing, hmore⟩, hvalue, hput => by
    by_cases hk : k = key
    · subst hk
      rw [putTree_self] at hput ⊢
      obtain ⟨taken', htake', rfl⟩ := ok_of_map hput
      cases takeUnder_eq_ok htake'
      obtain ⟨v', hv', hlast⟩ := ok_of_bind htake'
      cases hlast
      obtain ⟨v, hv⟩ := hvalue field (if_pos rfl) v' hv'
      refine ⟨(some v, more), ?_, nofun, nofun, hmore⟩
      rw [hnone rfl, hv]
      rfl
    · rw [putTree_other hk] at hput ⊢
      obtain ⟨_, hput', rfl⟩ := ok_of_map hput
      have hrest : ∀ field, rest.field? k = some field → ∀ v', field.ofTree room t' = .ok v' →
          ∃ v, field.ofTree room t = .ok v := fun field hfield => hvalue field ((if_neg hk).trans hfield)
      obtain ⟨later, hlater, hsuffices⟩ := suffices_putTree hmore hrest hput'
      refine ⟨(found, later), ?_, hnone, hmissing, hsuffices⟩
      rw [hlater]
      rfl

/-- A member can be spared if its key may be missing. -/
theorem suffices_of_putTree {room : Nat} {key : String} {x : Tree} : {fs : Fields} → {field : Field} →
    {missing : field.Value} → {found found' later' : fs.Filling} → fs.Suffices found found' →
    fs.field? key = some field → field.ifMissing? = some missing → fs.putTree room key x found' = .ok later' →
    fs.Suffices found later'
  | .nil, _, _, _, _, _, _, _, _, _ => trivial
  | .cons k field' rest, field, missing, (found, more), (found', more'), later', ⟨hnone, hmissing, hmore⟩,
    hfield, hspare, hput => by
    rw [field?] at hfield
    by_cases hk : key = k
    · rw [if_pos hk] at hfield
      cases hfield
      subst hk
      rw [putTree_self] at hput
      obtain ⟨taken, htake, rfl⟩ := ok_of_map hput
      cases hnone (takeUnder_eq_ok htake)
      exact ⟨fun _ => rfl, fun _ => .inr ⟨missing, hspare⟩, hmore⟩
    · rw [if_neg hk] at hfield
      rw [putTree_other hk] at hput
      obtain ⟨_, hput', rfl⟩ := ok_of_map hput
      exact ⟨hnone, hmissing, suffices_of_putTree hmore hfield hspare hput'⟩

theorem exists_finish : {fs : Fields} → {found found' : fs.Filling} → {vs' : fs.Values} →
    fs.Suffices found found' → fs.finish found' = .ok vs' → ∃ vs, fs.finish found = .ok vs
  | .nil, _, _, _, _, _ => ⟨(), rfl⟩
  | .cons key field rest, (found, more), (found', more'), vs', ⟨_, hmissing, hmore⟩, h => by
    rw [finish] at h
    cases hv' : found'.or field.ifMissing? with
    | none =>
      rw [hv'] at h
      cases h
    | some v' =>
      rw [hv'] at h
      obtain ⟨_, hfinish, -⟩ := ok_of_map h
      obtain ⟨more, hmore'⟩ := exists_finish hmore hfinish
      have hvalue : ∃ v, found.or field.ifMissing? = some v := by
        cases found with
        | some v => exact ⟨v, rfl⟩
        | none =>
          obtain rfl | hspare := hmissing rfl
          · exact ⟨v', hv'⟩
          · exact hspare
      obtain ⟨v, hv⟩ := hvalue
      refine ⟨(v, more), ?_⟩
      rw [finish, hv, hmore']
      rfl

/-! ## 3. Members of a record -/

section

variable {fs : Fields} {name key : String} {field : Field} {room : Nat} {before after : Members}
  {k : List Literal.Piece} {vs' : fs.Values}

theorem exists_recordObject {ms ms' : Members}
    (h : ∀ found', fs.foldTrees room ms' = .ok found' →
      ∃ found, fs.foldTrees room ms = .ok found ∧ fs.Suffices found found')
    (hvs : (Shape.record name fs).ofTree (room + 1) (.object ms') = .ok vs') :
    ∃ vs, (Shape.record name fs).ofTree (room + 1) (.object ms) = .ok vs := by
  obtain ⟨found', hfold', hfinish'⟩ := recordObject_inv hvs
  obtain ⟨found, hfold, hsuffices⟩ := h found' hfold'
  obtain ⟨vs, hfinish⟩ := exists_finish hsuffices hfinish'
  refine ⟨vs, ?_⟩
  rw [Shape.ofTree_recordObject, hfold]
  change fs.complete found = .ok vs
  rw [complete, hfinish]

/-- The members behind are taken from wherever enough has been found. -/
theorem suffices_members {ms : Members} {found found' later' : fs.Filling} (h : fs.Suffices found found')
    (hfold : ms.foldlM (fun found m => do fs.putTree room (← Literal.text m.1) m.2 found) found' =
      .ok later') :
    ∃ later, ms.foldlM (fun found m => do fs.putTree room (← Literal.text m.1) m.2 found) found =
      .ok later ∧ fs.Suffices later later' := by
  refine foldlM_forall₂ (R := fun found' found => fs.Suffices found found') (List.forall₂_same.2 ?_) h hfold
  intro m _ found' found later' hsuffices hstep
  obtain ⟨k, hk, hput⟩ := ok_of_bind hstep
  rw [hk]
  exact suffices_putTree hsuffices (fun _ _ v hv => ⟨v, hv⟩) hput

/-- A member is taken by its field, and whatever this field takes may stand in its place. -/
theorem exists_replaced {t' : Tree} (hk : Literal.text k = .ok key) (hfield : fs.field? key = some field)
    (hvs : (Shape.record name fs).ofTree (room + 1) (.object (before ++ (k, t') :: after)) = .ok vs') :
    (∃ v', field.ofTree room t' = .ok v') ∧
      ∀ t v, field.ofTree room t = .ok v →
        ∃ vs, (Shape.record name fs).ofTree (room + 1) (.object (before ++ (k, t) :: after)) = .ok vs := by
  constructor
  · obtain ⟨found, hfold, -⟩ := recordObject_inv hvs
    exact exists_of_foldTrees hfold (List.mem_append_right _ List.mem_cons_self) hk hfield
  · intro t v hv
    refine exists_recordObject (fun found' hfold => ?_) hvs
    rw [foldTrees, List.foldlM_append] at hfold ⊢
    obtain ⟨found, hbefore, hmore⟩ := ok_of_bind hfold
    obtain ⟨later', hstep, hafter⟩ := ok_of_bind hmore
    obtain ⟨k', hk', hput'⟩ := ok_of_bind hstep
    obtain rfl := Except.ok.inj (hk.symm.trans hk')
    have hvalue : ∀ field', fs.field? key = some field' → ∀ v', field'.ofTree room t' = .ok v' →
        ∃ v, field'.ofTree room t = .ok v := by
      intro field' hfield' _ _
      cases hfield.symm.trans hfield'
      exact ⟨v, hv⟩
    obtain ⟨later, hput, hsuffices⟩ := suffices_putTree (fs.suffices_refl found) hvalue hput'
    obtain ⟨final, hfinal, hfound⟩ := suffices_members hsuffices hafter
    refine ⟨final, ?_, hfound⟩
    rw [hbefore]
    change (Literal.text k >>= fun k => fs.putTree room k t found) >>= _ = .ok final
    rw [hk]
    exact (congrArg (· >>= _) hput).trans hfinal

/-- A record is taken without a member whose key may be missing. -/
theorem exists_spared {x : Tree} {missing : field.Value} (hk : Literal.text k = .ok key)
    (hfield : fs.field? key = some field) (hmissing : field.ifMissing? = some missing)
    (hvs : (Shape.record name fs).ofTree room (.object (before ++ (k, x) :: after)) = .ok vs') :
    ∃ vs, (Shape.record name fs).ofTree room (.object (before ++ after)) = .ok vs := by
  cases room with
  | zero => cases hvs
  | succ room =>
    refine exists_recordObject (fun found' hfold => ?_) hvs
    rw [foldTrees, List.foldlM_append] at hfold ⊢
    obtain ⟨found, hbefore, hmore⟩ := ok_of_bind hfold
    obtain ⟨later', hstep, hafter⟩ := ok_of_bind hmore
    obtain ⟨k', hk', hput'⟩ := ok_of_bind hstep
    obtain rfl := Except.ok.inj (hk.symm.trans hk')
    have hsuffices : fs.Suffices found later' :=
      suffices_of_putTree (fs.suffices_refl found) hfield hmissing hput'
    rw [hbefore]
    exact suffices_members hsuffices hafter

end

end Fields

/-! ## 4. The record in its tree -/

/-- One of the records is taken with some change, and as soon as it is taken without it, `C` holds. -/
def RecordTaken (change : List String → Members → Members → Prop) (records : List Fields) (C : Prop) : Prop :=
  ∃ fs ∈ records, ∃ ms ms', change fs.keys ms ms' ∧
    ∃ name room vs', (Shape.record name fs).ofTree room (.object ms') = .ok vs' ∧
      ∀ vs, (Shape.record name fs).ofTree room (.object ms) = .ok vs → C

section

variable {change : List String → Members → Members → Prop}

theorem RecordTaken.imp {records records' : List Fields} {C C' : Prop} (h : RecordTaken change records C)
    (hrecords : ∀ fs ∈ records, fs ∈ records') (hC : C → C') : RecordTaken change records' C' := by
  obtain ⟨fs, hfs, ms, ms', hchange, name, room, vs', hvs', hconclusion⟩ := h
  exact ⟨fs, hrecords fs hfs, ms, ms', hchange, name, room, vs', hvs', fun vs hvs => hC (hconclusion vs hvs)⟩

/-- Whether a tree is taken depends on the record that is changed in it. -/
theorem Shape.AtRecord.recordTaken {s : Shape} {t t' : Tree} (h : s.AtRecord change t t') :
    ∀ room v', s.ofTree room t' = .ok v' → RecordTaken change s.records (∃ v, s.ofTree room t = .ok v) := by
  -- By induction on where the record stands. Around it everything stays as it is.
  induction h with
  | @record name fields ms ms' h =>
    intro room vs' hvs
    exact ⟨fields, List.mem_cons_self, ms, ms', h, name, room, vs', hvs, fun vs hvs => ⟨vs, hvs⟩⟩
  | @wrapped key item ms ms' h =>
    intro room v' hv
    rw [Shape.ofTree_wrappedObject key] at hv ⊢
    obtain ⟨values, hvalues, -⟩ := ok_of_map hv
    refine ⟨.wrapping key item, List.mem_cons_self, ms, ms', h, key, room, values, hvalues, fun vs hvs => ?_⟩
    rw [hvs]
    exact ⟨vs.1, rfl⟩
  | item h ih =>
    intro room vs' hvs
    cases room with
    | zero => cases hvs
    | succ room =>
      obtain ⟨⟨v', hv'⟩, hplace⟩ := exists_of_mapM_append_cons hvs
      exact (ih room v' hv').imp (fun _ => id) fun ⟨v, hv⟩ => hplace _ v hv
  | wrappedItem h ih =>
    intro room vs' hvs
    cases room with
    | zero => cases hvs
    | succ room =>
      obtain ⟨items, hitems, -⟩ := ok_of_bind hvs
      obtain ⟨⟨v', hv'⟩, hplace⟩ := exists_of_mapM_append_cons hitems
      refine (ih room v' hv').imp (fun _ hfs => List.mem_cons_of_mem _ hfs) fun ⟨v, hv⟩ => ?_
      obtain ⟨items, hitems⟩ := hplace _ v hv
      exact ⟨some items, congrArg (· >>= fun vs => Except.ok (some vs)) hitems⟩
  | value hk hfield h ih =>
    intro room vs' hvs
    cases room with
    | zero => cases hvs
    | succ room =>
      obtain ⟨⟨v', hv'⟩, hplace⟩ := Fields.exists_replaced hk hfield hvs
      obtain ⟨a', ha', -⟩ := Field.exists_inner h.ne_null.2 hv'
      refine (ih room a' ha').imp (fun fs hfs => List.mem_cons_of_mem _ (Fields.records_field? hfield fs hfs))
        fun ⟨a, ha⟩ => ?_
      obtain ⟨v, hv⟩ := Field.exists_of_inner ha
      exact hplace _ v hv
  | @wrappedValue key item before after k t t' hk h ih =>
    intro room v' hv
    rw [Shape.ofTree_wrappedObject key] at hv ⊢
    obtain ⟨values, hvalues, -⟩ := ok_of_map hv
    cases room with
    | zero => cases hvalues
    | succ room =>
      have hfield : (Fields.wrapping key item).field? key = some (.optional (.list item)) := if_pos rfl
      obtain ⟨⟨w', hw'⟩, hplace⟩ := Fields.exists_replaced hk hfield hvalues
      obtain ⟨a', ha', -⟩ := Field.exists_inner h.ne_null.2 hw'
      refine (ih room a' ha').imp (fun _ hfs => List.mem_cons_of_mem _ hfs) fun ⟨a, ha⟩ => ?_
      obtain ⟨w, hw⟩ := Field.exists_of_inner (f := .optional (.list item)) ha
      obtain ⟨vs, hvs⟩ := hplace _ w hw
      rw [hvs]
      exact ⟨vs.1, rfl⟩
  | position hfield h ih =>
    intro room vs' hvs
    cases room with
    | zero => cases hvs
    | succ room =>
      obtain ⟨⟨v', hv'⟩, hplace⟩ := Fields.exists_of_ofTrees hfield hvs
      obtain ⟨a', ha', -⟩ := Field.exists_inner h.ne_null.2 hv'
      refine (ih room a' ha').imp
        (fun fs hfs => List.mem_cons_of_mem _ (Fields.records_fieldAt? hfield fs hfs)) fun ⟨a, ha⟩ => ?_
      obtain ⟨v, hv⟩ := Field.exists_of_inner ha
      exact hplace _ v hv

variable {s : Shape} {t t' : Tree}

/-- If the changed record is refused, so is the whole tree. -/
theorem Shape.AtRecord.ofTree_ne_ok (h : s.AtRecord change t t')
    (hrefused : ∀ fs ∈ s.records, ∀ ms ms', change fs.keys ms ms' →
      ∀ name room vs, (Shape.record name fs).ofTree room (.object ms') ≠ .ok vs) :
    ∀ room v, s.ofTree room t' ≠ .ok v := by
  intro room v hv
  obtain ⟨fs, hfs, ms, ms', hchange, name, room', vs, hvs, -⟩ := h.recordTaken room v hv
  exact hrefused fs hfs ms ms' hchange name room' vs hvs

/-- If every record is taken without the change, so is the whole tree. -/
theorem Shape.AtRecord.exists_ofTree (h : s.AtRecord change t t')
    (htaken : ∀ fs ∈ s.records, ∀ ms ms', change fs.keys ms ms' →
      ∀ name room vs', (Shape.record name fs).ofTree room (.object ms') = .ok vs' →
        ∃ vs, (Shape.record name fs).ofTree room (.object ms) = .ok vs)
    {room : Nat} {v' : s.Value} (hv : s.ofTree room t' = .ok v') : ∃ v, s.ofTree room t = .ok v := by
  obtain ⟨fs, hfs, ms, ms', hchange, name, room', vs', hvs', hwhole⟩ := h.recordTaken room v' hv
  obtain ⟨vs, hvs⟩ := htaken fs hfs ms ms' hchange name room' vs' hvs'
  exact hwhole vs hvs

end

end MetricCatalog
