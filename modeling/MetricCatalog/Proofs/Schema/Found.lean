import MetricCatalog.Proofs.Schema.Insertion
import MetricCatalog.Schema.Assign

/-!
# Found values — what a record has under its keys

A record goes once through the members of its object. Under each key it finds what the one member with this
key gives, and nothing where no member has the key. In the end this is the value of the field, or the value
of a missing key.
-/

namespace MetricCatalog

open Json Json.Scan Json.Tree Shape

variable {α : Type}

/-! ## 1. Under one key -/

namespace Fields

/-- What has been found under a key, if some field has it, is as `Q` says. -/
def FoundUnder (key : String) (Q : (f : Field) → Option f.Value → Prop) : (fs : Fields) → fs.Filling → Prop
  | .nil, _ => True
  | .cons k field rest, (found, more) => if key = k then Q field found else rest.FoundUnder key Q more

/-- The value of the field under a key, if there is one, is as `Q` says. -/
def ValueUnder (key : String) (Q : (f : Field) → f.Value → Prop) : (fs : Fields) → fs.Values → Prop
  | .nil, _ => True
  | .cons k field rest, (v, more) => if key = k then Q field v else rest.ValueUnder key Q more

/-- Nothing has been found under a key. -/
def Lacks (key : String) (fs : Fields) (found : fs.Filling) : Prop :=
  fs.FoundUnder key (fun _ found => found = none) found

section

variable {key k : String} {field : Field} {rest : Fields}

theorem foundUnder_self {Q : (f : Field) → Option f.Value → Prop} {found : Option field.Value}
    {more : rest.Filling} : (Fields.cons key field rest).FoundUnder key Q (found, more) ↔ Q field found :=
  Eq.to_iff (if_pos rfl)

theorem foundUnder_other {Q : (f : Field) → Option f.Value → Prop} (hk : key ≠ k)
    {found : Option field.Value} {more : rest.Filling} :
    (Fields.cons k field rest).FoundUnder key Q (found, more) ↔ rest.FoundUnder key Q more :=
  Eq.to_iff (if_neg hk)

theorem valueUnder_self {Q : (f : Field) → f.Value → Prop} {v : field.Value} {more : rest.Values} :
    (Fields.cons key field rest).ValueUnder key Q (v, more) ↔ Q field v :=
  Eq.to_iff (if_pos rfl)

theorem valueUnder_other {Q : (f : Field) → f.Value → Prop} (hk : key ≠ k) {v : field.Value}
    {more : rest.Values} :
    (Fields.cons k field rest).ValueUnder key Q (v, more) ↔ rest.ValueUnder key Q more :=
  Eq.to_iff (if_neg hk)

end

section

variable {key k : String} {Q Q' : (f : Field) → Option f.Value → Prop}

theorem ValueUnder.imp {R R' : (f : Field) → f.Value → Prop} (h : ∀ f v, R f v → R' f v) : {fs : Fields} →
    {vs : fs.Values} → fs.ValueUnder key R vs → fs.ValueUnder key R' vs
  | .nil, _, _ => trivial
  | .cons k field rest, (v, more), hvalue => by
    by_cases hk : key = k
    · subst hk
      exact valueUnder_self.2 (h field v (valueUnder_self.1 hvalue))
    · exact (valueUnder_other hk).2 (((valueUnder_other hk).1 hvalue).imp h)

theorem foundUnder_of_forall (h : ∀ f found, Q f found) : {fs : Fields} → (found : fs.Filling) →
    fs.FoundUnder key Q found
  | .nil, _ => trivial
  | .cons k field rest, (found, more) => by
    by_cases hk : key = k
    · subst hk
      exact foundUnder_self.2 (h field found)
    · exact (foundUnder_other hk).2 (foundUnder_of_forall h more)

theorem foundUnder_unfilled (h : ∀ f, Q f none) : (fs : Fields) → fs.FoundUnder key Q fs.unfilled
  | .nil => trivial
  | .cons k field rest => by
    by_cases hk : key = k
    · subst hk
      exact foundUnder_self.2 (h field)
    · exact (foundUnder_other hk).2 (rest.foundUnder_unfilled h)

theorem FoundUnder.field? : {fs : Fields} → {found : fs.Filling} → fs.FoundUnder key Q found →
    {field : Field} → fs.field? key = some field → ∃ found, Q field found
  | .nil, _, _, _, h => nomatch h
  | .cons k field rest, (found, more), hfound, field', h => by
    rw [Fields.field?] at h
    by_cases hk : key = k
    · subst hk
      rw [if_pos rfl] at h
      cases h
      exact ⟨found, foundUnder_self.1 hfound⟩
    · rw [if_neg hk] at h
      exact ((foundUnder_other hk).1 hfound).field? h

/-- A member under another key leaves what has been found as it is. -/
theorem foundUnder_putTree_other (hk : k ≠ key) {room : Nat} {t : Tree} : {fs : Fields} →
    {found found' : fs.Filling} → fs.FoundUnder key Q found → fs.putTree room k t found = .ok found' →
    fs.FoundUnder key Q found'
  | .nil, _, _, _, _ => trivial
  | .cons k' field rest, (found, more), found', hfound, h => by
    by_cases hk' : k = k'
    · subst hk'
      rw [putTree_self] at h
      obtain ⟨taken, -, rfl⟩ := ok_of_map h
      exact (foundUnder_other hk.symm).2 ((foundUnder_other hk.symm).1 hfound)
    · rw [putTree_other hk'] at h
      obtain ⟨more', hmore, rfl⟩ := ok_of_map h
      by_cases hkey : key = k'
      · subst hkey
        exact foundUnder_self.2 (foundUnder_self.1 hfound)
      · exact (foundUnder_other hkey).2 (foundUnder_putTree_other hk ((foundUnder_other hkey).1 hfound) hmore)

/-- A member is only taken where nothing has been found under its key before. -/
theorem foundUnder_putTree_self {room : Nat} {t : Tree}
    (hQ : ∀ f v, Q f none → f.ofTree room t = .ok v → Q' f (some v)) : {fs : Fields} →
    {found found' : fs.Filling} → fs.FoundUnder key Q found → fs.putTree room key t found = .ok found' →
    fs.FoundUnder key Q' found'
  | .nil, _, _, _, _ => trivial
  | .cons k field rest, (found, more), found', hfound, h => by
    by_cases hk : key = k
    · subst hk
      rw [putTree_self] at h
      obtain ⟨taken, htake, rfl⟩ := ok_of_map h
      cases takeUnder_eq_ok htake
      obtain ⟨v, hv, hlast⟩ := ok_of_bind htake
      cases hlast
      exact foundUnder_self.2 (hQ field v (foundUnder_self.1 hfound) hv)
    · rw [putTree_other hk] at h
      obtain ⟨more', hmore, rfl⟩ := ok_of_map h
      exact (foundUnder_other hk).2 (foundUnder_putTree_self hQ ((foundUnder_other hk).1 hfound) hmore)

/-- In the end a field has what has been found, or the value of a missing key. -/
theorem valueUnder_finish {R : (f : Field) → f.Value → Prop}
    (hR : ∀ f found v, Q f found → found.or f.ifMissing? = some v → R f v) : {fs : Fields} →
    {found : fs.Filling} → {vs : fs.Values} → fs.FoundUnder key Q found → fs.finish found = .ok vs →
    fs.ValueUnder key R vs
  | .nil, _, _, _, _ => trivial
  | .cons k field rest, (found, more), vs, hfound, h => by
    rw [Fields.finish] at h
    cases hv : found.or field.ifMissing? with
    | none =>
      rw [hv] at h
      cases h
    | some v =>
      rw [hv] at h
      obtain ⟨more', hmore, rfl⟩ := ok_of_map h
      by_cases hk : key = k
      · subst hk
        exact valueUnder_self.2 (hR field found v (foundUnder_self.1 hfound) hv)
      · exact (valueUnder_other hk).2 (valueUnder_finish hR ((foundUnder_other hk).1 hfound) hmore)

end

/-! ## 2. The members of an object -/

section

variable {fs : Fields} {room : Nat} {ms : Members} {found : fs.Filling} {key : String}

/-- Under a key that no member has nothing is found. -/
theorem lacks_foldTrees (hnone : ∀ m ∈ ms, Literal.text m.1 ≠ .ok key)
    (h : fs.foldTrees room ms = .ok found) : fs.Lacks key found := by
  have hunfilled : fs.Lacks key fs.unfilled :=
    fs.foundUnder_unfilled (Q := fun _ found => found = none) fun _ => rfl
  refine foldlM_invariant (P := fs.Lacks key) (fun found m hm found' hfound hstep => ?_) hunfilled h
  obtain ⟨k, hk, hput⟩ := ok_of_bind hstep
  have hother : k ≠ key := fun hsame => hnone m hm (hsame ▸ hk)
  exact foundUnder_putTree_other hother hfound hput

/-- Under the key of a member its value is found. -/
theorem foundUnder_foldTrees (h : fs.foldTrees room ms = .ok found) {m : List Literal.Piece × Tree}
    (hm : m ∈ ms) (hkey : Literal.text m.1 = .ok key) :
    fs.FoundUnder key (fun f found => ∃ v, found = some v ∧ f.ofTree room m.2 = .ok v) found := by
  obtain ⟨before, after, rfl⟩ := List.append_of_mem hm
  rw [foldTrees, List.foldlM_append] at h
  obtain ⟨_, -, hfold⟩ := ok_of_bind h
  obtain ⟨s', hstep, hafter⟩ := ok_of_bind hfold
  obtain ⟨k, hk, hput⟩ := ok_of_bind hstep
  obtain rfl := Except.ok.inj (hkey.symm.trans hk)
  have hfound : fs.FoundUnder key (fun f found => ∃ v, found = some v ∧ f.ofTree room m.2 = .ok v) s' :=
    foundUnder_putTree_self (Q := fun _ _ => True) (fun f v _ hv => ⟨v, rfl, hv⟩)
      (foundUnder_of_forall (fun _ _ => trivial) _) hput
  refine foldlM_invariant (fun found m' _ found' hfound hstep => ?_) hfound hafter
  obtain ⟨k', -, hput'⟩ := ok_of_bind hstep
  by_cases hk' : k' = key
  · -- The key has been found already.
    rw [hk'] at hput'
    refine foundUnder_putTree_self (fun f v hsome _ => ?_) hfound hput'
    obtain ⟨_, hnone, -⟩ := hsome
    cases hnone
  · exact foundUnder_putTree_other hk' hfound hput'

/-- Every member under a known key has been taken by its field. -/
theorem exists_of_foldTrees (h : fs.foldTrees room ms = .ok found) {m : List Literal.Piece × Tree}
    (hm : m ∈ ms) (hkey : Literal.text m.1 = .ok key) {field : Field} (hfield : fs.field? key = some field) :
    ∃ v, field.ofTree room m.2 = .ok v := by
  obtain ⟨_, v, -, hv⟩ := (foundUnder_foldTrees h hm hkey).field? hfield
  exact ⟨v, hv⟩

end

/-- A record is taken from an object if all its members are, and no key is missing that has to be there. -/
theorem recordObject_inv {fs : Fields} {name : String} {room : Nat} {ms : Members} {vs : fs.Values}
    (h : (Shape.record name fs).ofTree (room + 1) (.object ms) = .ok vs) :
    ∃ found, fs.foldTrees room ms = .ok found ∧ fs.finish found = .ok vs := by
  rw [Shape.ofTree_recordObject] at h
  obtain ⟨found, hfold, hcomplete⟩ := ok_of_bind h
  refine ⟨found, hfold, ?_⟩
  rw [complete] at hcomplete
  cases hfinish : fs.finish found with
  | error key =>
    rw [hfinish] at hcomplete
    cases hcomplete
  | ok values =>
    rw [hfinish] at hcomplete
    cases hcomplete
    rfl

/-- The field under the key of a member has the value of this member. -/
theorem valueUnder_recordObject {fs : Fields} {name key : String} {room : Nat} {ms : Members}
    {vs : fs.Values} (h : (Shape.record name fs).ofTree (room + 1) (.object ms) = .ok vs)
    {m : List Literal.Piece × Tree} (hm : m ∈ ms) (hkey : Literal.text m.1 = .ok key) :
    fs.ValueUnder key (fun f v => f.ofTree room m.2 = .ok v) vs := by
  obtain ⟨found, hfold, hfinish⟩ := recordObject_inv h
  refine valueUnder_finish (fun f found v hfound hv => ?_) (foundUnder_foldTrees hfold hm hkey) hfinish
  obtain ⟨w, rfl, hw⟩ := hfound
  cases hv
  exact hw

end Fields

/-! ## 3. All records of a tree -/

/-- The values are those of the items of an array, one by one. -/
def eachItem (Q : Tree → α → Prop) (t : Tree) (vs : List α) : Prop :=
  ∃ ts, t = .array ts ∧ List.Forall₂ Q ts vs

mutual

/-- `P` holds of the members and the values of every record that is taken from an object, wherever in the tree
it stands. -/
def Shape.EachRecord (P : (fs : Fields) → Members → fs.Values → Prop) : (s : Shape) → Tree → s.Value → Prop
  | .list item, t, vs => eachItem (item.EachRecord P) t vs
  | .record _ fields, .object ms, vs =>
    P fields ms vs ∧ ∀ m ∈ ms, ∀ key, Literal.text m.1 = .ok key → fields.EachUnder P key m.2 vs
  | .record _ fields, .array ts, vs => fields.EachPosition P ts vs
  | .record _ _, _, _ => False
  | .wrapped key item, .object ms, v =>
    P (.wrapping key item) ms (v, ()) ∧
      ∀ m ∈ ms, Literal.text m.1 = .ok key → ∀ vs, v = some vs → eachItem (item.EachRecord P) m.2 vs
  | .wrapped _ item, t, v => ∀ vs, v = some vs → eachItem (item.EachRecord P) t vs
  | _, _, _ => True

def Field.EachRecord (P : (fs : Fields) → Members → fs.Values → Prop) : (f : Field) → Tree → f.Value → Prop
  | .required shape, t, v => shape.EachRecord P t v
  | .nullable shape, t, v => ∀ a, v = some a → shape.EachRecord P t a
  | .optional shape, t, v => ∀ a, v = some a → shape.EachRecord P t a
  | .sparse shape, t, v => ∀ a, v = some a → shape.EachRecord P t a
  | .flag, _, _ => True
  | .listing item, t, vs => eachItem (item.EachRecord P) t vs

/-- The same of the value of the field under a key. -/
def Fields.EachUnder (P : (fs : Fields) → Members → fs.Values → Prop) (key : String) (t : Tree) :
    (fs : Fields) → fs.Values → Prop
  | .nil, _ => True
  | .cons k field rest, (v, more) =>
    if key = k then field.EachRecord P t v else rest.EachUnder P key t more

/-- The same of the values of the fields that an array reaches. -/
def Fields.EachPosition (P : (fs : Fields) → Members → fs.Values → Prop) :
    (fs : Fields) → List Tree → fs.Values → Prop
  | .nil, ts, _ => ts = []
  | .cons _ _ _, [], _ => True
  | .cons _ field rest, t :: ts, (v, more) => field.EachRecord P t v ∧ rest.EachPosition P ts more

end

theorem eachItem_listOfTree {room : Nat} {item : Nat → Tree → Except Fault α} {Q : Tree → α → Prop}
    (hitem : ∀ room t v, item room t = .ok v → Q t v) {t : Tree} {vs : List α}
    (h : listOfTree room item t = .ok vs) : eachItem Q t vs := by
  cases t with
  | array ts =>
    cases room with
    | zero => cases h
    | succ room => exact ⟨ts, rfl, (forall₂_of_mapM h).imp fun t v => hitem room t v⟩
  | _ => exact absurd h wrongTree_ne_ok

theorem eachOrNull {value : Tree → Except Fault α} {Q : Tree → α → Prop} {t : Tree}
    (hvalue : ∀ a, value t = .ok a → Q t a) {v : Option α} (h : orNullOfTree value t = .ok v) :
    ∀ a, v = some a → Q t a := by
  intro a ha
  subst ha
  by_cases ht : t = .null
  · subst ht
    cases h
  · rw [orNullOfTree_of_ne_null ht] at h
    obtain ⟨a', ha', hlast⟩ := ok_of_bind h
    cases hlast
    exact hvalue a ha'

/-- `P` holds of the members and the values of whatever record is taken from an object. -/
def HoldsOfObjects (P : (fs : Fields) → Members → fs.Values → Prop) : Prop :=
  ∀ (fs : Fields) (name : String) (room : Nat) (ms : Members) (vs : fs.Values),
    (Shape.record name fs).ofTree room (.object ms) = .ok vs → P fs ms vs

section

variable {P : (fs : Fields) → Members → fs.Values → Prop}

mutual

/-- What holds of every record that is taken from an object holds of those anywhere in the tree. -/
theorem Shape.eachRecord_ofTree (hP : HoldsOfObjects P) : (s : Shape) → (room : Nat) → (t : Tree) →
    (v : s.Value) → s.ofTree room t = .ok v → s.EachRecord P t v
  | .text, _, _, _, _ => trivial
  | .truth, _, _, _, _ => trivial
  | .integer _, _, _, _, _ => trivial
  | @Shape.word _ _, _, _, _, _ => trivial
  | .json, _, _, _, _ => trivial
  | .list item, _, _, _, h => eachItem_listOfTree (item.eachRecord_ofTree hP) h
  | .record name fields, room, t, vs, h => by
    cases t with
    | object ms =>
      refine ⟨hP fields name room ms vs h, fun m hm key hkey => ?_⟩
      cases room with
      | zero => cases h
      | succ room => exact fields.eachUnder_ofTree hP room key m.2 (Fields.valueUnder_recordObject h hm hkey)
    | array ts =>
      cases room with
      | zero => cases h
      | succ room => exact fields.eachPosition_ofTrees hP name fields.size room ts 0 h
    | _ => exact absurd h wrongTree_ne_ok
  | .wrapped key item, room, t, v, h => by
    cases t with
    | object ms =>
      rw [Shape.ofTree_wrappedObject key] at h
      obtain ⟨values, hvalues, rfl⟩ := ok_of_map h
      refine ⟨hP (.wrapping key item) key room ms values hvalues, fun m hm hkey => ?_⟩
      cases room with
      | zero => cases hvalues
      | succ room =>
        have hvalue := Fields.valueUnder_self.1 (Fields.valueUnder_recordObject hvalues hm hkey)
        exact eachOrNull (fun vs => eachItem_listOfTree (item.eachRecord_ofTree hP)) hvalue
    | array ts =>
      intro vs hv
      subst hv
      cases room with
      | zero => cases h
      | succ room =>
        obtain ⟨vs', hvs, hlast⟩ := ok_of_bind h
        cases hlast
        exact ⟨ts, rfl, (forall₂_of_mapM hvs).imp fun t v => item.eachRecord_ofTree hP room t v⟩
    | _ => exact absurd h wrongTree_ne_ok

theorem Field.eachRecord_ofTree (hP : HoldsOfObjects P) : (f : Field) → (room : Nat) → (t : Tree) →
    (v : f.Value) → f.ofTree room t = .ok v → f.EachRecord P t v
  | .required shape, room, t, v, h => shape.eachRecord_ofTree hP room t v h
  | .nullable shape, room, t, _, h => eachOrNull (shape.eachRecord_ofTree hP room t) h
  | .optional shape, room, t, _, h => eachOrNull (shape.eachRecord_ofTree hP room t) h
  | .sparse shape, room, t, _, h => eachOrNull (shape.eachRecord_ofTree hP room t) h
  | .flag, _, _, _, _ => trivial
  | .listing item, _, _, _, h => eachItem_listOfTree (item.eachRecord_ofTree hP) h

theorem Fields.eachUnder_ofTree (hP : HoldsOfObjects P) : (fs : Fields) → (room : Nat) → (key : String) →
    (t : Tree) → {vs : fs.Values} → fs.ValueUnder key (fun f v => f.ofTree room t = .ok v) vs →
    fs.EachUnder P key t vs
  | .nil, _, _, _, _, _ => trivial
  | .cons k field rest, room, key, t, (v, more), h => by
    rw [Fields.EachUnder]
    by_cases hk : key = k
    · subst hk
      rw [if_pos rfl]
      exact field.eachRecord_ofTree hP room t v (Fields.valueUnder_self.1 h)
    · rw [if_neg hk]
      exact rest.eachUnder_ofTree hP room key t ((Fields.valueUnder_other hk).1 h)

theorem Fields.eachPosition_ofTrees (hP : HoldsOfObjects P) (name : String) (size room : Nat) :
    (fs : Fields) → (ts : List Tree) → (index : Nat) → {vs : fs.Values} →
    fs.ofTrees name size room ts index = .ok vs → fs.EachPosition P ts vs
  | .nil, [], _, _, _ => rfl
  | .nil, _ :: _, _, _, h => nomatch h
  | .cons _ _ _, [], _, _, _ => trivial
  | .cons _ field rest, t :: ts, index, vs, h => by
    obtain ⟨v, hv, hmore⟩ := ok_of_bind h
    obtain ⟨more, hvalues, hlast⟩ := ok_of_bind hmore
    cases hlast
    exact ⟨field.eachRecord_ofTree hP room t v hv,
      rest.eachPosition_ofTrees hP name size room ts (index + 1) hvalues⟩

end

end

/-! ## 4. Unset fields -/

/-- Null leaves every field that takes it unset, or as it was. -/
theorem Field.unset_of_null {f : Field} {room : Nat} {v : f.Value} (h : f.ofTree room .null = .ok v) :
    f.unset v = v := by
  cases f with
  | required shape => rfl
  | listing item => cases h
  | _ =>
    cases h
    rfl

theorem Field.unset_of_ifMissing? {f : Field} {v : f.Value} (h : f.ifMissing? = some v) : f.unset v = v := by
  rw [Field.unset, h, Option.getD_some]

namespace Fields

/-- The values of the fields with the one under a key unset. -/
def unset (key : String) (fs : Fields) (vs : fs.Values) : fs.Values :=
  Id.run (fs.modify key (fun f v => pure (f.unset v)) vs)

theorem unset_eq_self {key : String} : {fs : Fields} → {vs : fs.Values} →
    fs.ValueUnder key (fun f v => f.unset v = v) vs → fs.unset key vs = vs
  | .nil, _, _ => rfl
  | .cons k field rest, (v, more), h => by
    by_cases hk : key = k
    · subst hk
      have hmodify : (Fields.cons key field rest).unset key (v, more) = (field.unset v, more) :=
        congrArg Id.run (if_pos rfl)
      rw [hmodify, valueUnder_self.1 h]
    · have hmodify : (Fields.cons k field rest).unset key (v, more) = (v, rest.unset key more) :=
        congrArg Id.run (if_neg (Ne.symm hk))
      rw [hmodify, unset_eq_self ((valueUnder_other hk).1 h)]

/-- Every field is unset that has null or no member under its key. -/
def Unset (fs : Fields) (ms : Members) (vs : fs.Values) : Prop :=
  ∀ key, (∀ m ∈ ms, Literal.text m.1 = .ok key → m.2 = .null) → fs.unset key vs = vs

theorem holdsOfObjects_unset : HoldsOfObjects Unset := by
  intro fs name room ms vs h key hnull
  refine unset_eq_self ?_
  cases room with
  | zero => cases h
  | succ room =>
    by_cases hkey : ∃ m ∈ ms, Literal.text m.1 = .ok key
    · obtain ⟨m, hm, hk⟩ := hkey
      have hvalue := valueUnder_recordObject h hm hk
      rw [hnull m hm hk] at hvalue
      exact hvalue.imp fun f v hv => Field.unset_of_null hv
    · obtain ⟨found, hfold, hfinish⟩ := recordObject_inv h
      refine valueUnder_finish (fun f found v hfound hv => ?_)
        (lacks_foldTrees (fun m hm hk => hkey ⟨m, hm, hk⟩) hfold) hfinish
      rw [hfound, Option.none_or] at hv
      exact Field.unset_of_ifMissing? hv

end Fields

end MetricCatalog
