import MetricCatalog.Proofs.Json.Paths
import MetricCatalog.Proofs.Schema.Routes
import MetricCatalog.Proofs.Schema.Taken

/-!
# Places — a part of a tree and what is taken of the whole

A place is where a value of some shape stands in a tree, with all else around it fixed. The way there takes one
bracket for each step. If the tree is taken with something in the place, what else is put there alone decides
whether it is taken, for which fault it is refused, and what its value holds at the end of the path.
-/

namespace MetricCatalog

open Json Json.Scan Json.Tree Shape

variable {α : Type}

/-! ## 1. Parts of values -/

/-- A value together with its shape. -/
structure Held where
  shape : Shape
  value : shape.Value

/-- The value of a field as one of its shape, unless it is unset. -/
def Field.content? : (f : Field) → f.Value → Option f.inner.Value
  | .required _, a => some a
  | .nullable _, v => v
  | .optional _, v => v
  | .sparse _, v => v
  | .flag, b => some b
  | .listing _, xs => some xs

/-- What a record holds under a key. -/
def Fields.part? : (fs : Fields) → String → fs.Values → Option Held
  | .nil, _, _ => none
  | .cons k field rest, key, (v, more) =>
    if key = k then (field.content? v).map (Held.mk field.inner) else rest.part? key more

namespace Held

/-- What a value holds after one step. -/
def part? : Held → Step → Option Held
  | ⟨.list item, vs⟩, .item index => (show List item.Value from vs)[index]?.map (Held.mk item)
  | ⟨.record _ fields, vs⟩, .key key => fields.part? key vs
  | _, _ => none

/-- What a value holds at the end of a path. -/
def at? (held : Held) : List Step → Option Held
  | [] => some held
  | step :: path => (held.part? step).bind (at? · path)

/-- The document of a value. -/
def toJson (held : Held) : Json := held.shape.toJson held.value

end Held

theorem Field.content?_given (f : Field) (a : f.inner.Value) : f.content? (f.given a) = some a := by
  cases f <;> rfl

/-- What a field holds is written, but for an empty listing. -/
theorem Field.toJson?_of_content? {f : Field} {v : f.Value} {a : f.inner.Value} (h : f.content? v = some a) :
    f.toJson? v = some (f.inner.toJson a) ∨ ∃ item, Held.mk f.inner a = ⟨.list item, []⟩ := by
  cases f with
  | listing item =>
    cases h
    cases v with
    | nil => exact .inr ⟨item, rfl⟩
    | cons v vs => exact .inl rfl
  | required shape =>
    cases h
    exact .inl rfl
  | flag =>
    cases h
    exact .inl rfl
  | nullable shape =>
    obtain rfl : v = some a := h
    exact .inl rfl
  | optional shape =>
    obtain rfl : v = some a := h
    exact .inl rfl
  | sparse shape =>
    obtain rfl : v = some a := h
    exact .inl rfl

/-- What a record holds under a key is written there. -/
theorem Fields.lookup_toMembers {key : String} {held : Held} : {fs : Fields} → {vs : fs.Values} →
    fs.part? key vs = some held →
    (fs.toMembers vs).lookup key = some held.toJson ∨ ∃ item, held = ⟨.list item, []⟩
  | .nil, _, h => nomatch h
  | .cons k field rest, (v, more), h => by
    rw [part?] at h
    by_cases hk : key = k
    · subst hk
      rw [if_pos rfl] at h
      obtain ⟨a, ha, rfl⟩ := Option.map_eq_some_iff.1 h
      obtain hwritten | hempty := Field.toJson?_of_content? ha
      · left
        rw [toMembers, hwritten]
        exact List.lookup_cons_self
      · exact .inr hempty
    · rw [if_neg hk] at h
      obtain hwritten | hempty := Fields.lookup_toMembers h
      · left
        rw [← hwritten, toMembers]
        cases field.toJson? v with
        | none => rfl
        | some j => simp [List.lookup_cons, beq_false_of_ne hk]
      · exact .inr hempty

/-- What a value holds at the end of a path stands there in its document, but for lists, which may be left
out. -/
theorem Held.at?_toJson {held part : Held} {path : List Step} (h : held.at? path = some part)
    (hpart : ∀ item, part.shape ≠ .list item) : held.toJson.at? path = some part.toJson := by
  induction path generalizing held with
  | nil =>
    cases h
    exact Json.at?_nil _
  | cons step path ih =>
    obtain ⟨next, hnext, hat⟩ := Option.bind_eq_some_iff.1 h
    have hwritten := ih hat
    obtain ⟨shape, v⟩ := held
    cases step with
    | item index =>
      cases shape with
      | list item =>
        obtain ⟨a, ha, rfl⟩ := Option.map_eq_some_iff.1 hnext
        have hindex : (List.map item.toJson (show List item.Value from v))[index]? =
            some (item.toJson a) := List.getElem?_map.trans (congrArg (Option.map item.toJson) ha)
        exact (congrArg (Option.bind · (Json.at? · path)) hindex).trans hwritten
      | _ => cases hnext
    | key key =>
      cases shape with
      | record name fields =>
        obtain hlookup | ⟨item, rfl⟩ := Fields.lookup_toMembers hnext
        · change ((fields.toMembers v).lookup key).bind (Json.at? · path) = _
          rw [hlookup]
          exact hwritten
        · -- An empty list holds nothing but itself.
          cases path with
          | nil =>
            cases hat
            exact absurd rfl (hpart item)
          | cons step path => cases step <;> cases hat
      | _ => cases hnext

/-! ## 2. Places -/

/-- In the trees `fill x` only the part `x` is left open, at the end of a path. It is read as a value of the shape
`inner`. Each step of the path takes one bracket. -/
inductive Shape.Place (inner : Shape) : Shape → List Step → (Tree → Tree) → Prop where
  | here : Place inner inner [] id
  | item {item : Shape} {path : List Step} {fill : Tree → Tree} (before after : List Tree)
      (h : Place inner item path fill) :
      Place inner (.list item) (.item before.length :: path) fun x => .array (before ++ fill x :: after)
  | value {name key : String} {fields : Fields} {field : Field} {path : List Step} {fill : Tree → Tree}
      {k : List Literal.Piece} (before after : Members) (hk : Literal.text k = .ok key)
      (hfield : fields.field? key = some field) (h : Place inner field.inner path fill) :
      Place inner (.record name fields) (.key key :: path) fun x =>
        .object (before ++ (k, fill x) :: after)
  | position {name key : String} {fields : Fields} {field : Field} {path : List Step} {fill : Tree → Tree}
      (before after : List Tree) (hkey : fields.keys[before.length]? = some key)
      (hfield : fields.fieldAt? before.length = some field) (h : Place inner field.inner path fill) :
      Place inner (.record name fields) (.key key :: path) fun x => .array (before ++ fill x :: after)

section

variable {inner s : Shape} {path : List Step} {fill : Tree → Tree}

theorem Shape.Place.ne_null (h : Place inner s path fill) {x : Tree} (hx : x ≠ .null) : fill x ≠ .null := by
  cases h with
  | here => exact hx
  | _ => nofun

/-- Null is a whole tree only where the place is the whole. -/
theorem Shape.Place.eq_here (h : Place inner s path fill) {y : Tree} (hy : fill y = .null) :
    inner = s ∧ path = [] ∧ fill = id := by
  cases h with
  | here => exact ⟨rfl, rfl, rfl⟩
  | _ => cases hy

/-- What the shape `inner` makes of a part decides what is taken in the end. -/
structure Decides (inner : Shape) (room : Nat) (take : Tree → Except Fault α) : Prop where
  taken : ∀ x a, inner.ofTree room x = .ok a → ∃ v, take x = .ok v
  refused : ∀ x fault, x ≠ .null → inner.ofTree room x = .error fault → take x = .error fault

/-- A member that is refused by its field is refused for the same fault, if another one has been taken there. -/
theorem Fields.putTree_error {room : Nat} {t t' : Tree} {fault : Fault} : {fs : Fields} → {k : String} →
    {field : Field} → {found later : fs.Filling} → fs.field? k = some field →
    fs.putTree room k t' found = .ok later → field.ofTree room t = .error fault →
    fs.putTree room k t found = .error fault
  | .nil, _, _, _, _, h, _, _ => nomatch h
  | .cons key field rest, k, field', (found, more), later, h, hput, hfault => by
    rw [field?] at h
    by_cases hk : k = key
    · rw [if_pos hk] at h
      cases h
      subst hk
      rw [putTree_self] at hput ⊢
      obtain ⟨_, htake, -⟩ := ok_of_map hput
      cases takeUnder_eq_ok htake
      rw [hfault]
      rfl
    · rw [if_neg hk] at h
      rw [putTree_other hk] at hput ⊢
      obtain ⟨_, hput', -⟩ := ok_of_map hput
      rw [Fields.putTree_error h hput' hfault]
      rfl

/-- So is an item of an array in the place of a record. -/
theorem Fields.ofTrees_error {name : String} {size room : Nat} {t t' : Tree} {after : List Tree}
    {fault : Fault} : {fs : Fields} → {before : List Tree} → {field : Field} → {index : Nat} →
    {vs : fs.Values} → fs.fieldAt? before.length = some field →
    fs.ofTrees name size room (before ++ t' :: after) index = .ok vs → field.ofTree room t = .error fault →
    fs.ofTrees name size room (before ++ t :: after) index = .error fault
  | .nil, _, _, _, _, h, _, _ => nomatch h
  | .cons _ field rest, [], _, index, _, h, _, hfault => by
    cases h
    rw [List.nil_append, ofTrees, hfault]
    rfl
  | .cons _ field rest, u :: before, _, index, _, h, hvs, hfault => by
    obtain ⟨v, hv, hmore⟩ := ok_of_bind hvs
    obtain ⟨_, hrest, -⟩ := ok_of_bind hmore
    have herror := Fields.ofTrees_error (show rest.fieldAt? before.length = _ from h) hrest hfault
    rw [List.cons_append, ofTrees, hv]
    exact congrArg (· >>= fun more => Except.ok (v, more)) herror

namespace Decides

variable {less room : Nat}

theorem field {f : Field} (hfill : ∀ x, x ≠ .null → fill x ≠ .null)
    (h : Decides inner less fun x => f.inner.ofTree room (fill x)) :
    Decides inner less fun x => f.ofTree room (fill x) where
  taken x a ha := by
    obtain ⟨v, hv⟩ := h.taken x a ha
    exact Field.exists_of_inner hv
  refused x fault hx hfault := by
    rw [Field.ofTree_of_ne_null (hfill x hx), h.refused x fault hx hfault]
    rfl

theorem item {take : Tree → Except Fault α} (h : Decides inner less fun x => take (fill x))
    {before after : List Tree} {t : Tree} {vs : List α} (hvs : (before ++ t :: after).mapM take = .ok vs) :
    Decides inner less fun x => (before ++ fill x :: after).mapM take where
  taken x a ha := by
    obtain ⟨v, hv⟩ := h.taken x a ha
    exact (exists_of_mapM_append_cons hvs).2 (fill x) v hv
  refused x fault hx hfault := by
    apply mapM_append_cons_error _ (h.refused x fault hx hfault)
    intro u hu
    obtain ⟨v, -, hv⟩ := exists_mem_of_mapM hvs u (List.mem_append_left _ hu)
    exact ⟨v, hv⟩

theorem value {f : Field} (h : Decides inner less fun x => f.ofTree room (fill x)) {name key : String}
    {fs : Fields} {before after : Members} {k : List Literal.Piece} {t : Tree} {vs : fs.Values}
    (hk : Literal.text k = .ok key) (hfield : fs.field? key = some f)
    (hvs : (Shape.record name fs).ofTree (room + 1) (.object (before ++ (k, t) :: after)) = .ok vs) :
    Decides inner less fun x =>
      (Shape.record name fs).ofTree (room + 1) (.object (before ++ (k, fill x) :: after)) where
  taken x a ha := by
    obtain ⟨v, hv⟩ := h.taken x a ha
    exact (Fields.exists_replaced hk hfield hvs).2 (fill x) v hv
  refused x fault hx hfault := by
    obtain ⟨found, hfold, -⟩ := Fields.recordObject_inv hvs
    obtain ⟨found, later, hbefore, hstep, -⟩ := foldlM_append_cons_inv hfold
    simp only [hk] at hstep
    have hput := Fields.putTree_error hfield hstep (h.refused x fault hx hfault)
    have hmember : (Literal.text k >>= fun key => fs.putTree room key (fill x) found) = .error fault := by
      rw [hk]
      exact hput
    exact congrArg (· >>= fs.complete) (foldlM_append_cons_error hbefore hmember)

theorem position {f : Field} (h : Decides inner less fun x => f.ofTree room (fill x)) {name : String}
    {fs : Fields} {before after : List Tree} {t : Tree} {vs : fs.Values}
    (hfield : fs.fieldAt? before.length = some f)
    (hvs : (Shape.record name fs).ofTree (room + 1) (.array (before ++ t :: after)) = .ok vs) :
    Decides inner less fun x => (Shape.record name fs).ofTree (room + 1) (.array (before ++ fill x :: after)) where
  taken x a ha := by
    obtain ⟨v, hv⟩ := h.taken x a ha
    exact (Fields.exists_of_ofTrees hfield hvs).2 (fill x) v hv
  refused x fault hx hfault := Fields.ofTrees_error hfield hvs (h.refused x fault hx hfault)

end Decides

theorem decides_here (room : Nat) : Decides inner room fun x => inner.ofTree room (id x) where
  taken _ a ha := ⟨a, ha⟩
  refused _ _ _ hfault := hfault

/-- In a field null may stand in the place itself, but not further in. -/
theorem Shape.Place.exists_decides_field {f : Field} (h : Place inner f.inner path fill) {y : Tree} {room : Nat}
    {w : f.Value} (hw : f.ofTree room (fill y) = .ok w)
    (hinner : ∀ {v}, f.inner.ofTree room (fill y) = .ok v →
      ∃ less, room = less + path.length ∧ Decides inner less fun x => f.inner.ofTree room (fill x)) :
    ∃ less, room = less + path.length ∧ Decides inner less fun x => f.ofTree room (fill x) := by
  by_cases hnull : fill y = .null
  · obtain ⟨rfl, rfl, rfl⟩ := h.eq_here hnull
    exact ⟨room, rfl, (decides_here room).field fun _ => id⟩
  · obtain ⟨v, hv, -⟩ := Field.exists_inner hnull hw
    obtain ⟨less, hless, hdecides⟩ := hinner hv
    exact ⟨less, hless, hdecides.field fun _ => h.ne_null⟩

/-- If the tree is taken with something in the place, there is room for the brackets on the way, and what is put
there then decides. -/
theorem Shape.Place.exists_decides (h : Place inner s path fill) {y : Tree} {room : Nat} {v : s.Value}
    (hv : s.ofTree room (fill y) = .ok v) :
    ∃ less, room = less + path.length ∧ Decides inner less fun x => s.ofTree room (fill x) := by
  induction h generalizing room with
  | here => exact ⟨room, rfl, decides_here room⟩
  | item before after h ih =>
    cases room with
    | zero => cases hv
    | succ room =>
      obtain ⟨⟨a, ha⟩, -⟩ := exists_of_mapM_append_cons hv
      obtain ⟨less, rfl, hdecides⟩ := ih ha
      exact ⟨less, rfl, hdecides.item hv⟩
  | value before after hk hkey h ih =>
    cases room with
    | zero => cases hv
    | succ room =>
      obtain ⟨⟨w, hw⟩, -⟩ := Fields.exists_replaced hk hkey hv
      obtain ⟨less, rfl, hdecides⟩ := h.exists_decides_field hw ih
      exact ⟨less, rfl, hdecides.value hk hkey hv⟩
  | position before after hkey hat h ih =>
    cases room with
    | zero => cases hv
    | succ room =>
      obtain ⟨⟨w, hw⟩, -⟩ := Fields.exists_of_ofTrees hat hv
      obtain ⟨less, rfl, hdecides⟩ := h.exists_decides_field hw ih
      exact ⟨less, rfl, hdecides.position hat hv⟩

/-! ## 3. What is held there -/

theorem Field.content?_of_ofTree {f : Field} {room : Nat} {t : Tree} (ht : t ≠ .null) {v : f.Value}
    (h : f.ofTree room t = .ok v) : ∃ a, f.inner.ofTree room t = .ok a ∧ f.content? v = some a := by
  obtain ⟨a, ha, rfl⟩ := Field.exists_inner ht h
  exact ⟨a, ha, f.content?_given a⟩

theorem Fields.part?_of_valueUnder {Q : (f : Field) → f.Value → Prop} : {fs : Fields} → {key : String} →
    {field : Field} → {vs : fs.Values} → fs.field? key = some field → fs.ValueUnder key Q vs →
    ∃ v, Q field v ∧ fs.part? key vs = (field.content? v).map (Held.mk field.inner)
  | .nil, _, _, _, h, _ => nomatch h
  | .cons k f rest, key, field, (v, more), h, hQ => by
    rw [field?] at h
    rw [ValueUnder] at hQ
    rw [part?]
    by_cases hk : key = k
    · rw [if_pos hk] at h hQ ⊢
      cases h
      exact ⟨v, hQ, rfl⟩
    · rw [if_neg hk] at h hQ ⊢
      exact Fields.part?_of_valueUnder h hQ

theorem Fields.part?_of_ofTrees {name : String} {size room : Nat} {t : Tree} {after : List Tree} :
    {fs : Fields} → {before : List Tree} → {key : String} → {field : Field} → {index : Nat} →
    {vs : fs.Values} → fs.keys.Nodup → fs.keys[before.length]? = some key →
    fs.fieldAt? before.length = some field →
    fs.ofTrees name size room (before ++ t :: after) index = .ok vs →
    ∃ v, field.ofTree room t = .ok v ∧ fs.part? key vs = (field.content? v).map (Held.mk field.inner)
  | .nil, _, _, _, _, _, _, _, h, _ => nomatch h
  | .cons k f rest, [], _, _, index, _, _, hkey, h, hvs => by
    cases h
    cases hkey
    obtain ⟨v, hv, hmore⟩ := ok_of_bind hvs
    obtain ⟨more, -, hlast⟩ := ok_of_bind hmore
    cases hlast
    refine ⟨v, hv, ?_⟩
    rw [part?]
    exact if_pos rfl
  | .cons k f rest, u :: before, key, field, index, _, hnodup, hkey, h, hvs => by
    obtain ⟨v, hv, hmore⟩ := ok_of_bind hvs
    obtain ⟨more, hrest, hlast⟩ := ok_of_bind hmore
    cases hlast
    obtain ⟨hk, hrestNodup⟩ := List.nodup_cons.1 hnodup
    have hkey' : rest.keys[before.length]? = some key := hkey
    have hother : key ≠ k := by
      rintro rfl
      exact hk (List.mem_of_getElem? hkey')
    obtain ⟨w, hw, hpart⟩ := Fields.part?_of_ofTrees hrestNodup hkey'
      (show rest.fieldAt? before.length = some field from h) hrest
    refine ⟨w, hw, ?_⟩
    rw [part?]
    exact (if_neg hother).trans hpart

/-- What is taken of the part is held at the end of the path. -/
theorem Shape.Place.at?_ofTree (h : Place inner s path fill) (hs : s.Distinct) {x : Tree} (hx : x ≠ .null)
    {room : Nat} {v : s.Value} (hv : s.ofTree room (fill x) = .ok v) :
    ∃ less a, room = less + path.length ∧ inner.ofTree less x = .ok a ∧
      Held.at? ⟨s, v⟩ path = some ⟨inner, a⟩ := by
  induction h generalizing room with
  | here => exact ⟨room, v, rfl, hv, rfl⟩
  | @item item path fill before after h ih =>
    cases room with
    | zero => cases hv
    | succ room =>
      obtain ⟨vs₁, b, vs₂, rfl, hlength, hb, -⟩ := mapM_append_cons_inv hv
      obtain ⟨less, a, rfl, ha, hat⟩ := ih hs hb
      have hindex : (vs₁ ++ b :: vs₂)[before.length]? = some b := by
        rw [← hlength]
        simp
      exact ⟨less, a, rfl, ha,
        (congrArg (fun found => (Option.map (Held.mk item) found).bind (Held.at? · path)) hindex).trans hat⟩
  | @value name key fields field path fill k before after hk hfield h ih =>
    cases room with
    | zero => cases hv
    | succ room =>
      obtain ⟨w, hw, hpart⟩ := Fields.part?_of_valueUnder hfield
        (Fields.valueUnder_recordObject hv (List.mem_append_right _ List.mem_cons_self) hk)
      obtain ⟨b, hb, hcontent⟩ := Field.content?_of_ofTree (h.ne_null hx) hw
      obtain ⟨less, a, rfl, ha, hat⟩ := ih (hs.inner_field? hfield) hb
      rw [hcontent] at hpart
      exact ⟨less, a, rfl, ha, (congrArg (Option.bind · (Held.at? · path)) hpart).trans hat⟩
  | @position name key fields field path fill before after hkey hat h ih =>
    cases room with
    | zero => cases hv
    | succ room =>
      obtain ⟨w, hw, hpart⟩ := Fields.part?_of_ofTrees hs.keys_nodup hkey hat hv
      obtain ⟨b, hb, hcontent⟩ := Field.content?_of_ofTree (h.ne_null hx) hw
      obtain ⟨less, a, rfl, ha, hat⟩ := ih (hs.inner_fieldAt? hat) hb
      rw [hcontent] at hpart
      exact ⟨less, a, rfl, ha, (congrArg (Option.bind · (Held.at? · path)) hpart).trans hat⟩

end

/-! ## 4. Where integers and documents stand -/

/-- The parts of records that are kept as they are given. -/
inductive Leaf where
  | integer (width : Width)
  | document
deriving DecidableEq

def Leaf.shape : Leaf → Shape
  | integer width => .integer width
  | document => .json

/-- The key of a step; an item of a list has none. -/
def Json.Step.key? : Step → Option String
  | .item _ => none
  | .key k => some k

/-- A leaf with the keys on the way to it. -/
abbrev LeafAt := List (Option String) × Leaf

def LeafAt.below (key? : Option String) (leaf : LeafAt) : LeafAt := (key? :: leaf.1, leaf.2)

mutual

/-- The leaves of a shape. -/
def Shape.leaves : Shape → List LeafAt
  | .integer width => [([], .integer width)]
  | .json => [([], .document)]
  | .list item => item.leaves.map (LeafAt.below none)
  | .record _ fields => fields.leaves
  | _ => []

def Field.leaves : Field → List LeafAt
  | .required shape => shape.leaves
  | .nullable shape => shape.leaves
  | .optional shape => shape.leaves
  | .sparse shape => shape.leaves
  | .flag => []
  | .listing item => item.leaves.map (LeafAt.below none)

def Fields.leaves : Fields → List LeafAt
  | .nil => []
  | .cons key field rest => field.leaves.map (LeafAt.below (some key)) ++ rest.leaves

end

theorem Field.leaves_inner (f : Field) : f.inner.leaves = f.leaves := by
  cases f <;> rfl

theorem Fields.leaves_field? {leaf : LeafAt} : {fs : Fields} → {key : String} → {field : Field} →
    fs.field? key = some field → leaf ∈ field.inner.leaves → leaf.below (some key) ∈ fs.leaves
  | .nil, _, _, h, _ => nomatch h
  | .cons k f rest, key, field, h, hleaf => by
    rw [field?] at h
    by_cases hk : key = k
    · rw [if_pos hk] at h
      cases h
      rw [f.leaves_inner] at hleaf
      exact List.mem_append_left _ (List.mem_map.2 ⟨leaf, hleaf, by rw [hk]⟩)
    · rw [if_neg hk] at h
      exact List.mem_append_right _ (Fields.leaves_field? h hleaf)

theorem Fields.leaves_fieldAt? {leaf : LeafAt} : {fs : Fields} → {index : Nat} → {key : String} →
    {field : Field} → fs.keys[index]? = some key → fs.fieldAt? index = some field →
    leaf ∈ field.inner.leaves → leaf.below (some key) ∈ fs.leaves
  | .nil, _, _, _, _, h, _ => nomatch h
  | .cons k f rest, 0, _, _, hkey, h, hleaf => by
    cases hkey
    cases h
    rw [f.leaves_inner] at hleaf
    exact List.mem_append_left _ (List.mem_map_of_mem hleaf)
  | .cons _ _ rest, index + 1, key, field, hkey, h, hleaf =>
    List.mem_append_right _ (Fields.leaves_fieldAt? (show rest.keys[index]? = _ from hkey)
      (show rest.fieldAt? index = _ from h) hleaf)

/-- The leaves of the shape that is read in a place are found further in from there. -/
theorem Shape.Place.below_mem_leaves {inner s : Shape} {path : List Step} {fill : Tree → Tree}
    (h : Place inner s path fill) {leaf : LeafAt} (hleaf : leaf ∈ inner.leaves) :
    (path.map Step.key? ++ leaf.1, leaf.2) ∈ s.leaves := by
  induction h with
  | here => exact hleaf
  | item before after h ih => exact List.mem_map_of_mem ih
  | value before after hk hfield h ih => exact Fields.leaves_field? hfield ih
  | position before after hkey hfield h ih => exact Fields.leaves_fieldAt? hkey hfield ih

/-- The path to a place where a leaf is read is one of those that the shape tells. -/
theorem Shape.Place.mem_leaves (leaf : Leaf) {s : Shape} {path : List Step} {fill : Tree → Tree}
    (h : Place leaf.shape s path fill) : (path.map Step.key?, leaf) ∈ s.leaves := by
  have hself : (([], leaf) : LeafAt) ∈ leaf.shape.leaves := by
    cases leaf <;> exact List.mem_singleton_self _
  simpa using h.below_mem_leaves hself

namespace RecordType

/-- The leaves of each record type. -/
def leaves : RecordType → List LeafAt
  | requestTransform => [([some "custom_metadata"], .document)]
  | requestMetric =>
    [([some "metric_metadata", some "significant_digits"], .integer .bits32),
      ([some "metric_metadata", some "min_decimal_exponent"], .integer .bits32),
      ([some "metric_metadata", some "max_decimal_exponent"], .integer .bits32)]
  | requestMetricMetadata =>
    [([some "significant_digits"], .integer .bits32),
      ([some "min_decimal_exponent"], .integer .bits32),
      ([some "max_decimal_exponent"], .integer .bits32)]
  | node =>
    [([some "node_revision_id"], .integer .bits64), ([some "node_id"], .integer .bits64),
      ([some "columns", none, some "attributes", none], .document),
      ([some "columns", none, some "dimension"], .document),
      ([some "columns", none, some "partition"], .document),
      ([some "custom_metadata"], .document)]
  | nodeColumn =>
    [([some "attributes", none], .document), ([some "dimension"], .document),
      ([some "partition"], .document)]
  | _ => []

theorem leaves_shape (T : RecordType) : (Wire.shape T.Value).leaves = T.leaves := by
  cases T <;> rfl

end RecordType

/-- The leaves of a payload type: those of its records, one step further in if it is a list. -/
def PayloadType.leaves : PayloadType → List LeafAt
  | .one T => T.leaves
  | .many T => T.leaves.map (LeafAt.below none)

theorem PayloadType.leaves_shape (T : PayloadType) : T.shape.leaves = T.leaves := by
  cases T with
  | one T => exact T.leaves_shape
  | many T => exact congrArg (List.map (LeafAt.below none)) T.leaves_shape

/-! ## 5. Places in texts -/

/-- Some text of the trees is decoded. -/
def PayloadType.Accepts (T : PayloadType) (fill : Tree → Tree) : Prop :=
  ∃ (y : Tree) (bytes : Bytes) (v : T.Value), (fill y).Spells bytes ∧ decodeBytes T.Value bytes = .ok v

theorem PayloadType.Accepts.exists_decides {T : PayloadType} {fill : Tree → Tree} (hfill : T.Accepts fill)
    {inner : Shape} {path : List Step} (h : Place inner T.shape path fill) :
    ∃ less, depthLimit = less + path.length ∧
      Decides inner less fun x => (Wire.shape T.Value).ofTree depthLimit (fill x) := by
  obtain ⟨y, bytes, v, hspells, hv⟩ := hfill
  exact h.exists_decides ((decodeBytes_spells hspells).1 hv)

/-- What is taken of a tree in the place is taken of the whole. -/
theorem PayloadType.Accepts.exists_decodeBytes {T : PayloadType} {fill : Tree → Tree} (hfill : T.Accepts fill)
    {inner : Shape} {path : List Step} (h : Place inner T.shape path fill) {x : Tree}
    (hx : ∀ room, depthLimit = room + path.length → ∃ a, inner.ofTree room x = .ok a) {bytes : Bytes}
    (hbytes : (fill x).Spells bytes) : ∃ v, decodeBytes T.Value bytes = .ok v := by
  obtain ⟨less, hless, hdecides⟩ := hfill.exists_decides h
  obtain ⟨a, ha⟩ := hx less hless
  obtain ⟨v, hv⟩ := hdecides.taken x a ha
  refine ⟨Wire.unpack v, (decodeBytes_spells hbytes).2 ?_⟩
  rw [Wire.pack_unpack]
  exact hv

end MetricCatalog
