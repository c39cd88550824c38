import MetricCatalog.Proofs.Json.Respelling
import MetricCatalog.Proofs.Schema.Cut
import MetricCatalog.Proofs.Schema.Insertion

/-!
# Respelled records — the order of members and the spelling of literals are not seen

A field is found by the text of its key, wherever the member stands, so every shape takes from a respelled
tree what it takes from the tree itself. Only within documents that are kept as they are this needs keys
that are not repeated.
-/

namespace MetricCatalog

open Json Json.Tree Shape

variable {α β : Type}

/-! ## 1. Members in another order -/

/-- A second value under a key is refused, whatever the first one is. -/
theorem takeUnder_twice {key : String} {found found' found'' : Option α} {x y : Except Fault α}
    (h : takeUnder key found x = .ok found') : takeUnder key found' y ≠ .ok found'' := by
  intro h'
  cases takeUnder_eq_ok h
  obtain ⟨a, -, hlast⟩ := ok_of_bind h
  cases hlast
  cases h'

/-- Members under different keys can be put into their places in either order, and a key that is repeated
is refused in both. -/
theorem Fields.putTree_comm {room : Nat} {k k' : String} {t t' : Tree} : {fs : Fields} →
    {found found' found'' : fs.Filling} → fs.putTree room k t found = .ok found' →
    fs.putTree room k' t' found' = .ok found'' →
    ∃ other, fs.putTree room k' t' found = .ok other ∧ fs.putTree room k t other = .ok found''
  | .nil, _, _, _, _, _ => ⟨(), rfl, rfl⟩
  | .cons key field rest, (found, more), found', found'', h, h' => by
    by_cases hk : k = key
    · subst hk
      rw [Fields.putTree_self] at h
      obtain ⟨taken, htake, rfl⟩ := ok_of_map h
      by_cases hk' : k' = k
      · -- The key has been found already.
        subst hk'
        rw [Fields.putTree_self] at h'
        obtain ⟨taken', htake', -⟩ := ok_of_map h'
        exact absurd htake' (takeUnder_twice htake)
      · rw [Fields.putTree_other hk'] at h' ⊢
        obtain ⟨more', hmore, rfl⟩ := ok_of_map h'
        refine ⟨(found, more'), ?_, ?_⟩
        · rw [hmore]
          rfl
        · rw [Fields.putTree_self, htake]
          rfl
    · rw [Fields.putTree_other hk] at h
      obtain ⟨more', hmore, rfl⟩ := ok_of_map h
      by_cases hk' : k' = key
      · subst hk'
        rw [Fields.putTree_self] at h' ⊢
        obtain ⟨taken, htake, rfl⟩ := ok_of_map h'
        refine ⟨(taken, more), ?_, ?_⟩
        · rw [htake]
          rfl
        · rw [Fields.putTree_other hk, hmore]
          rfl
      · rw [Fields.putTree_other hk'] at h' ⊢
        obtain ⟨more'', hmore', rfl⟩ := ok_of_map h'
        obtain ⟨other, hother, hlast⟩ := Fields.putTree_comm hmore hmore'
        refine ⟨(found, other), ?_, ?_⟩
        · rw [hother]
          rfl
        · rw [Fields.putTree_other hk, hlast]
          rfl

theorem takeUnder_mono {key : String} {found found' : Option α} {x y : Except Fault α}
    (h : ∀ a, x = .ok a → y = .ok a) (hx : takeUnder key found x = .ok found') :
    takeUnder key found y = .ok found' := by
  cases takeUnder_eq_ok hx
  obtain ⟨a, ha, hlast⟩ := ok_of_bind hx
  exact (congrArg (· >>= _) (h a ha)).trans hlast

/-- The members of an object are taken in any order. -/
theorem Fields.foldTrees_perm {fs : Fields} {room : Nat} {ms ms' : Members} (h : ms.Perm ms')
    {found : fs.Filling} (hfold : fs.foldTrees room ms = .ok found) : fs.foldTrees room ms' = .ok found := by
  refine foldlM_perm (fun m m' s s' s'' hs hs' => ?_) h hfold
  obtain ⟨k, hk, hput⟩ := ok_of_bind hs
  obtain ⟨k', hk', hput'⟩ := ok_of_bind hs'
  obtain ⟨other, hother, hlast⟩ := Fields.putTree_comm hput hput'
  refine ⟨other, ?_, ?_⟩
  · rw [hk']
    exact hother
  · rw [hk]
    exact hlast

/-! ## 2. Trees from which the same is taken -/

/-- With room for so many arrays and objects, every shape takes from the second tree what it takes from the
first, and null stands where null stood. -/
structure Followed (room : Nat) (t t' : Tree) : Prop where
  null : t = .null ↔ t' = .null
  value : ∀ (s : Shape) v, s.ofTree room t = .ok v → s.ofTree room t' = .ok v

/-- Members whose keys spell one text, with values from which the same is taken. -/
structure FollowedMember (room : Nat) (m m' : List Literal.Piece × Tree) : Prop where
  key : Literal.SameText m.1 m'.1
  value : Followed room m.2 m'.2

section

variable {room : Nat} {t t' : Tree}

theorem Followed.orNull (h : Followed room t t') {value : Tree → Except Fault α}
    (hvalue : ∀ a, value t = .ok a → value t' = .ok a) {v : Option α}
    (hv : orNullOfTree value t = .ok v) : orNullOfTree value t' = .ok v := by
  by_cases ht : t = .null
  · rw [h.null.1 ht]
    rw [ht] at hv
    exact hv
  · rw [orNullOfTree_of_ne_null ht] at hv
    obtain ⟨a, ha, hlast⟩ := ok_of_bind hv
    rw [orNullOfTree_of_ne_null fun ht' => ht (h.null.2 ht'), hvalue a ha]
    exact hlast

theorem Followed.field (h : Followed room t t') (f : Field) {v : f.Value} (hv : f.ofTree room t = .ok v) :
    f.ofTree room t' = .ok v := by
  cases f with
  | required shape => exact h.value shape v hv
  | nullable shape => exact h.orNull (h.value shape) hv
  | optional shape => exact h.orNull (h.value shape) hv
  | sparse shape => exact h.orNull (h.value shape) hv
  | flag =>
    obtain ⟨found, hfound, hlast⟩ := ok_of_bind hv
    have htruth := h.orNull (h.value .truth) hfound
    exact (congrArg (· >>= _) htruth).trans hlast
  | listing item => exact h.value (.list item) v hv

theorem Followed.putTree (h : Followed room t t') {k : String} : {fs : Fields} →
    {found found' : fs.Filling} → fs.putTree room k t found = .ok found' →
    fs.putTree room k t' found = .ok found'
  | .nil, _, _, hput => hput
  | .cons key field rest, (found, more), found', hput => by
    by_cases hk : k = key
    · subst hk
      rw [Fields.putTree_self] at hput ⊢
      obtain ⟨taken, htake, rfl⟩ := ok_of_map hput
      rw [takeUnder_mono (fun _ => h.field field) htake]
      rfl
    · rw [Fields.putTree_other hk] at hput ⊢
      obtain ⟨more', hmore, rfl⟩ := ok_of_map hput
      rw [Followed.putTree h hmore]
      rfl

theorem followed_ofTrees {name : String} {size : Nat} {ts ts' : List Tree}
    (h : List.Forall₂ (Followed room) ts ts') : {fs : Fields} → {index : Nat} → {vs : fs.Values} →
    fs.ofTrees name size room ts index = .ok vs → fs.ofTrees name size room ts' index = .ok vs := by
  induction h with
  | nil => exact id
  | cons hfirst _ ih =>
    intro fs index vs hvs
    cases fs with
    | nil => exact hvs
    | cons key field rest =>
      obtain ⟨v, hv, hmore⟩ := ok_of_bind hvs
      obtain ⟨more, hvalues, hlast⟩ := ok_of_bind hmore
      cases hlast
      rw [Fields.ofTrees, hfirst.field field hv]
      exact congrArg (· >>= fun more => Except.ok (v, more)) (ih hvalues)

theorem followed_mapM {ts ts' : List Tree} (h : List.Forall₂ (Followed room) ts ts') {item : Shape}
    {vs : List item.Value} (hvs : ts.mapM (item.ofTree room) = .ok vs) :
    ts'.mapM (item.ofTree room) = .ok vs := by
  have hitems : List.Forall₂ (fun t t' => ∀ v, item.ofTree room t = .ok v →
      ∃ w, item.ofTree room t' = .ok w ∧ v = w) ts ts' :=
    h.imp fun t t' h v hv => ⟨v, h.value item v hv, rfl⟩
  obtain ⟨ws, hws, hsame⟩ := mapM_forall₂ hitems hvs
  rw [List.forall₂_eq_eq_eq] at hsame
  rw [hsame]
  exact hws

/-- A record is taken from members that follow those of its object, in any order. -/
theorem followed_recordObject {name : String} {fs : Fields} {ms ms' reordered : Members}
    (h : List.Forall₂ (FollowedMember room) ms ms') (hperm : ms'.Perm reordered) {vs : fs.Values}
    (hvs : (Shape.record name fs).ofTree (room + 1) (.object ms) = .ok vs) :
    (Shape.record name fs).ofTree (room + 1) (.object reordered) = .ok vs := by
  rw [Shape.ofTree_recordObject] at hvs ⊢
  obtain ⟨found, hfold, hlast⟩ := ok_of_bind hvs
  have hfold' : fs.foldTrees room reordered = .ok found := by
    suffices hsame : ∃ found', fs.foldTrees room ms' = .ok found' ∧ found = found' by
      obtain ⟨_, hfold', rfl⟩ := hsame
      exact Fields.foldTrees_perm hperm hfold'
    refine foldlM_forall₂ (h.imp fun m m' h s r s' hr hs => ⟨s', ?_, rfl⟩) rfl hfold
    obtain ⟨k, hk, hput⟩ := ok_of_bind hs
    rw [(h.key k).1 hk, ← hr]
    exact h.value.putTree hput
  rw [hfold']
  exact hlast

end

/-! ## 3. Respelled trees -/

theorem Json.Tree.Respelled.head {t t' : Tree} (h : t.Respelled t') {found : Head} (ht : t.head = .ok found) :
    t'.head = .ok found := by
  cases h with
  | string h =>
    obtain ⟨s, hs, rfl⟩ := ok_of_map ht
    rw [Tree.head, (h s).1 hs]
    rfl
  | _ => exact ht

theorem Json.Tree.Respelled.head_bind {t t' : Tree} (h : t.Respelled t') {k : Head → Except Fault α} {a : α}
    (ha : (t.head >>= k) = .ok a) : (t'.head >>= k) = .ok a := by
  obtain ⟨found, hfound, hlast⟩ := ok_of_bind ha
  rw [h.head hfound]
  exact hlast

theorem Json.Tree.Respelled.eq_null {t t' : Tree} (h : t.Respelled t') : t = .null ↔ t' = .null := by
  cases h with
  | null => exact Iff.rfl
  | _ => exact ⟨nofun, nofun⟩

theorem Json.Tree.Respelled.json {t t' : Tree} (h : t.Respelled t') (hdistinct : t.KeysDistinct)
    {room : Nat} {v : CanonicalJson} (hv : Shape.json.ofTree room t = .ok v) :
    Shape.json.ofTree room t' = .ok v := by
  obtain ⟨doc, hdoc, hlast⟩ := ok_of_bind hv
  cases hlast
  obtain ⟨doc', hdoc', hcanonical⟩ := h.document hdistinct room doc hdoc
  have hsame : doc.canonicalize = doc'.canonicalize := by
    simp only [Json.canonicalize, hcanonical]
  rw [hsame]
  exact congrArg (· >>= fun doc => Except.ok (Json.canonicalize doc)) hdoc'

/-- A word in the form of an object has a single member, so there is no other order. -/
theorem Json.Tree.Respelled.word (α : Type) [Vocabulary α] {t t' : Tree} (h : t.Respelled t') {room : Nat}
    {a : α} (ha : wordOfTree α room t = .ok a) : wordOfTree α room t' = .ok a := by
  cases h with
  | string h =>
    obtain ⟨s, hs, hword⟩ := ok_of_bind ha
    exact (congrArg (· >>= spellingOf α) ((h s).1 hs)).trans hword
  | @object ms ms' reordered h hperm =>
    cases room with
    | zero => cases ha
    | succ room =>
      cases h with
      | nil =>
        cases hperm.nil_eq
        exact ha
      | @cons m m' ms ms' hm hms =>
        obtain ⟨hkey, hvalue⟩ := respelledMember_iff.1 hm
        obtain ⟨word, htext, hmore⟩ := ok_of_bind ha
        obtain ⟨a', hspelling, hmore⟩ := ok_of_bind hmore
        obtain ⟨found, hfound, hmore⟩ := ok_of_bind hmore
        obtain ⟨nothing, hnull, hlast⟩ := ok_of_bind hmore
        cases hms with
        | nil =>
          cases hlast
          cases hperm.singleton_eq
          have hword : (spellingOf α word >>= fun a => m'.2.head >>= fun found =>
              headNull found >>= fun _ => Except.ok a) = .ok a := by
            rw [hspelling]
            change (m'.2.head >>= fun found => headNull found >>= fun _ => Except.ok a) = .ok a
            rw [hvalue.head hfound]
            change (headNull found >>= fun _ => Except.ok a) = .ok a
            rw [hnull]
            rfl
          exact (congrArg (· >>= _) ((hkey word).1 htext)).trans hword
        | cons _ _ => cases hlast
  | _ => exact ha

/-- Only lists and records look at what stands within brackets. -/
theorem Json.Tree.Respelled.followed_of {t t' : Tree} (h : t.Respelled t') (hdistinct : t.KeysDistinct)
    {room : Nat}
    (hlist : ∀ (item : Shape) v, (Shape.list item).ofTree room t = .ok v →
      (Shape.list item).ofTree room t' = .ok v)
    (hrecord : ∀ name fields v, (Shape.record name fields).ofTree room t = .ok v →
      (Shape.record name fields).ofTree room t' = .ok v)
    (hwrapped : ∀ key item v, (Shape.wrapped key item).ofTree room t = .ok v →
      (Shape.wrapped key item).ofTree room t' = .ok v) : Followed room t t' where
  null := h.eq_null
  value s v hv := by
    cases s with
    | text => exact h.head_bind hv
    | truth => exact h.head_bind hv
    | integer width => exact h.head_bind hv
    | word α => exact h.word α hv
    | json => exact h.json hdistinct hv
    | list item => exact hlist item v hv
    | record name fields => exact hrecord name fields v hv
    | wrapped key item => exact hwrapped key item v hv

/-- What is taken from a tree without repeated keys is taken from each of its respellings. -/
theorem Json.Tree.Respelled.followed {t t' : Tree} (h : t.Respelled t') :
    t.KeysDistinct → ∀ room, Followed room t t' := by
  refine h.induct (P := fun t t' => t.KeysDistinct → ∀ room, Followed room t t') ?_ ?_ ?_ ?_ ?_ ?_
  · exact fun _ _ => ⟨Iff.rfl, fun _ _ => id⟩
  · exact fun _ _ _ => ⟨Iff.rfl, fun _ _ => id⟩
  · exact fun _ _ _ => ⟨Iff.rfl, fun _ _ => id⟩
  · intro l l' h hdistinct room
    have hrespelled : Respelled (.string l) (.string l') := .string h
    refine hrespelled.followed_of hdistinct ?_ ?_ ?_
    · exact fun _ _ hv => absurd hv wrongTree_ne_ok
    · exact fun _ _ _ hv => absurd hv wrongTree_ne_ok
    · exact fun _ _ _ hv => absurd hv wrongTree_ne_ok
  · intro ts ts' h hdistinct room
    have hrespelled : Respelled (.array ts) (.array ts') := .array (h.imp fun _ _ h => h.1)
    cases room with
    | zero => exact hrespelled.followed_of hdistinct nofun nofun nofun
    | succ room =>
      have hitems : List.Forall₂ (Followed room) ts ts' :=
        ((List.forall₂_and_left _ _).2 ⟨KeysDistinctItems.forall hdistinct, h⟩).imp
          fun _ _ h => h.2.2 h.1 room
      refine hrespelled.followed_of hdistinct ?_ ?_ ?_
      · exact fun _ _ hv => followed_mapM hitems hv
      · exact fun _ _ _ hv => followed_ofTrees hitems hv
      · intro key item v hv
        obtain ⟨vs, hvs, hlast⟩ := ok_of_bind hv
        cases hlast
        exact congrArg (· >>= fun vs => Except.ok (some vs)) (followed_mapM hitems hvs)
  · intro ms ms' reordered h hperm hdistinct room
    have hrespelled : Respelled (.object ms) (.object reordered) :=
      .object (h.imp fun _ _ h => respelledMember_iff.2 ⟨h.1, h.2.1⟩) hperm
    cases room with
    | zero =>
      refine hrespelled.followed_of hdistinct ?_ nofun nofun
      exact fun _ _ hv => absurd hv wrongTree_ne_ok
    | succ room =>
      have hmembers : List.Forall₂ (FollowedMember room) ms ms' :=
        ((List.forall₂_and_left _ _).2 ⟨KeysDistinctMembers.forall hdistinct.2, h⟩).imp
          fun _ _ h => ⟨h.2.1, h.2.2.2 h.1 room⟩
      refine hrespelled.followed_of hdistinct ?_ ?_ ?_
      · exact fun _ _ hv => absurd hv wrongTree_ne_ok
      · exact fun _ _ _ hv => followed_recordObject hmembers hperm hv
      · intro key item v hv
        rw [Shape.ofTree_wrappedObject key] at hv ⊢
        obtain ⟨values, hvalues, rfl⟩ := ok_of_map hv
        rw [followed_recordObject hmembers hperm hvalues]
        rfl

end MetricCatalog
