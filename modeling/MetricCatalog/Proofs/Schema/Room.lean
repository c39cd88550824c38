import MetricCatalog.Proofs.Json.Depth
import MetricCatalog.Proofs.Schema.Decoded

/-!
# Room — how much of it a shape needs

A value of a shape that holds no arbitrary document nests only so deep, and members under unknown keys are
passed over at any depth. Such a shape takes the same from a tree, or refuses it for the same fault, in
whatever room there is beyond its own depth. Any shape does so with a tree that is no deeper than there is
room for.
-/

namespace MetricCatalog

open Json Json.Tree Shape

variable {α : Type}

/-! ## 1. Shapes that nest only so deep -/

theorem listOfTree_room {item : Nat → Tree → Except Fault α} {less more : Nat} (h : item less = item more)
    (t : Tree) : listOfTree (less + 1) item t = listOfTree (more + 1) item t := by
  cases t with
  | array ts => exact congrArg (ts.mapM ·) h
  | _ => rfl

/-- A word that is spelled as an object takes one bracket. -/
theorem wordOfTree_room (α : Type) [Vocabulary α] (less more : Nat) (t : Tree) :
    wordOfTree α (less + 1) t = wordOfTree α (more + 1) t := by
  cases t <;> rfl

mutual

/-- More room than a value can fill changes nothing. One bracket is left for the spelling of a word. -/
theorem Shape.ofTree_room : (s : Shape) → (room : Nat) → s.fits room → (extra : Nat) → (t : Tree) →
    s.ofTree (extra + (room + 1)) t = s.ofTree (room + 1) t
  | .text, _, _, _, _ => rfl
  | .truth, _, _, _, _ => rfl
  | .integer _, _, _, _, _ => rfl
  | @Shape.word α _, room, _, extra, t => wordOfTree_room α (extra + room) room t
  | .json, _, h, _, _ => nomatch h
  | .list _, 0, h, _, _ => nomatch h
  | .list item, room + 1, h, extra, t => listOfTree_room (funext (item.ofTree_room room h extra)) t
  | .record _ _, 0, h, _, _ => nomatch h
  | .record name fields, room + 1, h, extra, t => by
    cases t with
    | object ms =>
      change fields.foldTrees (extra + (room + 1)) ms >>= fields.complete =
        fields.foldTrees (room + 1) ms >>= fields.complete
      have hput : ∀ (found : fields.Filling) (m : List Literal.Piece × Tree),
          (do fields.putTree (extra + (room + 1)) (← Literal.text m.1) m.2 found) =
            (do fields.putTree (room + 1) (← Literal.text m.1) m.2 found) :=
        fun found m => congrArg _ (funext fun k => fields.putTree_room room h extra k m.2 found)
      rw [Fields.foldTrees, Fields.foldTrees, funext fun found => funext (hput found)]
    | array ts => exact Fields.ofTrees_room name fields.size fields room h extra ts 0
    | _ => rfl
  | .wrapped _ _, 0, h, _, _ => nomatch h
  | .wrapped _ _, 1, h, _, _ => nomatch h
  | .wrapped key item, room + 2, h, extra, t => by
    have hitem : ∀ extra, item.ofTree (extra + (room + 1)) = item.ofTree (room + 1) :=
      fun extra => funext (item.ofTree_room room h extra)
    cases t with
    | object ms =>
      change foldUnder key (orNullOfTree (listOfTree (extra + (room + 1) + 1) fun room => item.ofTree room)) ms
          >>= (fun found => .ok (found.getD none)) =
        foldUnder key (orNullOfTree (listOfTree (room + 1 + 1) fun room => item.ofTree room)) ms
          >>= fun found => .ok (found.getD none)
      rw [funext (@listOfTree_room _ (fun room => item.ofTree room) _ _ (hitem extra))]
    | array ts =>
      -- The bare list leaves the items one bracket more.
      have hmore : item.ofTree (extra + (room + 2)) = item.ofTree (room + 2) := by
        rw [show extra + (room + 2) = extra + 1 + (room + 1) by omega, hitem,
          show room + 2 = 1 + (room + 1) by omega, hitem]
      change (do return some (← ts.mapM (item.ofTree (extra + (room + 2))))) =
        (do return some (← ts.mapM (item.ofTree (room + 2))))
      rw [hmore]
    | _ => rfl

theorem Field.ofTree_room : (f : Field) → (room : Nat) → f.fits room → (extra : Nat) → (t : Tree) →
    f.ofTree (extra + (room + 1)) t = f.ofTree (room + 1) t
  | .required shape, room, h, extra, t => shape.ofTree_room room h extra t
  | .nullable shape, room, h, extra, t =>
    congrArg (orNullOfTree · t) (funext (shape.ofTree_room room h extra))
  | .optional shape, room, h, extra, t =>
    congrArg (orNullOfTree · t) (funext (shape.ofTree_room room h extra))
  | .sparse shape, room, h, extra, t =>
    congrArg (orNullOfTree · t) (funext (shape.ofTree_room room h extra))
  | .flag, _, _, _, _ => rfl
  | .listing _, 0, h, _, _ => nomatch h
  | .listing item, room + 1, h, extra, t => listOfTree_room (funext (item.ofTree_room room h extra)) t

theorem Fields.putTree_room : (fs : Fields) → (room : Nat) → fs.fits room → (extra : Nat) → (k : String) →
    (t : Tree) → (found : fs.Filling) →
    fs.putTree (extra + (room + 1)) k t found = fs.putTree (room + 1) k t found
  | .nil, _, _, _, _, _, _ => rfl
  | .cons key field rest, room, h, extra, k, t, (found, more) => by
    obtain ⟨hfield, hrest⟩ := Bool.and_eq_true_iff.1 h
    rw [Fields.putTree, Fields.putTree, field.ofTree_room room hfield extra,
      rest.putTree_room room hrest extra]

theorem Fields.ofTrees_room (name : String) (size : Nat) : (fs : Fields) → (room : Nat) → fs.fits room →
    (extra : Nat) → (ts : List Tree) → (index : Nat) →
    fs.ofTrees name size (extra + (room + 1)) ts index = fs.ofTrees name size (room + 1) ts index
  | .nil, _, _, _, [], _ => rfl
  | .nil, _, _, _, _ :: _, _ => rfl
  | .cons _ _ _, _, _, _, [], _ => rfl
  | .cons key field rest, room, h, extra, t :: ts, index => by
    obtain ⟨hfield, hrest⟩ := Bool.and_eq_true_iff.1 h
    rw [Fields.ofTrees, Fields.ofTrees, field.ofTree_room room hfield extra,
      Fields.ofTrees_room name size rest room hrest extra]

end

theorem Shape.ofTree_eq_of_fits {s : Shape} {room less more : Nat} (h : s.fits room) (hless : room < less)
    (hmore : room < more) (t : Tree) : s.ofTree less t = s.ofTree more t := by
  obtain ⟨extra, rfl⟩ := Nat.exists_eq_add_of_le' hless
  obtain ⟨extra', rfl⟩ := Nat.exists_eq_add_of_le' hmore
  exact (s.ofTree_room room h extra t).trans (s.ofTree_room room h extra' t).symm

/-! ## 2. Trees that nest only so deep -/

/-- What a bracket encloses has one level less of room. -/
theorem within_eq_of_depth {body : Nat → Except Fault α} {deep less more : Nat}
    (hbody : ∀ less more, deep ≤ less → deep ≤ more → body less = body more) (hless : deep + 1 ≤ less)
    (hmore : deep + 1 ≤ more) : within less body = within more body := by
  cases less with
  | zero => cases hless
  | succ less =>
    cases more with
    | zero => cases hmore
    | succ more => exact hbody less more (by omega) (by omega)

theorem listOfTree_eq_of_depth {item : Nat → Tree → Except Fault α}
    (hitem : ∀ less more t, t.depth ≤ less → t.depth ≤ more → item less t = item more t) {t : Tree}
    {less more : Nat} (hless : t.depth ≤ less) (hmore : t.depth ≤ more) :
    listOfTree less item t = listOfTree more item t := by
  cases t with
  | array ts =>
    apply within_eq_of_depth _ hless hmore
    intro less more hless hmore
    rw [Tree.depthOfItems_le] at hless hmore
    exact mapM_congr fun t ht => hitem less more t (hless t ht) (hmore t ht)
  | _ => rfl

theorem wordOfTree_eq_of_depth (α : Type) [Vocabulary α] {t : Tree} {less more : Nat} (hless : t.depth ≤ less)
    (hmore : t.depth ≤ more) : wordOfTree α less t = wordOfTree α more t := by
  cases t with
  | object ms => exact within_eq_of_depth (fun _ _ _ _ => rfl) hless hmore
  | _ => rfl

theorem orNullOfTree_eq {value value' : Tree → Except Fault α} {t : Tree} (h : value t = value' t) :
    orNullOfTree value t = orNullOfTree value' t := by
  by_cases ht : t = .null
  · rw [ht]
    rfl
  · rw [orNullOfTree_of_ne_null ht, orNullOfTree_of_ne_null ht, h]

mutual

/-- It does not matter to any shape how much room there is beyond the depth of a tree. -/
theorem Shape.ofTree_eq_of_depth : (s : Shape) → (less more : Nat) → (t : Tree) → t.depth ≤ less →
    t.depth ≤ more → s.ofTree less t = s.ofTree more t
  | .text, _, _, _, _, _ => rfl
  | .truth, _, _, _, _, _ => rfl
  | .integer _, _, _, _, _, _ => rfl
  | @Shape.word α _, _, _, _, hless, hmore => wordOfTree_eq_of_depth α hless hmore
  | .json, less, more, t, hless, hmore => by
    rw [Shape.ofTree, Shape.ofTree, document_eq_of_depth hless hmore]
  | .list item, _, _, _, hless, hmore => listOfTree_eq_of_depth item.ofTree_eq_of_depth hless hmore
  | .record name fields, less, more, t, hless, hmore => by
    cases t with
    | object ms =>
      apply within_eq_of_depth _ hless hmore
      intro less more hless hmore
      rw [Tree.depthOfMembers_le] at hless hmore
      have hput : ∀ (found : fields.Filling), ∀ m ∈ ms,
          (do fields.putTree less (← Literal.text m.1) m.2 found) =
            (do fields.putTree more (← Literal.text m.1) m.2 found) := by
        intro found m hm
        apply congrArg
        ext k
        rw [fields.putTree_eq_of_depth less more k m.2 (hless m hm) (hmore m hm)]
      change fields.foldTrees less ms >>= fields.complete = fields.foldTrees more ms >>= fields.complete
      rw [Fields.foldTrees, Fields.foldTrees, foldlM_congr hput]
    | array ts =>
      apply within_eq_of_depth _ hless hmore
      intro less more hless hmore
      rw [Tree.depthOfItems_le] at hless hmore
      exact Fields.ofTrees_eq_of_depth name fields.size fields less more ts hless hmore 0
    | _ => rfl
  | .wrapped key item, less, more, t, hless, hmore => by
    cases t with
    | object ms =>
      apply within_eq_of_depth _ hless hmore
      intro less more hless hmore
      rw [Tree.depthOfMembers_le] at hless hmore
      have htake : ∀ (found : Option (Option (List item.Value))), ∀ m ∈ ms,
          takeMember key (orNullOfTree (listOfTree less fun room => item.ofTree room)) found m =
            takeMember key (orNullOfTree (listOfTree more fun room => item.ofTree room)) found m := by
        intro found m hm
        rw [takeMember, takeMember, orNullOfTree_eq
          (listOfTree_eq_of_depth item.ofTree_eq_of_depth (hless m hm) (hmore m hm))]
      change (ms.foldlM (takeMember key _) none >>= fun found => .ok (found.getD none)) =
        ms.foldlM (takeMember key _) none >>= fun found => .ok (found.getD none)
      rw [foldlM_congr htake]
    | array ts =>
      apply within_eq_of_depth _ hless hmore
      intro less more hless hmore
      rw [Tree.depthOfItems_le] at hless hmore
      rw [mapM_congr fun t ht => item.ofTree_eq_of_depth less more t (hless t ht) (hmore t ht)]
    | _ => rfl

theorem Field.ofTree_eq_of_depth : (f : Field) → (less more : Nat) → (t : Tree) → t.depth ≤ less →
    t.depth ≤ more → f.ofTree less t = f.ofTree more t
  | .required shape, less, more, t, hless, hmore => shape.ofTree_eq_of_depth less more t hless hmore
  | .nullable shape, less, more, t, hless, hmore =>
    orNullOfTree_eq (shape.ofTree_eq_of_depth less more t hless hmore)
  | .optional shape, less, more, t, hless, hmore =>
    orNullOfTree_eq (shape.ofTree_eq_of_depth less more t hless hmore)
  | .sparse shape, less, more, t, hless, hmore =>
    orNullOfTree_eq (shape.ofTree_eq_of_depth less more t hless hmore)
  | .flag, _, _, _, _, _ => rfl
  | .listing item, _, _, _, hless, hmore => listOfTree_eq_of_depth item.ofTree_eq_of_depth hless hmore

theorem Fields.putTree_eq_of_depth : (fs : Fields) → (less more : Nat) → (k : String) → (t : Tree) →
    t.depth ≤ less → t.depth ≤ more → fs.putTree less k t = fs.putTree more k t
  | .nil, _, _, _, _, _, _ => rfl
  | .cons key field rest, less, more, k, t, hless, hmore => by
    ext ⟨found, more'⟩
    rw [Fields.putTree, Fields.putTree, field.ofTree_eq_of_depth less more t hless hmore,
      rest.putTree_eq_of_depth less more k t hless hmore]

theorem Fields.ofTrees_eq_of_depth (name : String) (size : Nat) : (fs : Fields) → (less more : Nat) →
    (ts : List Tree) → (∀ t ∈ ts, t.depth ≤ less) → (∀ t ∈ ts, t.depth ≤ more) → (index : Nat) →
    fs.ofTrees name size less ts index = fs.ofTrees name size more ts index
  | .nil, _, _, [], _, _, _ => rfl
  | .nil, _, _, _ :: _, _, _, _ => rfl
  | .cons _ _ _, _, _, [], _, _, _ => rfl
  | .cons key field rest, less, more, t :: ts, hless, hmore, index => by
    rw [List.forall_mem_cons] at hless hmore
    rw [Fields.ofTrees, Fields.ofTrees, field.ofTree_eq_of_depth less more t hless.1 hmore.1,
      Fields.ofTrees_eq_of_depth name size rest less more ts hless.2 hmore.2]

end

end MetricCatalog
