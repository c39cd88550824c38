import MetricCatalog.Proofs.Json.Document

/-!
# Depth — how many brackets of a tree are open at once

Each array and object takes one level of the room that there is, and gives it back where it is closed. So a
tree whose texts and numbers can be kept denotes a document in exactly the rooms that are as large as it is
deep.
-/

namespace MetricCatalog.Json

namespace Tree

mutual

/-- How many arrays and objects of a tree are open at once. -/
def depth : Tree → Nat
  | .array ts => depthOfItems ts + 1
  | .object ms => depthOfMembers ms + 1
  | _ => 0

/-- The greatest depth of the items. -/
def depthOfItems : List Tree → Nat
  | [] => 0
  | t :: ts => max (depth t) (depthOfItems ts)

/-- The greatest depth of the members' values. -/
def depthOfMembers : List (List Literal.Piece × Tree) → Nat
  | [] => 0
  | (_, t) :: ms => max (depth t) (depthOfMembers ms)

end

mutual

/-- All strings and keys of a tree denote texts, and its numbers are within the range of doubles. -/
def Denotes : Tree → Prop
  | .number n => ∃ x, n.numeral.number = .ok x
  | .string l => ∃ s, Literal.text l = .ok s
  | .array ts => DenotesItems ts
  | .object ms => DenotesMembers ms
  | _ => True

/-- So it is with every item. -/
def DenotesItems : List Tree → Prop
  | [] => True
  | t :: ts => Denotes t ∧ DenotesItems ts

/-- So it is with every member. -/
def DenotesMembers : List (List Literal.Piece × Tree) → Prop
  | [] => True
  | (k, t) :: ms => (∃ s, Literal.text k = .ok s) ∧ Denotes t ∧ DenotesMembers ms

end

theorem depthOfItems_le {ts : List Tree} {n : Nat} : depthOfItems ts ≤ n ↔ ∀ t ∈ ts, t.depth ≤ n := by
  induction ts with
  | nil => simp [depthOfItems]
  | cons t ts ih => rw [depthOfItems, Nat.max_le, ih, List.forall_mem_cons]

theorem depthOfMembers_le {ms : List (List Literal.Piece × Tree)} {n : Nat} :
    depthOfMembers ms ≤ n ↔ ∀ m ∈ ms, m.2.depth ≤ n := by
  induction ms with
  | nil => simp [depthOfMembers]
  | cons m ms ih => rw [depthOfMembers, Nat.max_le, ih, List.forall_mem_cons]

theorem denotesItems_iff {ts : List Tree} : DenotesItems ts ↔ ∀ t ∈ ts, t.Denotes := by
  induction ts with
  | nil => simp [DenotesItems]
  | cons t ts ih => simp [DenotesItems, ih]

theorem denotesMembers_iff {ms : List (List Literal.Piece × Tree)} :
    DenotesMembers ms ↔ ∀ m ∈ ms, (∃ s, Literal.text m.1 = .ok s) ∧ m.2.Denotes := by
  induction ms with
  | nil => simp [DenotesMembers]
  | cons m ms ih => rw [DenotesMembers, ih, List.forall_mem_cons, and_assoc]

/-! ## Room for a document -/

/-- The result is there if the room is enough for so many levels, and otherwise they are too many. -/
structure Needs {α : Type} (levels room : Nat) (result : Except Fault α) : Prop where
  taken : levels ≤ room → ∃ a, result = .ok a
  tooDeep : room < levels → result = .error (.malformed .tooDeep)

namespace Needs

variable {α β : Type} {levels room : Nat} {result : Except Fault α}

theorem ok (a : α) : Needs 0 room (.ok a) where
  taken _ := ⟨a, rfl⟩
  tooDeep h := absurd h (Nat.not_lt_zero room)

theorem noRoom : Needs (levels + 1) 0 (.error (.malformed .tooDeep) : Except Fault α) where
  taken h := absurd h (Nat.not_succ_le_zero levels)
  tooDeep _ := rfl

theorem inside (h : Needs levels room result) : Needs (levels + 1) (room + 1) result where
  taken hlevels := h.taken (by omega)
  tooDeep hroom := h.tooDeep (by omega)

theorem map (f : α → β) (h : Needs levels room result) : Needs levels room (result.map f) where
  taken hlevels := by
    obtain ⟨a, rfl⟩ := h.taken hlevels
    exact ⟨f a, rfl⟩
  tooDeep hroom := by
    rw [h.tooDeep hroom]
    rfl

/-- A list needs what the deepest of its elements needs. -/
theorem mapM {f : α → Except Fault β} {deep : α → Nat} {xs : List α}
    (hlevels : levels ≤ room ↔ ∀ x ∈ xs, deep x ≤ room) (h : ∀ x ∈ xs, Needs (deep x) room (f x)) :
    Needs levels room (xs.mapM f) where
  taken hfits := exists_mapM fun x hx => (h x hx).taken (hlevels.1 hfits x hx)
  tooDeep hroom := by
    have hdeep : ¬ ∀ x ∈ xs, deep x ≤ room := fun hall => absurd (hlevels.2 hall) (by omega)
    simp only [not_forall, Nat.not_le] at hdeep
    obtain ⟨x, hx, hx'⟩ := hdeep
    have heither : ∀ z ∈ xs, (∃ y, f z = .ok y) ∨ f z = .error (.malformed .tooDeep) := by
      intro z hz
      by_cases hfits : deep z ≤ room
      · exact .inl ((h z hz).taken hfits)
      · exact .inr ((h z hz).tooDeep (by omega))
    exact mapM_eq_error heither hx ((h x hx).tooDeep hx')

end Needs

/-- With room for all of its brackets a tree denotes a document, and otherwise it is refused for its depth. -/
theorem document_of_denotes {t : Tree} (h : t.Denotes) (room : Nat) : Needs t.depth room (t.document room) := by
  induction t generalizing room with
  | null => exact .ok Json.null
  | boolean b => exact .ok (Json.boolean b)
  | number n =>
    obtain ⟨x, hx⟩ := h
    rw [document, hx]
    exact .ok (Json.number x)
  | string l =>
    obtain ⟨s, hs⟩ := h
    rw [document, hs]
    exact .ok (Json.string s)
  | array ts ih =>
    rw [Denotes, denotesItems_iff] at h
    cases room with
    | zero => exact .noRoom
    | succ room =>
      have hitems : Needs (depthOfItems ts) room (ts.mapM (document room)) :=
        .mapM depthOfItems_le fun t ht => ih t ht (h t ht) room
      rw [document, documents_eq_mapM]
      exact (hitems.map Json.array).inside
  | object ms ih =>
    rw [Denotes, denotesMembers_iff] at h
    cases room with
    | zero => exact .noRoom
    | succ room =>
      have hmembers : Needs (depthOfMembers ms) room (ms.mapM (memberDocument room)) := by
        apply Needs.mapM depthOfMembers_le
        rintro ⟨k, t⟩ hm
        obtain ⟨⟨key, hkey⟩, hdenotes⟩ := h (k, t) hm
        rw [memberDocument_eq_map hkey]
        exact (ih (k, t) hm hdenotes room).map (key, ·)
      rw [document, memberDocuments_eq_mapM]
      exact (hmembers.map Json.object).inside

/-- A tree that denotes a document is no deeper than there is room for. -/
theorem depth_le_of_document {t : Tree} {room : Nat} {doc : Json} (h : t.document room = .ok doc) :
    t.depth ≤ room := by
  induction t generalizing room doc with
  | array ts ih =>
    cases room with
    | zero => cases h
    | succ room =>
      rw [document, documents_eq_mapM] at h
      obtain ⟨docs, hdocs, -⟩ := ok_of_map h
      rw [depth, Nat.add_le_add_iff_right, depthOfItems_le]
      intro t ht
      obtain ⟨doc, -, hdoc⟩ := exists_mem_of_mapM hdocs t ht
      exact ih t ht hdoc
  | object ms ih =>
    cases room with
    | zero => cases h
    | succ room =>
      rw [document, memberDocuments_eq_mapM] at h
      obtain ⟨docs, hdocs, -⟩ := ok_of_map h
      rw [depth, Nat.add_le_add_iff_right, depthOfMembers_le]
      intro m hm
      obtain ⟨member, -, hmember⟩ := exists_mem_of_mapM hdocs m hm
      obtain ⟨key, -, hvalue⟩ := ok_of_bind hmember
      obtain ⟨doc, hdoc, -⟩ := ok_of_bind hvalue
      exact ih m hm hdoc
  | _ => exact Nat.zero_le _

/-- Where a tree is no deeper than there is room for, it does not matter how much room there is. -/
theorem document_eq_of_depth {t : Tree} {less more : Nat} (hless : t.depth ≤ less) (hmore : t.depth ≤ more) :
    t.document less = t.document more := by
  induction t generalizing less more with
  | array ts ih =>
    cases less with
    | zero => cases hless
    | succ less =>
      cases more with
      | zero => cases hmore
      | succ more =>
        rw [depth, Nat.add_le_add_iff_right, depthOfItems_le] at hless hmore
        rw [document, document, documents_eq_mapM, documents_eq_mapM,
          mapM_congr fun t ht => ih t ht (hless t ht) (hmore t ht)]
  | object ms ih =>
    cases less with
    | zero => cases hless
    | succ less =>
      cases more with
      | zero => cases hmore
      | succ more =>
        rw [depth, Nat.add_le_add_iff_right, depthOfMembers_le] at hless hmore
        have hmember : ∀ m ∈ ms, memberDocument less m = memberDocument more m := by
          intro m hm
          rw [memberDocument, memberDocument, ih m hm (hless m hm) (hmore m hm)]
        rw [document, document, memberDocuments_eq_mapM, memberDocuments_eq_mapM, mapM_congr hmember]
  | _ => rfl

end Tree

end MetricCatalog.Json
