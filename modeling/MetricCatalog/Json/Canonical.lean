import MetricCatalog.Json.Basic

/-!
# Canonical documents — sorted objects without repeated keys

A document is canonical if in each of its objects the keys ascend by code points. `Json.canonicalize`
makes any document canonical: of the members with equal keys the last one stays.
-/

namespace MetricCatalog

namespace Json

/-! ## 1. One object -/

/-- Puts a member in its place among sorted ones, unless its key is there already. -/
def insertMember (key : String) (value : Json) : List (String × Json) → List (String × Json)
  | [] => [(key, value)]
  | (k, v) :: rest =>
    if key < k then (key, value) :: (k, v) :: rest
    else if key = k then (k, v) :: rest
    else (k, v) :: insertMember key value rest

/-- The keys ascend strictly. -/
def Ascending (members : List (String × Json)) : Prop := members.Pairwise fun a b => a.1 < b.1

theorem mem_insertMember {key : String} {value : Json} {ms : List (String × Json)} {m : String × Json}
    (h : m ∈ insertMember key value ms) : m = (key, value) ∨ m ∈ ms := by
  induction ms with
  | nil => simpa [insertMember] using h
  | cons a rest ih =>
    obtain ⟨k, v⟩ := a
    simp only [insertMember] at h
    split at h
    · simpa using h
    · split at h
      · exact .inr h
      · rcases List.mem_cons.1 h with h | h
        · exact .inr (h ▸ List.mem_cons_self)
        · exact (ih h).imp_right (List.mem_cons_of_mem _)

theorem Ascending.insertMember {ms : List (String × Json)} (h : Ascending ms) (key : String) (value : Json) :
    Ascending (insertMember key value ms) := by
  induction ms with
  | nil => simp [Ascending, Json.insertMember]
  | cons a rest ih =>
    obtain ⟨k, v⟩ := a
    obtain ⟨hk, hrest⟩ := List.pairwise_cons.1 h
    simp only [Json.insertMember]
    split
    · next hlt =>
      refine List.pairwise_cons.2 ⟨fun m hm => ?_, h⟩
      rcases List.mem_cons.1 hm with rfl | hm
      · exact hlt
      · exact String.lt_trans hlt (hk m hm)
    · next hle =>
      split
      · exact h
      · next hne =>
        refine List.pairwise_cons.2 ⟨fun m hm => ?_, ih hrest⟩
        rcases mem_insertMember hm with rfl | hm
        · exact Std.lt_of_le_of_ne (Std.not_lt.1 hle) (Ne.symm hne)
        · exact hk m hm

/-! ## 2. Whole documents -/

mutual

/-- Every object of the document has ascending keys. -/
def Canonical : Json → Prop
  | .array items => CanonicalItems items
  | .object members => Ascending members ∧ CanonicalMembers members
  | _ => True

/-- Every item is canonical. -/
def CanonicalItems : List Json → Prop
  | [] => True
  | x :: xs => Canonical x ∧ CanonicalItems xs

/-- Every member's value is canonical. -/
def CanonicalMembers : List (String × Json) → Prop
  | [] => True
  | (_, v) :: rest => Canonical v ∧ CanonicalMembers rest

end

mutual

/-- The canonical form of a document. -/
def canonical : Json → Json
  | .array items => .array (canonicalItems items)
  | .object members => .object (canonicalMembers members)
  | j => j

/-- The canonical forms of the items. -/
def canonicalItems : List Json → List Json
  | [] => []
  | x :: xs => canonical x :: canonicalItems xs

/-- The members sorted and made canonical; a member with the key of a later one is dropped. -/
def canonicalMembers : List (String × Json) → List (String × Json)
  | [] => []
  | (k, v) :: rest => insertMember k (canonical v) (canonicalMembers rest)

end

theorem CanonicalMembers.insertMember {ms : List (String × Json)} {key : String} {value : Json}
    (hv : Canonical value) (h : CanonicalMembers ms) : CanonicalMembers (insertMember key value ms) := by
  induction ms with
  | nil => exact ⟨hv, trivial⟩
  | cons a rest ih =>
    obtain ⟨k, v⟩ := a
    simp only [Json.insertMember]
    split
    · exact ⟨hv, h⟩
    · split
      · exact h
      · exact ⟨h.1, ih h.2⟩

theorem ascending_canonicalMembers (ms : List (String × Json)) : Ascending (canonicalMembers ms) := by
  induction ms with
  | nil => simp [Ascending, canonicalMembers]
  | cons a rest ih =>
    obtain ⟨k, v⟩ := a
    exact ih.insertMember k (canonical v)

mutual

theorem canonical_canonical : ∀ j : Json, Canonical (canonical j)
  | .null => trivial
  | .boolean _ => trivial
  | .number _ => trivial
  | .string _ => trivial
  | .array items => by
    simp only [canonical, Canonical]
    exact canonicalItems_canonicalItems items
  | .object members => by
    simp only [canonical, Canonical]
    exact ⟨ascending_canonicalMembers members, canonicalMembers_canonicalMembers members⟩

theorem canonicalItems_canonicalItems : ∀ xs : List Json, CanonicalItems (canonicalItems xs)
  | [] => trivial
  | x :: xs => ⟨canonical_canonical x, canonicalItems_canonicalItems xs⟩

theorem canonicalMembers_canonicalMembers : ∀ ms : List (String × Json), CanonicalMembers (canonicalMembers ms)
  | [] => trivial
  | (_, v) :: rest => (canonicalMembers_canonicalMembers rest).insertMember (canonical_canonical v)

end

end Json

/-- A document in canonical form: what a record keeps of an arbitrary JSON value. -/
structure CanonicalJson where
  toJson : Json
  isCanonical : toJson.Canonical

namespace CanonicalJson

instance : BEq CanonicalJson := ⟨fun a b => a.toJson == b.toJson⟩

/-- The canonical document `null`. -/
def null : CanonicalJson := ⟨.null, trivial⟩

end CanonicalJson

/-- Makes a document canonical. -/
def Json.canonicalize (j : Json) : CanonicalJson := ⟨j.canonical, j.canonical_canonical⟩

end MetricCatalog
