import MetricCatalog.Json.Canonical

/-!
# Canonical forms — what they keep of a document

Of the members with one key the canonical form keeps the last one, so nothing is lost where no key is
repeated.
-/

namespace MetricCatalog.Json

/-- A member with its value in canonical form. -/
def canonicalMember (m : String × Json) : String × Json := (m.1, m.2.canonical)

theorem canonicalItems_eq_map (xs : List Json) : canonicalItems xs = xs.map canonical := by
  induction xs with
  | nil => rfl
  | cons x xs ih => rw [canonicalItems, ih, List.map_cons]

/-! ## 1. Members under one key -/

theorem filter_cons_self (key : String) (j : Json) (ms : List (String × Json)) :
    ((key, j) :: ms).filter (·.1 = key) = (key, j) :: ms.filter (·.1 = key) :=
  List.filter_cons_of_pos (decide_eq_true rfl)

theorem filter_cons_other {k key : String} (h : k ≠ key) (j : Json) (ms : List (String × Json)) :
    ((k, j) :: ms).filter (·.1 = key) = ms.filter (·.1 = key) :=
  List.filter_cons_of_neg (by simpa using h)

theorem filter_eq_nil_of_lt {key : String} {ms : List (String × Json)} (h : ∀ m ∈ ms, key < m.1) :
    ms.filter (·.1 = key) = [] := by
  rw [List.filter_eq_nil_iff]
  intro m hm hkey
  have hlt := h m hm
  rw [of_decide_eq_true hkey] at hlt
  exact String.lt_irrefl key hlt

/-- Among sorted members, one that is put in its place is found under its key if the key was not there. -/
theorem filter_insertMember_self {ms : List (String × Json)} (h : Ascending ms) (key : String)
    (value : Json) :
    (insertMember key value ms).filter (·.1 = key) =
      if ms.filter (·.1 = key) = [] then [(key, value)] else ms.filter (·.1 = key) := by
  induction ms with
  | nil =>
    rw [insertMember, filter_cons_self]
    rfl
  | cons m ms ih =>
    rcases m with ⟨k, v⟩
    rcases List.pairwise_cons.1 h with ⟨hk, hms⟩
    rw [insertMember]
    by_cases hlt : key < k
    · -- All keys from here on are greater, so the key was not there.
      have hnone : ((k, v) :: ms).filter (·.1 = key) = [] := by
        refine filter_eq_nil_of_lt fun m hm => ?_
        rcases List.mem_cons.1 hm with rfl | hm
        · exact hlt
        · exact String.lt_trans hlt (hk m hm)
      rw [if_pos hlt, filter_cons_self, hnone, if_pos rfl]
    · rw [if_neg hlt]
      by_cases heq : key = k
      · subst heq
        rw [if_pos rfl, filter_cons_self, if_neg (List.cons_ne_nil _ _)]
      · rw [if_neg heq, filter_cons_other (Ne.symm heq), filter_cons_other (Ne.symm heq), ih hms]

theorem filter_insertMember_other {k key : String} (hk : k ≠ key) (value : Json)
    (ms : List (String × Json)) :
    (insertMember k value ms).filter (·.1 = key) = ms.filter (·.1 = key) := by
  induction ms with
  | nil => exact filter_cons_other hk value []
  | cons m ms ih =>
    rcases m with ⟨k', v⟩
    rw [insertMember]
    by_cases hlt : k < k'
    · rw [if_pos hlt, filter_cons_other hk]
    · rw [if_neg hlt]
      by_cases heq : k = k'
      · rw [if_pos heq]
      · rw [if_neg heq, List.filter_cons, List.filter_cons, ih]

/-- Under each key the canonical form has the last of the members. -/
theorem filter_canonicalMembers (key : String) (ms : List (String × Json)) :
    (canonicalMembers ms).filter (·.1 = key) =
      ((ms.filter (·.1 = key)).getLast?.map canonicalMember).toList := by
  induction ms with
  | nil => rfl
  | cons m ms ih =>
    rcases m with ⟨k, v⟩
    rw [canonicalMembers]
    -- The members behind are put in before this one, so it stays only if none of them has its key.
    by_cases hk : k = key
    · subst hk
      rw [filter_insertMember_self (ascending_canonicalMembers ms), ih, filter_cons_self]
      cases ms.filter (·.1 = k) with
      | nil => rfl
      | cons m' more =>
        rw [if_neg, List.getLast?_cons_cons]
        rw [List.getLast?_cons]
        exact List.cons_ne_nil _ _
    · rw [filter_insertMember_other hk, ih, filter_cons_other hk]

/-! ## 2. Distinct keys -/

mutual

/-- No object of the document repeats a key. -/
def KeysDistinct : Json → Prop
  | .array items => KeysDistinctItems items
  | .object members => (members.map Prod.fst).Nodup ∧ KeysDistinctMembers members
  | _ => True

/-- No item repeats a key. -/
def KeysDistinctItems : List Json → Prop
  | [] => True
  | x :: xs => KeysDistinct x ∧ KeysDistinctItems xs

/-- No member's value repeats a key. -/
def KeysDistinctMembers : List (String × Json) → Prop
  | [] => True
  | (_, v) :: rest => KeysDistinct v ∧ KeysDistinctMembers rest

end

theorem KeysDistinctItems.forall {xs : List Json} (h : KeysDistinctItems xs) :
    ∀ x ∈ xs, x.KeysDistinct := by
  induction xs with
  | nil => exact nofun
  | cons x xs ih => exact List.forall_mem_cons.2 ⟨h.1, ih h.2⟩

theorem KeysDistinctMembers.forall {ms : List (String × Json)} (h : KeysDistinctMembers ms) :
    ∀ m ∈ ms, m.2.KeysDistinct := by
  induction ms with
  | nil => exact nofun
  | cons m ms ih => exact List.forall_mem_cons.2 ⟨h.1, ih h.2⟩

theorem perm_insertMember {key : String} {ms : List (String × Json)} (h : key ∉ ms.map Prod.fst)
    (value : Json) :
    (insertMember key value ms).Perm ((key, value) :: ms) := by
  induction ms with
  | nil => exact .refl _
  | cons m ms ih =>
    rcases m with ⟨k, v⟩
    rw [List.map_cons, List.mem_cons, not_or] at h
    rw [insertMember]
    by_cases hlt : key < k
    · rw [if_pos hlt]
    · rw [if_neg hlt, if_neg h.1]
      exact ((ih h.2).cons (k, v)).trans (.swap _ _ _)

/-- If no key is repeated, the canonical form has all members. -/
theorem perm_canonicalMembers {ms : List (String × Json)} (h : (ms.map Prod.fst).Nodup) :
    (canonicalMembers ms).Perm (ms.map canonicalMember) := by
  induction ms with
  | nil => exact .refl _
  | cons m ms ih =>
    rcases m with ⟨k, v⟩
    rw [List.map_cons, List.nodup_cons] at h
    have hperm := ih h.2
    -- The first key is new among the sorted members, so it is put in and replaces nothing.
    have hk : k ∉ (canonicalMembers ms).map Prod.fst := by
      rw [(hperm.map Prod.fst).mem_iff, List.map_map]
      exact h.1
    exact (perm_insertMember hk v.canonical).trans (hperm.cons _)

/-- If no key is repeated, there is at most one member under each. -/
theorem filter_of_nodup (key : String) {ms : List (String × Json)} (h : (ms.map Prod.fst).Nodup) :
    ms.filter (·.1 = key) = [] ∨ ∃ j, ms.filter (·.1 = key) = [(key, j)] := by
  induction ms with
  | nil => exact .inl rfl
  | cons m ms ih =>
    rcases m with ⟨k, j⟩
    rw [List.map_cons, List.nodup_cons] at h
    by_cases hk : k = key
    · subst hk
      refine .inr ⟨j, ?_⟩
      rw [filter_cons_self, List.filter_eq_nil_iff.2]
      intro m hm hkey
      have hmem : m.1 ∈ ms.map Prod.fst := List.mem_map_of_mem hm
      rw [of_decide_eq_true hkey] at hmem
      exact h.1 hmem
    · rw [filter_cons_other hk]
      exact ih h.2

theorem lookup_eq_head? (key : String) (ms : List (String × Json)) :
    ms.lookup key = (ms.filter (·.1 = key)).head?.map Prod.snd := by
  induction ms with
  | nil => rfl
  | cons m ms ih =>
    rcases m with ⟨k, j⟩
    by_cases hk : k = key
    · subst hk
      rw [List.lookup_cons_self, filter_cons_self]
      rfl
    · rw [List.lookup_cons, beq_false_of_ne (Ne.symm hk), filter_cons_other hk, ih]

theorem KeysDistinctMembers.lookup {ms : List (String × Json)} (h : KeysDistinctMembers ms)
    (key : String) :
    ∀ j ∈ ms.lookup key, j.KeysDistinct := by
  intro j hj
  rw [lookup_eq_head?, Option.mem_def, Option.map_eq_some_iff] at hj
  rcases hj with ⟨m, hm, rfl⟩
  exact h.forall m (List.mem_filter.1 (List.mem_of_head? hm)).1

/-! ## 3. Documents that are canonical already -/

theorem insertMember_of_lt {key : String} {value : Json} {ms : List (String × Json)}
    (h : ∀ m ∈ ms, key < m.1) :
    insertMember key value ms = (key, value) :: ms := by
  cases ms with
  | nil => rfl
  | cons m ms =>
    rw [insertMember, if_pos (h m List.mem_cons_self)]

mutual

/-- A canonical document is its own canonical form. -/
theorem Canonical.canonical_eq : {j : Json} → j.Canonical → j.canonical = j
  | .null, _ => rfl
  | .boolean _, _ => rfl
  | .number _, _ => rfl
  | .string _, _ => rfl
  | .array _, h => congrArg Json.array (CanonicalItems.canonicalItems_eq h)
  | .object _, h => congrArg Json.object (CanonicalMembers.canonicalMembers_eq h.1 h.2)

theorem CanonicalItems.canonicalItems_eq : {xs : List Json} → CanonicalItems xs → canonicalItems xs = xs
  | [], _ => rfl
  | x :: xs, h => by
    rw [canonicalItems, Canonical.canonical_eq h.1, CanonicalItems.canonicalItems_eq h.2]

theorem CanonicalMembers.canonicalMembers_eq : {ms : List (String × Json)} → Ascending ms →
    CanonicalMembers ms →
    canonicalMembers ms = ms
  | [], _, _ => rfl
  | (k, v) :: ms, hascending, h => by
    rcases List.pairwise_cons.1 hascending with ⟨hk, hms⟩
    rw [canonicalMembers, Canonical.canonical_eq h.1, CanonicalMembers.canonicalMembers_eq hms h.2,
      insertMember_of_lt hk]

end

theorem canonical_idem (j : Json) : j.canonical.canonical = j.canonical :=
  j.canonical_canonical.canonical_eq

end MetricCatalog.Json
