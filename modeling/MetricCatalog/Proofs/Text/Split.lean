import Mathlib.Data.String.Basic

/-!
# Splitting — the parts of a text between separators

A text is split by positions in its bytes. Here the parts are told by its characters.
-/

namespace MetricCatalog.Text

open String

/-- A split that has come to `r`, with `m` behind the last separator. -/
theorem splitOnAux_of_valid (c : Char) (l m r : List Char) (done : List String) :
    splitOnAux (ofList (l ++ m ++ r)) (singleton c) ⟨utf8Len l⟩ ⟨utf8Len l + utf8Len m⟩ 0 done =
      done.reverse ++ (List.splitOnPPrepend (· == c) r m.reverse).map ofList := by
  have hget : Pos.Raw.get (singleton c) 0 = c := by simpa using get_of_valid [] [c]
  have hnext : Pos.Raw.next (singleton c) 0 = ⟨c.utf8Size⟩ := by simpa using next_of_valid [] c []
  have hat : Pos.Raw.atEnd (singleton c) ⟨c.utf8Size⟩ = true := by
    rw [show singleton c = ofList [c] by simp, atEnd_iff, rawEndPos_ofList]
    simp
  have hpart := extract_of_valid l m r
  rw [splitOnAux]
  cases r with
  | nil =>
    have hend : Pos.Raw.atEnd (ofList (l ++ m ++ [])) ⟨utf8Len l + utf8Len m⟩ = true := by
      rw [atEnd_iff, rawEndPos_ofList]
      simp
    rw [if_pos hend, hpart]
    simp
  | cons x r =>
    have hend : ¬ Pos.Raw.atEnd (ofList (l ++ m ++ x :: r)) ⟨utf8Len l + utf8Len m⟩ = true := by
      rw [atEnd_iff, rawEndPos_ofList, Pos.Raw.mk_le_mk]
      have hx := x.utf8Size_pos
      simp only [utf8Len_append, utf8Len_cons]
      omega
    have hgetx : Pos.Raw.get (ofList (l ++ m ++ x :: r)) ⟨utf8Len l + utf8Len m⟩ = x := by
      simpa using get_of_valid (l ++ m) (x :: r)
    have hnextx : Pos.Raw.next (ofList (l ++ m ++ x :: r)) ⟨utf8Len l + utf8Len m⟩ =
        ⟨utf8Len l + utf8Len m + x.utf8Size⟩ := by
      simpa using next_of_valid (l ++ m) x r
    rw [if_neg hend, hgetx, hget, hnextx, hnext]
    by_cases hx : x = c
    · subst hx
      have ih := splitOnAux_of_valid x (l ++ m ++ [x]) [] r (ofList m :: done)
      have hback : (⟨utf8Len l + utf8Len m + x.utf8Size⟩ : Pos.Raw).unoffsetBy ⟨x.utf8Size⟩ =
          ⟨utf8Len l + utf8Len m⟩ := by
        simp [Pos.Raw.unoffsetBy]
      simp only [beq_self_eq_true, if_true, hat, hback, hpart]
      simpa [List.splitOnPPrepend_cons_eq_if, Nat.add_assoc] using ih
    · have ih := splitOnAux_of_valid c l (m ++ [x]) r done
      have hback : (⟨utf8Len l + utf8Len m⟩ : Pos.Raw).unoffsetBy 0 = ⟨utf8Len l + utf8Len m⟩ := by
        simp [Pos.Raw.unoffsetBy]
      rw [if_neg (by simpa using hx), hback, hnextx]
      simpa [List.splitOnPPrepend_cons_eq_if, hx, Nat.add_assoc] using ih

theorem splitOn_singleton (text : String) (c : Char) :
    text.splitOn (singleton c) = (text.toList.splitOnP (· == c)).map ofList := by
  have hsep : ¬ (singleton c == "") = true := by simp
  rw [splitOn, if_neg hsep]
  simpa using splitOnAux_of_valid c [] [] text.toList []

theorem splitOn_ne_nil (text : String) (c : Char) : text.splitOn (singleton c) ≠ [] := by
  rw [splitOn_singleton]
  exact fun h => List.splitOnP_ne_nil _ _ (List.map_eq_nil_iff.1 h)

theorem splitOnP_append {α : Type} {p : α → Bool} {front : List α} (h : ∀ x ∈ front, ¬ p x = true)
    (l : List α) : (front ++ l).splitOnP p = (l.splitOnP p).modifyHead (front ++ ·) := by
  obtain ⟨first, rest, hl⟩ := List.exists_cons_of_ne_nil (List.splitOnP_ne_nil p l)
  rw [hl, List.modifyHead_cons]
  induction front with
  | nil => exact hl
  | cons x front ih =>
    rw [List.forall_mem_cons] at h
    rw [List.cons_append, List.splitOnP_cons_eq_if_modifyHead, if_neg h.1, ih h.2, List.modifyHead_cons]
    rfl

/-- A front without the separator stays in front of the first part. -/
theorem splitOn_append {front : String} {c : Char} (h : c ∉ front.toList) (text : String) :
    (front ++ text).splitOn (singleton c) = (text.splitOn (singleton c)).modifyHead (front ++ ·) := by
  have hfront : ∀ x ∈ front.toList, ¬ (x == c) = true := by
    intro x hx heq
    rw [← eq_of_beq heq] at h
    exact h hx
  obtain ⟨first, rest, hparts⟩ := List.exists_cons_of_ne_nil (List.splitOnP_ne_nil (· == c) text.toList)
  rw [splitOn_singleton, splitOn_singleton, String.toList_append, splitOnP_append hfront, hparts]
  simp

/-- A text without the separator is its only part. -/
theorem splitOn_eq_single {text : String} {c : Char} (h : c ∉ text.toList) :
    text.splitOn (singleton c) = [text] := by
  have happend := splitOn_append h ""
  rw [String.append_empty] at happend
  rw [happend, splitOn_singleton]
  simp

end MetricCatalog.Text
