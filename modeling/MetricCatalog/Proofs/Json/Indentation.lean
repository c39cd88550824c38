import MetricCatalog.Proofs.Json.Layouts
import MetricCatalog.Proofs.Text.Split

/-!
# Indentation — documents inside of documents

One level deeper, a document is laid out with two more blanks in front of each of its lines. Line breaks stand
between tokens only, so no text and no number is touched by it.
-/

namespace MetricCatalog.Json

/-! ## 1. Lines -/

/-- The text with two more blanks in front of each of its lines. -/
def indented (text : String) : String := "\n".intercalate ((text.splitOn "\n").map ("  " ++ ·))

/-- The characters with two more blanks behind each line break. -/
def deepened (cs : List Char) : List Char :=
  cs.flatMap fun c => if c = '\n' then ['\n', ' ', ' '] else [c]

theorem deepened_append (a b : List Char) : deepened (a ++ b) = deepened a ++ deepened b :=
  List.flatMap_append

theorem deepened_cons (c : Char) (cs : List Char) : deepened (c :: cs) = deepened [c] ++ deepened cs :=
  deepened_append [c] cs

theorem deepened_eq_self {cs : List Char} (h : '\n' ∉ cs) : deepened cs = cs := by
  induction cs with
  | nil => rfl
  | cons c cs ih =>
    simp only [List.mem_cons, not_or] at h
    have hc : ¬ c = '\n' := fun heq => h.1 heq.symm
    rw [deepened_cons, ih h.2]
    simp [deepened, hc]

theorem intercalate_splitOnP (cs : List Char) :
    ['\n'].intercalate ((cs.splitOnP (· == '\n')).map ([' ', ' '] ++ ·)) = [' ', ' '] ++ deepened cs := by
  induction cs with
  | nil => simp [deepened]
  | cons c cs ih =>
    obtain ⟨first, rest, hparts⟩ := List.exists_cons_of_ne_nil (List.splitOnP_ne_nil (· == '\n') cs)
    rw [hparts] at ih
    rw [List.splitOnP_cons_eq_if_modifyHead, hparts, deepened_cons]
    by_cases hc : c = '\n'
    · simpa [hc, deepened] using ih
    · simpa [hc, deepened] using ih

theorem toList_indented (text : String) : (indented text).toList = [' ', ' '] ++ deepened text.toList := by
  have hsplit : text.splitOn "\n" = (text.toList.splitOnP (· == '\n')).map String.ofList :=
    Text.splitOn_singleton text '\n'
  have hparts : (((text.toList.splitOnP (· == '\n')).map String.ofList).map ("  " ++ ·)).map String.toList =
      (text.toList.splitOnP (· == '\n')).map ([' ', ' '] ++ ·) := by
    simp [List.map_map, Function.comp_def]
  rw [indented, String.toList_intercalate, hsplit, hparts]
  exact intercalate_splitOnP text.toList

/-! ## 2. Documents -/

theorem Tight.deepened_eq {cs : List Char} (h : Tight cs) : deepened cs = cs := by
  apply deepened_eq_self
  intro hmem
  rw [← map_snd_regions .outside cs, List.mem_map] at hmem
  obtain ⟨m, hm, hc⟩ := hmem
  have hcontrol := h.noControl m hm
  rw [hc] at hcontrol
  exact absurd hcontrol (by decide)

namespace Layout

theorem deepened_lineBreak (depth : Nat) :
    deepened (pretty.lineBreak depth) = pretty.lineBreak (depth + 1) := by
  have hblanks : deepened (List.replicate (2 * depth) ' ') = List.replicate (2 * depth) ' ' := by
    apply deepened_eq_self
    intro hmem
    exact absurd (List.eq_of_mem_replicate hmem) (by decide)
  change deepened ('\n' :: List.replicate (2 * depth) ' ') = '\n' :: List.replicate (2 * (depth + 1)) ' '
  rw [deepened_cons, hblanks, show 2 * (depth + 1) = 2 * depth + 1 + 1 by omega, List.replicate_succ,
    List.replicate_succ]
  rfl

theorem deepened_enclose (depth : Nat) {opening closing : Char} (ho : opening ≠ '\n') (hc : closing ≠ '\n')
    (pieces : List (List Char)) :
    deepened (pretty.enclose depth opening closing pieces) =
      pretty.enclose (depth + 1) opening closing (pieces.map deepened) := by
  have hopening : deepened [opening] = [opening] := by simp [deepened, ho]
  have hclosing : deepened [closing] = [closing] := by simp [deepened, hc]
  have hcomma : deepened [','] = [','] := rfl
  cases pieces with
  | nil =>
    rw [enclose, deepened_cons, hopening, hclosing]
    rfl
  | cons p ps =>
    have hrest : deepened (ps.flatMap fun q => ',' :: (pretty.lineBreak (depth + 1) ++ q)) =
        (ps.map deepened).flatMap fun q => ',' :: (pretty.lineBreak (depth + 1 + 1) ++ q) := by
      induction ps with
      | nil => rfl
      | cons q ps ih =>
        rw [List.flatMap_cons, deepened_append, ih, deepened_cons, deepened_append, deepened_lineBreak, hcomma]
        rfl
    rw [enclose, deepened_cons, deepened_append, deepened_append, deepened_append, deepened_append, hrest,
      deepened_lineBreak, deepened_lineBreak, hopening, hclosing]
    rfl

mutual

/-- A document is laid out one level deeper with two more blanks behind each line break. -/
theorem deepened_render : (j : Json) → (depth : Nat) →
    deepened (pretty.render depth j) = pretty.render (depth + 1) j
  | .null, _ => rfl
  | .boolean true, _ => rfl
  | .boolean false, _ => rfl
  | .number n, _ => (bare_renderNumber n).tight.deepened_eq
  | .string s, _ => (tight_literal s).deepened_eq
  | .array js, depth => by
    rw [render, deepened_enclose depth (by decide) (by decide), map_deepened_renderItems js (depth + 1)]
    rfl
  | .object ms, depth => by
    rw [render, deepened_enclose depth (by decide) (by decide), map_deepened_renderMembers ms (depth + 1)]
    rfl

theorem map_deepened_renderItems : (js : List Json) → (depth : Nat) →
    (pretty.renderItems depth js).map deepened = pretty.renderItems (depth + 1) js
  | [], _ => rfl
  | j :: js, depth => by
    rw [renderItems, List.map_cons, deepened_render j depth, map_deepened_renderItems js depth]
    rfl

theorem map_deepened_renderMembers : (ms : List (String × Json)) → (depth : Nat) →
    (pretty.renderMembers depth ms).map deepened = pretty.renderMembers (depth + 1) ms
  | [], _ => rfl
  | (k, j) :: ms, depth => by
    have hkey : deepened (literal k ++ pretty.colon) = literal k ++ pretty.colon := by
      rw [deepened_append, (tight_literal k).deepened_eq]
      rfl
    rw [renderMembers, List.map_cons, deepened_append, hkey, deepened_render j depth,
      map_deepened_renderMembers ms depth]
    rfl

end

end Layout

/-! ## 3. Lists of documents -/

/-- Texts between the brackets of an array, each indented and on lines of its own. -/
def onLines (texts : List String) : String :=
  if texts = [] then "[]" else "[\n" ++ ",\n".intercalate (texts.map indented) ++ "\n]"

theorem intercalate_cons_eq_flatMap {α : Type} (sep first : List α) (rest : List (List α)) :
    sep.intercalate (first :: rest) = first ++ rest.flatMap (sep ++ ·) := by
  induction rest generalizing first with
  | nil => simp
  | cons next rest ih => rw [List.intercalate_cons_cons, ih, List.flatMap_cons, List.append_assoc,
      List.append_assoc]

/-- An array is laid out as the list of its items as they are laid out themselves. -/
theorem pretty_array (js : List Json) : (Json.array js).pretty = onLines (js.map pretty) := by
  cases js with
  | nil => rfl
  | cons j js =>
    have hindented : ∀ j : Json, (indented j.pretty).toList = [' ', ' '] ++ Layout.pretty.render 1 j := by
      intro j
      rw [toList_indented, pretty, String.toList_ofList, Layout.deepened_render]
    have htexts : (((j :: js).map pretty).map indented).map String.toList =
        ([' ', ' '] ++ Layout.pretty.render 1 j) :: js.map fun j => [' ', ' '] ++ Layout.pretty.render 1 j := by
      simp [hindented]
    have hbreaks : Layout.pretty.lineBreak 1 = ['\n', ' ', ' '] ∧ Layout.pretty.lineBreak 0 = ['\n'] := ⟨rfl, rfl⟩
    rw [onLines, if_neg (by simp), ← String.toList_inj, String.toList_append, String.toList_append,
      String.toList_intercalate, htexts, intercalate_cons_eq_flatMap, List.flatMap_map]
    rw [pretty, String.toList_ofList, Layout.render, Layout.renderItems, Layout.enclose,
      Layout.renderItems_eq_map, List.flatMap_map, hbreaks.1, hbreaks.2]
    simp

end MetricCatalog.Json
