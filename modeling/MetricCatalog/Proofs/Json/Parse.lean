import MetricCatalog.Proofs.Json.Accepted
import MetricCatalog.Json.Refusal

/-!
# Parsing — the document that a whole text spells

`Json.parse` keeps the members of an object in the order of the text, and those with equal keys apart, so
it says more of the text than the canonical document that a record keeps.
-/

namespace MetricCatalog.Json

open Scan Json.Tree

variable {α : Type}

theorem Scan.run_eq_ok {scan : Scan α} {text : Bytes} {a : α} :
    scan.run text = .ok a ↔ ∃ rest, outcome scan.whole text = .ok (a, rest) := by
  unfold run outcome
  cases h : scan.whole text with
  | error f => simp
  | ok r =>
    rcases r with ⟨b, rest⟩
    constructor
    · intro hb
      cases hb
      exact ⟨rest, rfl⟩
    · rintro ⟨rest', hb⟩
      cases hb
      rfl

/-- A whole text is read if only blanks are behind the value. -/
theorem Scan.outcome_whole {scan : Scan α} {text trail : Bytes} {result : Except Fault α}
    (h : outcome scan text = result.map (·, trail)) (htrail : Blank trail) :
    outcome scan.whole text = result.map (·, []) := by
  rw [whole, outcome_bind, h]
  cases result with
  | error e => rfl
  | ok a =>
    show outcome (next? >>= _) trail = _
    rw [outcome_bind, outcome_next_nil htrail]
    rfl

theorem Scan.run_spells {scan : Scan α} {t : Tree} {result : Except Fault α}
    (h : Reads scan t.tokens result) {text : Bytes} (htext : t.Spells text) {a : α} :
    scan.run text = .ok a ↔ result = .ok a := by
  rcases htext with ⟨front, trail, rfl, hfront, htrail⟩
  -- Blanks can stand behind any value, so the scan stops before them.
  rw [run_eq_ok, outcome_whole (h front trail hfront (delimited_blank htrail)) htrail]
  cases result with
  | error e =>
    constructor
    · rintro ⟨_, h⟩
      cases h
    · intro h
      cases h
  | ok b =>
    constructor
    · rintro ⟨_, h⟩
      cases h
      rfl
    · intro h
      cases h
      exact ⟨_, rfl⟩

theorem Scan.whole_inv {scan : Scan α} {text rest : Bytes} {a : α}
    (h : outcome scan.whole text = .ok (a, rest)) :
    ∃ trail, outcome scan text = .ok (a, trail) ∧ Blank trail := by
  rcases bind_eq_ok.1 h with ⟨b, trail, hscan, hmore⟩
  rcases bind_eq_ok.1 hmore with ⟨c, mid, hnext, hmatch⟩
  rcases next_inv hnext with ⟨gap, hgap, rfl, hc⟩
  split at hmatch
  · cases hmatch
    cases rest with
    | nil =>
      rw [List.append_nil] at hscan
      exact ⟨gap, hscan, hgap⟩
    | cons b rest => nomatch hc
  · cases hmatch

/-- The document that a text spells. -/
def parse (text : String) : Except Refusal Json :=
  Scan.run (Json.read depthLimit) (Utf8.encode text.toList)

/-- A text is parsed if and only if it spells a tree that denotes a document within the limit of depth. -/
theorem parse_eq_ok {text : String} {doc : Json} :
    parse text = .ok doc ↔
      ∃ t : Tree, t.Spells (Utf8.encode text.toList) ∧ t.document depthLimit = .ok doc := by
  constructor
  · intro h
    rcases run_eq_ok.1 h with ⟨rest, hwhole⟩
    rcases whole_inv hwhole with ⟨trail, hread, htrail⟩
    rcases finds_read depthLimit _ _ _ hread with ⟨t, front, htext, hfront, hdocument⟩
    exact ⟨t, ⟨front, trail, htext, hfront, htrail⟩, hdocument⟩
  · rintro ⟨t, hspells, hdocument⟩
    exact (run_spells (reads_read t depthLimit) hspells).2 hdocument

end MetricCatalog.Json
