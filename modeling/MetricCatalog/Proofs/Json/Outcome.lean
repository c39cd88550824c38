import MetricCatalog.Proofs.Json.Steps
import MetricCatalog.Proofs.Json.Tree

/-!
# Outcomes — what a scan answers, places left aside

`Scan.outcome` forgets the place of a failure. It turns the sequencing of scans into that of `Except`, so
what a scan does on the tokens of a tree can be computed from its parts. `Reads` says that a scan reads
exactly some tokens, however they are laid out.
-/

namespace MetricCatalog.Json

/-! ## 1. Scans -/

namespace Scan

variable {α β σ : Type}

/-- What a scan answers on some bytes, and the bytes behind it. -/
def outcome (scan : Scan α) (bytes : Bytes) : Except Fault (α × Bytes) :=
  match scan bytes with
  | .ok r => .ok r
  | .error e => .error e.fault

@[simp] theorem outcome_pure (a : α) (bs : Bytes) : outcome (pure a) bs = .ok (a, bs) := rfl

@[simp] theorem outcome_bind (x : Scan α) (f : α → Scan β) (bs : Bytes) :
    outcome (x >>= f) bs = outcome x bs >>= fun r => outcome (f r.1) r.2 := by
  unfold outcome
  show (match (x bs >>= fun r => f r.1 r.2 : Except Failure _) with | .ok r => _ | .error e => _) = _
  cases x bs <;> rfl

/-- Once it is known what a step answers, the scan goes on with that. -/
theorem outcome_seq {x : Scan α} {a : α} {bs rest : Bytes} (h : outcome x bs = .ok (a, rest))
    (f : α → Scan β) :
    outcome (x >>= f) bs = outcome (f a) rest := by
  rw [outcome_bind, h]
  rfl

@[simp] theorem outcome_advance (b : UInt8) (bs : Bytes) :
    outcome advance (b :: bs) = .ok ((), bs) := rfl

@[simp] theorem outcome_take (b : UInt8) (bs : Bytes) :
    outcome take? (b :: bs) = .ok (some (ascii b), bs) := rfl

@[simp] theorem outcome_peek (b : UInt8) (bs : Bytes) :
    outcome peek? (b :: bs) = .ok (some (ascii b), b :: bs) := rfl

theorem outcome_withFuel (loop : Bytes → Scan α) (bs : Bytes) :
    outcome (withFuel loop) bs = outcome (loop (0 :: bs)) bs := rfl

theorem dropWhile_blank {gap : Bytes} (h : Blank gap) (bs : Bytes) :
    (gap ++ bs).dropWhile isBlank = bs.dropWhile isBlank := by
  induction gap with
  | nil => rfl
  | cons b gap ih =>
    rw [List.cons_append, List.dropWhile_cons_of_pos (h b List.mem_cons_self)]
    exact ih fun c hc => h c (List.mem_cons_of_mem _ hc)

/-- Blanks in front are passed over, and what comes next is seen. -/
theorem outcome_next {gap : Bytes} {b : UInt8} (h : Blank gap) (hb : isBlank b = false) (bs : Bytes) :
    outcome next? (gap ++ b :: bs) = .ok (some (ascii b), b :: bs) := by
  show Except.ok (((gap ++ b :: bs).dropWhile isBlank).head?.map ascii,
    (gap ++ b :: bs).dropWhile isBlank) = _
  rw [dropWhile_blank h, List.dropWhile_cons_of_neg (by rw [hb]; decide)]
  rfl

/-- At the end of the text nothing comes next. -/
theorem outcome_next_nil {gap : Bytes} (h : Blank gap) : outcome next? gap = .ok (none, []) := by
  show Except.ok ((gap.dropWhile isBlank).head?.map ascii, gap.dropWhile isBlank) = _
  rw [show gap.dropWhile isBlank = [] by simpa using dropWhile_blank h []]
  rfl

end Scan

open Scan

/-- The first of some tokens comes next. -/
theorem Laid.next {b : UInt8} {bs front : Bytes} {tokens : List Bytes}
    (h : Laid ((b :: bs) :: tokens) front) (hb : isBlank b = false) (rest : Bytes) :
    ∃ front', outcome next? (front ++ rest) = .ok (some (ascii b), b :: (bs ++ (front' ++ rest))) ∧
      Laid tokens front' := by
  rcases h.cons_inv with ⟨gap, front', rfl, hgap, hrest⟩
  refine ⟨front', ?_, hrest⟩
  rw [List.append_assoc, List.append_assoc, List.cons_append, outcome_next hgap hb]

/-! ## 2. Values

A number ends where no digit, point or exponent follows, so a value is read as it stands only if what
follows it is a blank, a comma, a closing bracket or the end of the text.
-/

/-- What follows can stand behind a value. -/
def Delimited (rest : Bytes) : Prop :=
  ∀ b ∈ rest.head?, isBlank b = true ∨ b = 0x2C ∨ b = 0x5D ∨ b = 0x7D

theorem delimited_blank {trail : Bytes} (h : Blank trail) : Delimited trail :=
  fun b hb => .inl (h b (List.mem_of_mem_head? hb))

theorem Laid.delimited {b : UInt8} {bs front : Bytes} {tokens : List Bytes}
    (h : Laid ((b :: bs) :: tokens) front) (hb : b = 0x2C ∨ b = 0x5D ∨ b = 0x7D) (rest : Bytes) :
    Delimited (front ++ rest) := by
  rcases h.cons_inv with ⟨gap, front', rfl, hgap, -⟩
  intro c hc
  -- What stands in front is the first blank before the token, or else the token itself.
  cases gap with
  | nil =>
    obtain rfl : b = c := by simpa using hc
    exact .inr hb
  | cons d gap =>
    obtain rfl : d = c := by simpa using hc
    exact .inl (hgap d List.mem_cons_self)

/-- The scan reads exactly these tokens with this result, whatever blanks are between them. -/
def Reads {α : Type} (scan : Scan α) (tokens : List Bytes) (result : Except Fault α) : Prop :=
  ∀ front rest, Laid tokens front → Delimited rest → outcome scan (front ++ rest) = result.map (·, rest)

/-- The colon behind a key. -/
theorem Laid.outcome_colon {front : Bytes} {tokens : List Bytes} (h : Laid ([0x3A] :: tokens) front)
    (rest : Bytes) :
    ∃ front', outcome colon (front ++ rest) = .ok ((), front' ++ rest) ∧ Laid tokens front' := by
  rcases h.next rfl rest with ⟨front', hnext, hrest⟩
  refine ⟨front', ?_, hrest⟩
  unfold colon
  rw [outcome_bind, hnext]
  rfl

/-- The letters of a name behind its first one. -/
theorem outcome_identifier (cs : List Char) (bs rest : Bytes) (h : bs.map ascii = cs) :
    outcome (identifier cs) (bs ++ rest) = .ok ((), rest) := by
  -- One byte is taken for each letter.
  induction cs generalizing bs with
  | nil =>
    rw [List.map_eq_nil_iff.1 h]
    rfl
  | cons c cs ih =>
    rcases List.map_eq_cons_iff.1 h with ⟨b, bs, rfl, rfl, hbs⟩
    rw [identifier, List.cons_append, outcome_bind, outcome_take]
    show outcome (if ascii b = ascii b then identifier cs else _) (bs ++ rest) = _
    rw [if_pos rfl, ih bs hbs]

namespace Tree

/-- A byte that can be the first one of a value. -/
def Opens (b : UInt8) : Prop := isBlank b = false ∧ ascii b ≠ ',' ∧ ascii b ≠ ']' ∧ ascii b ≠ '\x7d'

end Tree

end MetricCatalog.Json
