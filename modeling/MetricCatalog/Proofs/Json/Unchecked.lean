import MetricCatalog.Proofs.Json.AcceptedLoops
import MetricCatalog.Proofs.Json.Skip

/-!
# Unchecked scans — those that do not look whether bytes are UTF-8

`Keeps` says of a scan that it keeps a property of the bytes that are left and does not refuse a literal for
not being UTF-8. Nothing but `Literal.read` can do so: not numbers, not names, and nothing that is passed
over, whatever the bytes are.
-/

namespace MetricCatalog.Json

open Scan

variable {α β σ : Type} {P : Bytes → Prop}

/-! ## 1. What scans keep -/

/-- What is left has the property, or the bytes have been refused, though not for a literal that is not
UTF-8. -/
def Sound (P : Bytes → Prop) : Except Fault (α × Bytes) → Prop
  | .ok (_, rest) => P rest
  | .error fault => fault ≠ .malformed .codePoint

/-- On bytes with the property no literal is found not to be UTF-8, and the property is kept. -/
def Keeps (P : Bytes → Prop) (scan : Scan α) : Prop := ∀ bs, P bs → Sound P (outcome scan bs)

/-- No bytes are refused for a literal that is not UTF-8. -/
abbrev Unchecked (scan : Scan α) : Prop := Keeps (fun _ => True) scan

theorem keeps_pure (a : α) : Keeps P (pure a) := fun _ h => h

theorem keeps_fail {fault : Fault} (h : fault ≠ .malformed .codePoint) : Keeps P (fail fault : Scan α) :=
  fun _ _ => h

theorem keeps_failAtNext {fault : Fault} (h : fault ≠ .malformed .codePoint) :
    Keeps P (failAtNext fault : Scan α) :=
  fun _ _ => h

theorem Keeps.bind {x : Scan α} {f : α → Scan β} (hx : Keeps P x) (hf : ∀ a, Keeps P (f a)) :
    Keeps P (x >>= f) := by
  intro bs hbs
  have hfirst := hx bs hbs
  rw [outcome_bind]
  cases hread : outcome x bs with
  | error fault =>
    rw [hread] at hfirst
    exact hfirst
  | ok r =>
    rw [hread] at hfirst
    exact hf r.1 r.2 hfirst

-- The fuel is made of the bytes, so the loop has to keep the property whatever its fuel is.
theorem keeps_withFuel {loop : Bytes → Scan α} (h : ∀ fuel, Keeps P (loop fuel)) :
    Keeps P (withFuel loop) :=
  fun bs hbs => h (0 :: bs) bs hbs

/-! ## 2. Scans that check nothing -/

theorem unchecked_next : Unchecked next? := fun _ _ => trivial

theorem unchecked_take : Unchecked take? := fun _ _ => trivial

theorem unchecked_peek : Unchecked peek? := fun _ _ => trivial

theorem unchecked_advance : Unchecked advance := fun _ _ => trivial

theorem unchecked_identifier (cs : List Char) : Unchecked (identifier cs) := by
  induction cs with
  | nil => exact keeps_pure ()
  | cons c cs ih =>
    rw [identifier]
    refine unchecked_take.bind fun d => ?_
    split
    · exact keeps_fail (by rintro ⟨⟩)
    · split
      · exact ih
      · exact keeps_fail (by rintro ⟨⟩)

theorem unchecked_colon : Unchecked colon := by
  rw [colon]
  refine unchecked_next.bind fun c => ?_
  split
  · exact keeps_failAtNext nofun
  · exact unchecked_advance
  · exact keeps_failAtNext nofun

namespace Literal

theorem unchecked_hex : Unchecked hex := by
  intro bs _
  obtain _ | ⟨a, _ | ⟨b, _ | ⟨c, _ | ⟨d, rest⟩⟩⟩⟩ := bs
  case cons.cons.cons.cons =>
    cases hhex : hex? a b c d with
    | none =>
      simp only [outcome, hex, hhex]
      rintro ⟨⟩
    | some n =>
      simp only [outcome, hex, hhex]
      trivial
  -- With fewer than four bytes the text ends in the escape.
  all_goals rintro ⟨⟩

theorem unchecked_pairGoesOn (c : Char) : Unchecked (pairGoesOn c) := by
  rw [pairGoesOn]
  refine unchecked_take.bind fun d => ?_
  split
  · exact keeps_fail nofun
  · split
    · exact keeps_pure ()
    · exact keeps_fail nofun

theorem unchecked_codePoint : Unchecked codePoint := by
  rw [codePoint]
  refine unchecked_hex.bind fun n => ?_
  split
  · exact keeps_fail nofun
  · split
    · refine (unchecked_pairGoesOn _).bind fun _ => (unchecked_pairGoesOn _).bind fun _ => ?_
      refine unchecked_hex.bind fun m => ?_
      split
      · exact keeps_pure _
      · exact keeps_fail nofun
    · exact keeps_pure n

/-- A piece is told by its first byte: it is the closing quote, an escape, or a byte for itself. -/
theorem unchecked_piece {piece : Scan (Option Bytes)} {escape : Scan (Option Bytes)} {plain : UInt8 → Bytes}
    (hnil : outcome piece [] = .error (.unfinished .string))
    (hquote : ∀ rest, outcome piece (0x22 :: rest) = .ok (none, rest))
    (hescape : ∀ rest, outcome piece (0x5C :: rest) = outcome escape rest)
    (hother : ∀ b rest, ascii b ≠ '"' → ascii b ≠ '\\' → outcome piece (b :: rest) =
      if isControl b then .error (.malformed .controlCharacter) else .ok (some (plain b), rest))
    (h : Unchecked escape) : Unchecked piece := by
  intro bs _
  cases bs with
  | nil =>
    rw [hnil]
    exact nofun
  | cons b rest =>
    by_cases hq : ascii b = '"'
    · cases ascii_inj (c := 0x22) hq
      rw [hquote]
      trivial
    · by_cases hs : ascii b = '\\'
      · cases ascii_inj (c := 0x5C) hs
        rw [hescape]
        exact h rest trivial
      · rw [hother b rest hq hs]
        cases isControl b with
        | true => exact nofun
        | false => exact trivial

theorem unchecked_keptPiece : Unchecked keptPiece := by
  refine unchecked_piece rfl outcome_keptPiece_quote outcome_keptPiece_escape
    (fun b rest hq hs => outcome_keptPiece_other hq hs rest) ?_
  refine unchecked_take.bind fun c => ?_
  split
  · exact keeps_fail nofun
  · exact unchecked_codePoint.bind fun n => keeps_pure _
  · split
    · exact keeps_pure _
    · exact keeps_fail nofun

theorem unchecked_skippedPiece : Unchecked skippedPiece := by
  refine unchecked_piece rfl (fun rest => rfl) outcome_skippedPiece_escape
    (fun b rest hq hs => outcome_skippedPiece_other hq hs rest) ?_
  refine unchecked_take.bind fun c => ?_
  split
  · exact keeps_fail nofun
  · exact unchecked_hex.bind fun n => keeps_pure _
  · split
    · exact keeps_pure _
    · exact keeps_fail nofun

theorem unchecked_pieces {piece : Scan (Option Bytes)} (hpiece : Unchecked piece) (done fuel : Bytes) :
    Unchecked (pieces piece done fuel) := by
  induction fuel generalizing done with
  | nil => exact fun _ _ => nofun
  | cons f fuel ih =>
    intro bs _
    have hfirst := hpiece bs trivial
    cases hread : outcome piece bs with
    | error fault =>
      rw [outcome_pieces_error f fuel hread]
      rwa [hread] at hfirst
    | ok r =>
      obtain ⟨_ | more, rest⟩ := r
      · rw [outcome_pieces_end f fuel hread]
        trivial
      · rw [outcome_pieces_ok f fuel hread]
        exact ih _ rest trivial

theorem unchecked_skip : Unchecked skip := by
  rw [skip]
  exact (keeps_withFuel (unchecked_pieces unchecked_skippedPiece [])).bind fun _ => keeps_pure ()

end Literal

namespace Numeral

theorem unchecked_digits : Unchecked digits := fun _ _ => trivial

theorem unchecked_minus : Unchecked minus := by
  rw [minus]
  refine unchecked_peek.bind fun c => ?_
  split
  · exact unchecked_advance.bind fun _ => keeps_pure true
  · exact keeps_pure false

theorem unchecked_sign : Unchecked sign := by
  rw [sign]
  refine unchecked_peek.bind fun c => ?_
  split
  · exact unchecked_advance.bind fun _ => keeps_pure true
  · exact unchecked_advance.bind fun _ => keeps_pure false
  · exact keeps_pure false

section

variable {atEnd : Fault} (hend : atEnd ≠ .malformed .codePoint)

include hend

theorem unchecked_someDigits : Unchecked (someDigits atEnd) := by
  rw [someDigits]
  refine unchecked_take.bind fun c => ?_
  split
  · exact keeps_fail hend
  · split
    · exact unchecked_digits.bind fun ds => keeps_pure _
    · exact keeps_fail nofun

theorem unchecked_wholePart : Unchecked (wholePart atEnd) := by
  rw [wholePart]
  refine unchecked_peek.bind fun c => ?_
  split
  · refine unchecked_advance.bind fun _ => unchecked_peek.bind fun c => ?_
    split
    · split
      · exact keeps_failAtNext nofun
      · exact keeps_pure [0]
    · exact keeps_pure [0]
  · exact unchecked_someDigits hend

theorem unchecked_fractionPart : Unchecked (fractionPart atEnd) := by
  rw [fractionPart]
  refine unchecked_peek.bind fun c => ?_
  split
  · refine unchecked_advance.bind fun _ => unchecked_digits.bind fun ds => ?_
    split
    · -- Without a digit behind the point it matters for the fault whether the text ends there.
      refine unchecked_peek.bind fun c => keeps_failAtNext ?_
      split
      · exact nofun
      · exact hend
    · exact keeps_pure _
  · exact keeps_pure []

theorem unchecked_exponentPart : Unchecked (exponentPart atEnd) := by
  have hdigits : Unchecked (advance >>= fun _ => sign >>= fun negative => someDigits atEnd >>= fun ds =>
      pure (some (Exponent.mk negative ds))) :=
    unchecked_advance.bind fun _ => unchecked_sign.bind fun negative =>
      (unchecked_someDigits hend).bind fun ds => keeps_pure _
  rw [exponentPart]
  refine unchecked_peek.bind fun c => ?_
  split
  · exact hdigits
  · exact hdigits
  · exact keeps_pure none

theorem unchecked_read : Unchecked (read atEnd) :=
  unchecked_minus.bind fun negative => (unchecked_wholePart hend).bind fun whole =>
    (unchecked_fractionPart hend).bind fun fraction => (unchecked_exponentPart hend).bind fun exponent =>
      keeps_pure (Numeral.mk negative whole fraction exponent)

end

end Numeral

theorem Number.unchecked_read : Unchecked Number.read := by
  have hnumeral : Unchecked (Numeral.read (.unfinished .value)) := Numeral.unchecked_read nofun
  rw [Number.read]
  refine hnumeral.bind fun n => ?_
  split
  · exact keeps_pure _
  · exact fun _ _ => nofun

theorem Number.unchecked_skip : Unchecked Number.skip := by
  have hnumeral : Unchecked (Numeral.read (.malformed .number)) := Numeral.unchecked_read nofun
  exact hnumeral.bind fun _ => keeps_pure ()

theorem unchecked_skipKey : Unchecked skipKey := by
  rw [skipKey]
  refine unchecked_next.bind fun c => ?_
  split
  · exact keeps_failAtNext nofun
  · exact unchecked_advance.bind fun _ => Literal.unchecked_skip.bind fun _ => unchecked_colon
  · exact keeps_failAtNext nofun

theorem unchecked_skipScalar (c : Char) : Unchecked (skipScalar c) := by
  unfold skipScalar
  split
  · exact unchecked_advance.bind fun _ => unchecked_identifier _
  · exact unchecked_advance.bind fun _ => unchecked_identifier _
  · exact unchecked_advance.bind fun _ => unchecked_identifier _
  · exact unchecked_advance.bind fun _ => Literal.unchecked_skip
  · split
    · exact Number.unchecked_skip
    · exact keeps_failAtNext nofun

theorem Bracket.unfinished_ne (bracket : Bracket) : bracket.unfinished ≠ .malformed .codePoint := by
  cases bracket <;> exact nofun

theorem unchecked_keyOf (bracket : Bracket) :
    Unchecked (do
      if bracket = .object then skipKey
      return false) := by
  split
  · exact unchecked_skipKey.bind fun _ => keeps_pure false
  · exact keeps_pure false

theorem unchecked_closedAtOnce (bracket : Bracket) : Unchecked (closedAtOnce bracket) := by
  rw [closedAtOnce]
  refine unchecked_next.bind fun c => ?_
  split
  · exact keeps_failAtNext bracket.unfinished_ne
  · split
    · exact unchecked_advance.bind fun _ => keeps_pure true
    · exact unchecked_keyOf bracket

theorem unchecked_closedNext (bracket : Bracket) : Unchecked (closedNext bracket) := by
  rw [closedNext]
  refine unchecked_next.bind fun c => ?_
  split
  · exact keeps_failAtNext bracket.unfinished_ne
  · split
    · exact unchecked_advance.bind fun _ => keeps_pure true
    · split
      · exact unchecked_advance.bind fun _ => unchecked_keyOf bracket
      · refine keeps_failAtNext ?_
        cases bracket <;> exact nofun

/-- Each round of passing over a value takes one byte of the fuel. -/
theorem unchecked_skipValue (fuel : Bytes) : (∀ stack, Unchecked (skipValue fuel stack)) ∧
    ∀ stack, Unchecked (skipRest fuel stack) := by
  induction fuel with
  | nil =>
    refine ⟨fun stack => keeps_fail nofun, fun stack => ?_⟩
    cases stack with
    | nil => exact keeps_pure ()
    | cons bracket stack => exact keeps_fail nofun
  | cons f fuel ih =>
    obtain ⟨hvalue, hrest⟩ := ih
    -- Behind a bracket either it has been closed or the next value in it follows.
    have hmore : ∀ (closed : Bool) stack bracket,
        Unchecked (if closed then skipRest fuel stack else skipValue fuel (bracket :: stack)) := by
      intro closed stack bracket
      cases closed with
      | true => exact hrest stack
      | false => exact hvalue (bracket :: stack)
    constructor
    · intro stack
      rw [skipValue]
      refine unchecked_next.bind fun c => ?_
      split
      · exact keeps_failAtNext nofun
      · exact unchecked_advance.bind fun _ => (unchecked_closedAtOnce _).bind fun b => hmore b stack _
      · exact unchecked_advance.bind fun _ => (unchecked_closedAtOnce _).bind fun b => hmore b stack _
      · exact (unchecked_skipScalar _).bind fun _ => hrest stack
    · intro stack
      cases stack with
      | nil => exact keeps_pure ()
      | cons bracket stack =>
        exact (unchecked_closedNext bracket).bind fun b => hmore b stack bracket

theorem unchecked_skip : Unchecked skip := keeps_withFuel fun fuel => (unchecked_skipValue fuel).1 []

end MetricCatalog.Json
