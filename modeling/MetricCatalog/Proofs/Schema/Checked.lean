import MetricCatalog.Proofs.Json.Checked
import MetricCatalog.Proofs.Schema.Accepted
import MetricCatalog.Proofs.Schema.Values

/-!
# Checks of records — no text is refused for bytes that are not UTF-8

Whatever a text is decoded as, no literal in it is found not to be UTF-8, by recursion on the shape.
-/

namespace MetricCatalog

open Json Json.Scan Shape Utf8

variable {α : Type}

/-! ## 1. Values by their front -/

/-- What follows may rely on the bracket that has been seen. -/
theorem keeps_head_bind {f : Head → Scan α} (harray : KeepsAt (some '[') (f .array))
    (hobject : KeepsAt (some '{') (f .object))
    (h : ∀ found, found ≠ .array → found ≠ .object → Keeps WellFormed (f found)) :
    Keeps WellFormed (Scan.head >>= f) := by
  intro bs hbs
  have hsound := keeps_head bs hbs
  rw [outcome_bind]
  cases hread : outcome Scan.head bs with
  | error fault =>
    rw [hread] at hsound
    exact hsound
  | ok r =>
    obtain ⟨found, rest⟩ := r
    rw [hread] at hsound
    by_cases ha : found = .array
    · subst ha
      obtain ⟨-, rest, -, rfl, -⟩ := head_array_inv hread
      exact harray _ rfl hsound
    · by_cases ho : found = .object
      · subst ho
        obtain ⟨-, rest, -, rfl, -⟩ := head_object_inv hread
        exact hobject _ rfl hsound
      · exact h found ha ho rest hsound

theorem keeps_readLevel {inner : Option (Scan Json)} (h : ∀ scan ∈ inner, Keeps WellFormed scan) :
    Keeps WellFormed (readLevel inner) := by
  refine keeps_head_bind ?_ ?_ fun found ha ho => ?_
  · cases inner with
    | none => exact keepsAt_failAtNext nofun
    | some scan => exact keepsAt_advance (by decide) ((keeps_items (h scan rfl)).bind fun js => keeps_pure _)
  · cases inner with
    | none => exact keepsAt_failAtNext nofun
    | some scan =>
      refine keepsAt_advance (by decide) ((keeps_members (fun found => ?_) []).bind fun ms => keeps_pure _)
      exact Literal.keeps_read.bind fun key => keeps_colon.bind fun _ => (h scan rfl).bind fun j =>
        keeps_pure _
  · cases found with
    | array => exact absurd rfl ha
    | object => exact absurd rfl ho
    | _ => exact keeps_pure _

theorem keeps_read (room : Nat) : Keeps WellFormed (Json.read room) := by
  induction room with
  | zero => exact keeps_readLevel nofun
  | succ room ih => exact keeps_readLevel fun scan hscan => Option.some.inj hscan ▸ ih

namespace Shape

theorem keeps_readText : Keeps WellFormed readText := by
  refine keeps_head.bind fun found => ?_
  split
  · exact keeps_pure _
  · exact keeps_fail nofun

theorem keeps_readTruth : Keeps WellFormed readTruth := by
  refine keeps_head.bind fun found => ?_
  split
  · exact keeps_pure _
  · exact keeps_fail nofun

theorem keeps_readInteger (width : Width) : Keeps WellFormed (readInteger width) := by
  refine keeps_head.bind fun found => ?_
  split
  · split
    · exact keeps_pure _
    · exact keeps_fail nofun
  · exact keeps_fail nofun

theorem keeps_readNull : Keeps WellFormed readNull := by
  refine keeps_head.bind fun found => ?_
  split
  · exact keeps_pure ()
  · exact keeps_fail nofun

theorem keeps_readSpelling (α : Type) [Vocabulary α] : Keeps WellFormed (readSpelling α) := by
  refine Literal.keeps_read.bind fun word => ?_
  split
  · exact keeps_pure _
  · exact keeps_fail nofun

theorem keeps_readWord (α : Type) [Vocabulary α] (room : Nat) : Keeps WellFormed (readWord α room) := by
  refine keeps_next fun c => ?_
  split
  · exact keepsAt_failAtNext nofun
  · exact keepsAt_advance (by decide) (keeps_readSpelling α)
  · refine keepsAt_enclosed (by decide) (fun _ => keeps_next fun c => ?_) room
    split
    · exact keepsAt_failAtNext nofun
    · refine keepsAt_advance (by decide) ((keeps_readSpelling α).bind fun a => ?_)
      refine keeps_colon.bind fun _ => keeps_readNull.bind fun _ => keeps_next fun c => ?_
      split
      · exact keepsAt_fail nofun
      · exact keepsAt_advance (by decide) (keeps_pure a)
      · exact keepsAt_fail nofun
    · exact keepsAt_failAtNext nofun
    · exact keepsAt_failAtNext nofun
  · exact keepsAt_failAtNext nofun

theorem keeps_readList (room : Nat) {item : Nat → Scan α} (h : ∀ room, Keeps WellFormed (item room)) :
    Keeps WellFormed (readList room item) := by
  refine keeps_head_bind ?_ ?_ fun found ha _ => ?_
  · exact keepsAt_enclosed (by decide) (fun room => keeps_items (h room)) room
  · exact keepsAt_fail nofun
  · cases found with
    | array => exact absurd rfl ha
    | _ => exact keeps_fail nofun

theorem keeps_readUnder (key : String) (found : Option α) {value : Scan α} (h : Keeps WellFormed value) :
    Keeps WellFormed (readUnder key found value) := by
  cases found with
  | none => exact keeps_colon.bind fun _ => h.bind fun a => keeps_pure _
  | some a => exact keeps_failClosing nofun

/-- Each item but the first is read behind a comma. -/
theorem keeps_start (index : Nat) {more : Bool → Scan α} (h : ∀ b, Keeps WellFormed (more b)) :
    Keeps WellFormed (if index = 0 then firstItem >>= more else nextItem >>= more) := by
  split
  · exact keeps_firstItem.bind h
  · exact keeps_nextItem.bind h

theorem keeps_passOver : Keeps WellFormed passOver := keeps_colon.bind fun _ => keeps_skip

end Shape

/-! ## 2. Records -/

mutual

/-- On well-formed bytes, what is read as a value of a shape leaves well-formed bytes, and no literal is
found not to be UTF-8. -/
theorem Shape.keeps_read : (s : Shape) → (room : Nat) → Keeps WellFormed (s.read room)
  | .text, _ => keeps_readText
  | .truth, _ => keeps_readTruth
  | .integer width, _ => keeps_readInteger width
  | @Shape.word α _, room => keeps_readWord α room
  | .json, room => (MetricCatalog.keeps_read room).bind fun j => keeps_pure _
  | .list item, room => keeps_readList room item.keeps_read
  | .record name fields, room => by
    refine keeps_head_bind ?_ ?_ fun found ha ho => ?_
    · exact keepsAt_enclosed (by decide) (fun room => fields.keeps_readItems name fields.size room 0) room
    · refine keepsAt_enclosed (by decide) (fun room => ?_) room
      refine Keeps.bind (keeps_members (fun found => ?_) fields.unfilled) fun found => ?_
      · exact Literal.keeps_read.bind fun key => fields.keeps_place room key found
      · split
        · exact keeps_pure _
        · exact keeps_fail nofun
    · cases found with
      | array => exact absurd rfl ha
      | object => exact absurd rfl ho
      | _ => exact keeps_fail nofun
  | .wrapped key item, room => by
    refine keeps_head_bind ?_ ?_ fun found ha ho => ?_
    · exact keepsAt_enclosed (by decide) (fun room => (keeps_items (item.keeps_read room)).bind fun vs =>
        keeps_pure _) room
    · refine keepsAt_enclosed (by decide) (fun room => ?_) room
      refine Keeps.bind (keeps_members (fun found => Literal.keeps_read.bind fun k => ?_) none) fun _ =>
        keeps_pure _
      split
      · exact keeps_readUnder key found (keeps_orNull (keeps_readList room item.keeps_read))
      · exact keeps_passOver.bind fun _ => keeps_pure found
    · cases found with
      | array => exact absurd rfl ha
      | object => exact absurd rfl ho
      | _ => exact keeps_fail nofun

theorem Field.keeps_read : (f : Field) → (room : Nat) → Keeps WellFormed (f.read room)
  | .required shape, room => shape.keeps_read room
  | .nullable shape, room => keeps_orNull (shape.keeps_read room)
  | .optional shape, room => keeps_orNull (shape.keeps_read room)
  | .sparse shape, room => keeps_orNull (shape.keeps_read room)
  | .flag, _ => (keeps_orNull keeps_readTruth).bind fun _ => keeps_pure _
  | .listing item, room => keeps_readList room item.keeps_read

theorem Fields.keeps_place : (fs : Fields) → (room : Nat) → (k : String) → (found : fs.Filling) →
    Keeps WellFormed (fs.place room k found)
  | .nil, _, _, _ => keeps_passOver
  | .cons key field rest, room, k, (found, more) => by
    by_cases hk : k = key
    · have hplace : (Fields.cons key field rest).place room k (found, more) =
          readUnder key found (field.read room) >>= fun found => pure (found, more) := if_pos hk
      rw [hplace]
      exact (keeps_readUnder key found (field.keeps_read room)).bind fun found => keeps_pure _
    · have hplace : (Fields.cons key field rest).place room k (found, more) =
          rest.place room k more >>= fun more => pure (found, more) := if_neg hk
      rw [hplace]
      exact (rest.keeps_place room k more).bind fun more => keeps_pure _

theorem Fields.keeps_readItems (name : String) (size room : Nat) : (fs : Fields) → (index : Nat) →
    Keeps WellFormed (fs.readItems name size room index)
  | .nil, _ => keeps_noMoreItems
  | .cons key field rest, index => by
    rw [Fields.readItems]
    refine keeps_start index fun more => ?_
    cases more with
    | true =>
      exact (field.keeps_read room).bind fun v =>
        (rest.keeps_readItems name size room (index + 1)).bind fun vs => keeps_pure _
    | false =>
      -- The array ends before the record does; the fields that are left may all have defaults.
      cases hcut : Fields.cutOff (.cons key field rest) index with
      | ok values => exact keeps_pure values
      | error missing => exact keeps_fail nofun

end

/-- The bytes of a text are never refused for a literal that is not UTF-8. -/
theorem decode_fault_ne (α : Type) [Wire α] {text : String} {refusal : Refusal}
    (h : decode α text = .error (.json refusal)) : refusal.fault ≠ .malformed .codePoint := by
  have hsound := keeps_whole ((Wire.shape α).keeps_read depthLimit) _ (wellFormed_encode text.toList)
  unfold decode decodeBytes Scan.run at h
  unfold outcome at hsound
  cases hread : ((Wire.shape α).read depthLimit).whole (Utf8.encode text.toList) with
  | ok r =>
    rw [hread] at h
    cases h
  | error failure =>
    rw [hread] at h hsound
    cases h
    exact hsound

end MetricCatalog
