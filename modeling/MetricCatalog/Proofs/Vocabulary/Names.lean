import MetricCatalog.Inspection.Payload
import MetricCatalog.Proofs.Schema.Values

/-!
# Names — the table that reads them and the names that members have

A vocabulary keeps the names of its members apart from the table by which names are read. The two agree, so a
text is read as a member exactly if it is the name of the member, letter by letter, and any other text is handed
back as it is.
-/

namespace MetricCatalog

/-- The table of a vocabulary agrees with the names of its members. -/
class LawfulNames (α : Type) [Vocabulary α] : Prop where
  lookup_name (a : α) : Vocabulary.known.lookup (Vocabulary.name a) = some a
  name_of_known : ∀ entry ∈ (Vocabulary.known : List (String × α)), Vocabulary.name entry.2 = entry.1

/-! ## 1. Tables -/

instance : LawfulNames NodeMode where
  lookup_name a := by cases a <;> decide
  name_of_known := by decide

instance : LawfulNames NodeType where
  lookup_name a := by cases a <;> decide
  name_of_known := by decide

instance : LawfulNames NodeStatus where
  lookup_name a := by cases a <;> decide
  name_of_known := by decide

instance : LawfulNames MetricDirection where
  lookup_name a := by cases a <;> decide
  name_of_known := by decide

instance : LawfulNames PayloadKind where
  lookup_name a := by cases a <;> decide
  name_of_known := by decide

/-! ## 2. Names that are read -/

namespace Vocabulary

variable {α : Type} [Vocabulary α] [LawfulNames α] {text : String} {a : α}

theorem lookup_known_eq_some : known.lookup text = some a ↔ text = name a := by
  constructor
  · intro h
    obtain ⟨front, back, hknown, -⟩ := List.lookup_eq_some_iff.1 h
    have hmem : (text, a) ∈ (known : List (String × α)) := by
      rw [hknown]
      exact List.mem_append_right front List.mem_cons_self
    exact (LawfulNames.name_of_known _ hmem).symm
  · rintro rfl
    exact LawfulNames.lookup_name a

theorem lookup_known_eq_none : (known : List (String × α)).lookup text = none ↔ ∀ a : α, text ≠ name a := by
  rw [Option.eq_none_iff_forall_ne_some]
  exact forall_congr' fun a => not_congr lookup_known_eq_some

/-- A text is read as the member that it names. -/
theorem parse_eq_ok : parse text = .ok a ↔ text = name a := by
  rw [← lookup_known_eq_some, parse]
  cases (known : List (String × α)).lookup text with
  | none => exact ⟨nofun, nofun⟩
  | some b => exact ⟨fun h => congrArg some (Except.ok.inj h), fun h => congrArg Except.ok (Option.some.inj h)⟩

/-- A text that names no member is handed back as it is. -/
theorem parse_eq_error :
    (parse text : Except Error α) = .error (.unknownWord (lexicon α) text) ↔ ∀ a : α, text ≠ name a := by
  rw [← lookup_known_eq_none, parse]
  cases (known : List (String × α)).lookup text with
  | none => exact ⟨fun _ => rfl, fun _ => rfl⟩
  | some b => exact ⟨nofun, nofun⟩

/-- A field names a member if it is set to the name. -/
theorem named?_eq_some {field : Option String} : named? field = some a ↔ field = some (name a) := by
  cases field with
  | none => exact ⟨nofun, nofun⟩
  | some text =>
    change (parse text : Except Error α).toOption = some a ↔ _
    rw [toOption_eq_some, parse_eq_ok, Option.some.injEq]

/-- A field names no member if it is unset or set to any other text. -/
theorem named?_eq_none {field : Option String} :
    (named? field : Option α) = none ↔ ∀ a : α, field ≠ some (name a) := by
  rw [Option.eq_none_iff_forall_ne_some]
  exact forall_congr' fun a => not_congr named?_eq_some

end Vocabulary

end MetricCatalog
