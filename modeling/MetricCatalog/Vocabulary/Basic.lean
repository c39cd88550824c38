import MetricCatalog.Error
import MetricCatalog.Text.SnakeCase

/-!
# Vocabularies — closed sets of words

A vocabulary lists its members. Each of them has a name, by which it is called, and a title, of which its
word on the wire is made. Names are read by a table of their own, words on the wire by a search of the
members. The words read from the wire are exactly those spelled there; that names and words agree is for
each vocabulary to show.
-/

namespace MetricCatalog

/-- A closed set of members, each with a word of its own on the wire. -/
class Vocabulary (α : Type) where
  lexicon : Lexicon
  all : List α
  title : α → String
  name : α → String
  /-- The names that are known, and what they stand for. -/
  known : List (String × α)
  mem_all (a : α) : a ∈ all
  spell_injective {a b : α} : Text.snakeCase (title a) = Text.snakeCase (title b) → a = b

namespace Vocabulary

variable {α : Type} [Vocabulary α]

/-! ## 1. Words on the wire -/

/-- The word of a member. -/
def spell (a : α) : String := Text.snakeCase (title a)

/-- The words of a vocabulary in the order of its members. -/
def words (α : Type) [Vocabulary α] : List String := (all : List α).map spell

/-- The member that a word spells. -/
def ofWord? (word : String) : Option α := (all : List α).find? fun a => spell a == word

theorem ofWord?_eq_some_iff {word : String} {a : α} : ofWord? word = some a ↔ spell a = word := by
  constructor
  · intro h
    simpa using List.find?_some h
  · rintro rfl
    cases h : (ofWord? (spell a) : Option α) with
    | none => simpa using List.find?_eq_none.1 h a (mem_all a)
    | some b =>
      have hb : spell b = spell a := by simpa using List.find?_some h
      rw [spell_injective hb]

theorem ofWord?_spell (a : α) : ofWord? (spell a) = some a := ofWord?_eq_some_iff.2 rfl

/-! ## 2. Names -/

/-- Reads a name that must be known. -/
def parse (name : String) : Except Error α :=
  match known.lookup name with
  | some a => .ok a
  | none => .error (.unknownWord (lexicon α) name)

/-- The member that a field names, if it is set and the name is known. -/
def named? (field : Option String) : Option α :=
  field.bind fun name => (parse name : Except Error α).toOption

end Vocabulary

end MetricCatalog
