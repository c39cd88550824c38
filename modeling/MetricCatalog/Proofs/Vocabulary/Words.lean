import MetricCatalog.Proofs.Json.Rendered
import MetricCatalog.Proofs.Schema.Accepted
import MetricCatalog.Proofs.Schema.Agreement
import MetricCatalog.Proofs.Vocabulary.Names

/-!
# Words — how they are read, from texts and on their own

A word is written as a string literal or as the only key of an object with null under it, and its literal may
be spelled with any escapes. Nothing else is read as the word. The names that members have, the names that are
read and the words on the wire come from three tables, and they are the same.
-/

namespace MetricCatalog

open Json Json.Scan Json.Tree Shape Vocabulary

/-! ## 1. Vocabularies -/

/-- The vocabularies of the records. -/
inductive WordType where
  | nodeMode
  | nodeType
  | nodeStatus
  | metricDirection
deriving DecidableEq

namespace WordType

/-- The words of a vocabulary. -/
def Value : WordType → Type
  | nodeMode => NodeMode
  | nodeType => NodeType
  | nodeStatus => NodeStatus
  | metricDirection => MetricDirection

instance : (W : WordType) → Vocabulary W.Value
  | nodeMode => inferInstanceAs (Vocabulary NodeMode)
  | nodeType => inferInstanceAs (Vocabulary NodeType)
  | nodeStatus => inferInstanceAs (Vocabulary NodeStatus)
  | metricDirection => inferInstanceAs (Vocabulary MetricDirection)

instance : (W : WordType) → LawfulNames W.Value
  | nodeMode => inferInstanceAs (LawfulNames NodeMode)
  | nodeType => inferInstanceAs (LawfulNames NodeType)
  | nodeStatus => inferInstanceAs (LawfulNames NodeStatus)
  | metricDirection => inferInstanceAs (LawfulNames MetricDirection)

/-- The set of words that an unknown one is said to be missing from. -/
def lexicon : WordType → Lexicon
  | nodeMode => .nodeMode
  | nodeType => .nodeType
  | nodeStatus => .nodeStatus
  | metricDirection => .metricDirection

theorem lexicon_eq (W : WordType) : Vocabulary.lexicon W.Value = W.lexicon := by
  cases W <;> rfl

/-- The title of a member makes the same word as its name. -/
theorem spell_eq_name (W : WordType) (a : W.Value) : spell a = name a := by
  cases W <;> cases a <;> decide +kernel

theorem encode_eq_name (W : WordType) (a : W.Value) : encode a = "\"" ++ name a ++ "\"" := by
  cases W <;> cases a <;> decide +kernel

end WordType

variable {α : Type} [Vocabulary α]

/-! ## 2. Words in texts -/

theorem Vocabulary.eq_spell_iff {word : String} {a : α} : word = spell a ↔ ofWord? word = some a :=
  eq_comm.trans ofWord?_eq_some_iff.symm

theorem Shape.spellingOf_eq_ok {word : String} {a : α} : spellingOf α word = .ok a ↔ word = spell a := by
  rw [eq_spell_iff, spellingOf]
  cases (ofWord? word : Option α) with
  | none => constructor <;> intro h <;> cases h
  | some b => exact ⟨fun h => congrArg some (Except.ok.inj h), fun h => congrArg Except.ok (Option.some.inj h)⟩

/-- A literal denotes the word, and the tree is that literal or an object with it as the only key and null
under it. -/
def Json.Tree.IsWord (word : String) (t : Tree) : Prop :=
  ∃ l, Literal.text l = .ok word ∧ (t = .string l ∨ t = .object [(l, .null)])

/-- A word is taken from its literal, or from an object if there is room for one. -/
theorem Shape.wordOfTree_eq_ok {room : Nat} (hroom : room ≠ 0) {t : Tree} {a : α} :
    wordOfTree α room t = .ok a ↔ t.IsWord (spell a) := by
  obtain ⟨room, rfl⟩ := Nat.exists_eq_succ_of_ne_zero hroom
  constructor
  · intro h
    cases t with
    | string l =>
      obtain ⟨word, hword, ha⟩ := ok_of_bind h
      rw [spellingOf_eq_ok.1 ha] at hword
      exact ⟨l, hword, .inl rfl⟩
    | object ms =>
      cases ms with
      | nil => cases h
      | cons m more =>
        obtain ⟨word, hword, hmore⟩ := ok_of_bind h
        obtain ⟨b, hb, hmore⟩ := ok_of_bind hmore
        obtain ⟨found, hfound, hmore⟩ := ok_of_bind hmore
        -- Only null itself is null at the front.
        cases found with
        | null =>
          obtain ⟨k, v⟩ := m
          cases Json.Tree.head_eq_null hfound
          cases more with
          | cons m' more => cases hmore
          | nil =>
            cases hmore
            rw [spellingOf_eq_ok.1 hb] at hword
            exact ⟨k, hword, .inr rfl⟩
        | _ => cases hmore
    | _ => cases h
  · rintro ⟨l, hl, rfl | rfl⟩
    · change (Literal.text l >>= spellingOf α) = .ok a
      rw [hl]
      exact spellingOf_eq_ok.2 rfl
    · change (Literal.text l >>= fun word => spellingOf α word >>= fun b => .ok b) = .ok a
      rw [hl]
      change (spellingOf α (spell a) >>= fun b => .ok b) = .ok a
      rw [spellingOf_eq_ok.2 rfl]
      rfl

theorem decodeBytes_word {bytes : Bytes} {a : α} :
    decodeBytes α bytes = .ok a ↔ ∃ t : Tree, t.Spells bytes ∧ t.IsWord (spell a) := by
  rw [decodeBytes_iff]
  exact exists_congr fun t => and_congr_right fun _ => Shape.wordOfTree_eq_ok (by decide)

/-- A word is read from all of its literals, and no other word is. -/
theorem forall_literal_decodedAs {word : String} {a : α} :
    (∀ l, Literal.text l = .ok word → DecodedAs (.string l) a) ↔ word = spell a := by
  constructor
  · intro h
    obtain ⟨l, -, hl⟩ := Literal.exists_pieces word
    have htaken : wordOfTree α depthLimit (.string l) = .ok a := decodedAs_iff.1 (h l hl)
    obtain ⟨l', hl', heq | heq⟩ := (Shape.wordOfTree_eq_ok (by decide)).1 htaken
    · cases heq
      exact Except.ok.inj (hl.symm.trans hl')
    · cases heq
  · rintro rfl l hl
    exact decodedAs_iff.2 ((Shape.wordOfTree_eq_ok (by decide)).2 ⟨l, hl, .inl rfl⟩)

/-! ## 3. Words of a node -/

/-- A field is told by the name that it is set to, and by nothing if it is unset or set to any other text. -/
def TellsWord (field : Option String) (told : Option α) : Prop :=
  (∀ a, told = some a ↔ field = some (name a)) ∧ (told = none ↔ ∀ a : α, field ≠ some (name a))

theorem tellsWord_named [LawfulNames α] (field : Option String) : TellsWord field (named? field : Option α) :=
  ⟨fun _ => named?_eq_some, named?_eq_none⟩

/-! ## 4. One language -/

/-- A member is written as its name in quotes. A text is decoded as the member exactly if it spells a literal of
the name, or an object with such a literal as its only key and null under it. On its own a text is read as the
member exactly if it is the name, as are those all of whose literals are decoded as the member, and otherwise is
handed back with the error of the vocabulary. The type, mode and status of a node are told by the same names. -/
theorem decode_parse_word (W : WordType) (a : W.Value) :
    encode a = "\"" ++ name a ++ "\"" ∧
    (∀ text : String, decode W.Value text = .ok a ↔
      ∃ l, Literal.text l = .ok (name a) ∧
        ((Tree.string l).Spells (Utf8.encode text.toList) ∨
          (Tree.object [(l, .null)]).Spells (Utf8.encode text.toList))) ∧
    (∀ text : String, (Vocabulary.parse text = .ok a ↔ text = name a) ∧
      ((∀ l, Literal.text l = .ok text → DecodedAs (.string l) a) ↔ text = name a)) ∧
    (∀ text : String, (Vocabulary.parse text : Except Error W.Value) = .error (.unknownWord W.lexicon text) ↔
      ∀ b : W.Value, text ≠ name b) ∧
    ∀ node : Response.Node,
      TellsWord node.type node.type? ∧ TellsWord node.mode node.mode? ∧ TellsWord node.status node.status? := by
  have hspell : spell a = name a := W.spell_eq_name a
  refine ⟨W.encode_eq_name a, fun text => ?_, fun text => ⟨parse_eq_ok, ?_⟩, fun text => ?_, fun node => ?_⟩
  · rw [← hspell, decode, decodeBytes_word]
    constructor
    · rintro ⟨t, hspells, l, hl, rfl | rfl⟩
      · exact ⟨l, hl, .inl hspells⟩
      · exact ⟨l, hl, .inr hspells⟩
    · rintro ⟨l, hl, hspells | hspells⟩
      · exact ⟨_, hspells, l, hl, .inl rfl⟩
      · exact ⟨_, hspells, l, hl, .inr rfl⟩
  · rw [← hspell]
    exact forall_literal_decodedAs
  · rw [← W.lexicon_eq]
    exact parse_eq_error
  · exact ⟨tellsWord_named node.type, tellsWord_named node.mode, tellsWord_named node.status⟩

/-- Escapes and blanks do not keep a word from being read, and the case of a letter does. -/
theorem decode_parse_word_draft :
    decode NodeMode " \x7b \"dr\\u0061ft\" :\n null \x7d " = .ok .draft ∧
      decode MetricDirection "\"higher_is_better\"" = .ok .higherIsBetter ∧
      (Vocabulary.parse "Draft" : Except Error NodeMode) = .error (.unknownWord .nodeMode "Draft") := by
  obtain ⟨word, hword, hword'⟩ := Literal.exists_pieces "higher_is_better"
  let escaped : List Literal.Piece :=
    [.plain 0x64 (by decide), .plain 0x72 (by decide), .code 0x30 0x30 0x36 0x31 (by decide),
      .plain 0x66 (by decide), .plain 0x74 (by decide)]
  have hescaped : (Tree.object [(escaped, .null)]).Spells
      (Utf8.encode " \x7b \"dr\\u0061ft\" :\n null \x7d ".toList) := by
    have hspace : Blank [0x20] := by simp [Blank, isBlank]
    have hline : Blank [0x0A, 0x20] := by simp [Blank, isBlank]
    refine ⟨_, [0x20], ?_, .cons hspace (.cons hspace (.cons hspace (.cons hline (.cons hspace .nil)))),
      hspace⟩
    decide +kernel
  refine ⟨?_, ?_, ?_⟩
  · exact ((decode_parse_word .nodeMode .draft).2.1 _).2 ⟨escaped, rfl, .inr hescaped⟩
  · refine ((decode_parse_word .metricDirection .higherIsBetter).2.1 _).2
      ⟨word, hword', .inl (spells_of_flatten ?_)⟩
    simp only [tokens, hword]
    decide +kernel
  · exact ((decode_parse_word .nodeMode .draft).2.2.2.1 "Draft").2 fun mode => by cases mode <;> decide

end MetricCatalog
