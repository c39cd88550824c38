import MetricCatalog.Proofs.Json.Rendered

/-!
# Joined texts — spellings put between brackets

A text that spells a tree may have blanks around it. Behind a comma or before a bracket these are blanks
between tokens, so the texts of items and members that are joined by commas spell the array or the object.
-/

namespace MetricCatalog.Json

open Json.Tree

/-- The bytes are these tokens with blanks between them and around them. -/
def Spaced (tokens : List Bytes) (bytes : Bytes) : Prop :=
  ∃ front trail, bytes = front ++ trail ∧ Laid tokens front ∧ Blank trail

/-- Blanks behind some tokens are blanks before the next one. -/
theorem Spaced.append {tokens more : List Bytes} {bytes front : Bytes} (h : Spaced tokens bytes)
    (hmore : Laid more front) (hne : more ≠ []) : Laid (tokens ++ more) (bytes ++ front) := by
  obtain ⟨before, trail, rfl, hbefore, htrail⟩ := h
  rw [List.append_assoc]
  exact hbefore.append (hmore.blank_append htrail hne)

theorem encode_string_append (a b : String) :
    Utf8.encode (a ++ b).toList = Utf8.encode a.toList ++ Utf8.encode b.toList := by
  rw [String.toList_append, Utf8.encode_append]

/-- Texts with commas between them, up to the closing bracket. -/
theorem laid_intercalate {last : UInt8} {texts : List String} {tokens : List (List Bytes)}
    (h : List.Forall₂ (fun text ts => Spaced ts (Utf8.encode text.toList)) texts tokens) :
    Laid (listed last tokens) (Utf8.encode (",".intercalate texts).toList ++ [last]) := by
  have hlast : Laid [[last]] [last] := laid_flatten [[last]]
  cases h with
  | nil => exact hlast
  | @cons text ts texts tokens hfirst hrest =>
    rw [listed]
    induction hrest generalizing text ts with
    | nil =>
      rw [String.intercalate_singleton]
      exact hfirst.append hlast (by simp [continued])
    | @cons next us texts tokens hnext _ ih =>
      have hcomma : Laid ([0x2C] :: (us ++ continued last tokens))
          ([0x2C] ++ (Utf8.encode (",".intercalate (next :: texts)).toList ++ [last])) :=
        Laid.append (laid_flatten [[0x2C]]) (ih hnext)
      have hencode : Utf8.encode (",".intercalate (text :: next :: texts)).toList =
          Utf8.encode text.toList ++ ([0x2C] ++ Utf8.encode (",".intercalate (next :: texts)).toList) := by
        rw [String.intercalate_cons_cons, encode_string_append, encode_string_append, List.append_assoc]
        rfl
      rw [continued_cons, hencode, List.append_assoc, List.append_assoc]
      exact hfirst.append hcomma (by simp)

/-- Texts with commas between them, from the opening bracket to the closing one. -/
theorem laid_joined {opening closing : String} {first last : UInt8}
    (hopening : Utf8.encode opening.toList = [first]) (hclosing : Utf8.encode closing.toList = [last])
    {texts : List String} {tokens : List (List Bytes)}
    (h : List.Forall₂ (fun text ts => Spaced ts (Utf8.encode text.toList)) texts tokens) :
    Laid ([first] :: listed last tokens) (Utf8.encode (opening ++ ",".intercalate texts ++ closing).toList) := by
  have hlaid := Laid.append (laid_flatten [[first]]) (@laid_intercalate last _ _ h)
  rw [encode_string_append, encode_string_append, hopening, hclosing, List.append_assoc]
  exact hlaid

/-! ## Arrays and objects -/

/-- The text of an array with these texts as its items. -/
def arrayText (items : List String) : String := "[" ++ ",".intercalate items ++ "]"

/-- The text of a member: its key as a literal, and the text of its value behind a colon. -/
def memberText (key value : String) : String := String.ofList (literal key) ++ ":" ++ value

/-- The text of an object with these texts as its members. -/
def objectText (members : List String) : String := "\x7b" ++ ",".intercalate members ++ "\x7d"

theorem spells_arrayText {items : List String} {ts : List Tree}
    (h : List.Forall₂ (fun text t => Tree.Spells t (Utf8.encode text.toList)) items ts) :
    (Tree.array ts).Spells (Utf8.encode (arrayText items).toList) := by
  have hitems : List.Forall₂ (fun text ts => Spaced ts (Utf8.encode text.toList)) items (ts.map tokens) :=
    List.forall₂_map_right_iff.2 h
  refine ⟨_, [], (List.append_nil _).symm, ?_, blank_nil⟩
  rw [Tree.tokens, tokensOfItems_eq_map]
  exact laid_joined rfl rfl hitems

/-- A member is spelled by its key and the spelling of its value. -/
theorem spaced_memberText (key : String) {value : String} {t : Tree}
    (h : t.Spells (Utf8.encode value.toList)) :
    ∃ k, Literal.text k = .ok key ∧ Spaced (memberTokens (k, t)) (Utf8.encode (memberText key value).toList) := by
  obtain ⟨k, hbytes, htext⟩ := Literal.exists_pieces key
  obtain ⟨front, trail, hvalue, hfront, htrail⟩ := h
  have hkey : Laid [Literal.bytes k, [0x3A]] (Literal.bytes k ++ [0x3A]) := laid_flatten _
  refine ⟨k, htext, _, trail, ?_, hkey.append hfront, htrail⟩
  rw [memberText, encode_string_append, encode_string_append, String.toList_ofList, ← hbytes, hvalue]
  simp only [List.append_assoc]
  rfl

theorem spells_objectText {members : List String} {ms : List (List Literal.Piece × Tree)}
    (h : List.Forall₂ (fun text m => Spaced (memberTokens m) (Utf8.encode text.toList)) members ms) :
    (Tree.object ms).Spells (Utf8.encode (objectText members).toList) := by
  have hmembers : List.Forall₂ (fun text ts => Spaced ts (Utf8.encode text.toList)) members
      (ms.map memberTokens) := List.forall₂_map_right_iff.2 h
  refine ⟨_, [], (List.append_nil _).symm, ?_, blank_nil⟩
  rw [Tree.tokens, tokensOfMembers_eq_map]
  exact laid_joined rfl rfl hmembers

end MetricCatalog.Json
