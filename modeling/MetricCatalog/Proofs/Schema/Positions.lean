import MetricCatalog.Proofs.Json.Joined
import MetricCatalog.Proofs.Schema.Decoded
import MetricCatalog.Proofs.Schema.Encodings

/-!
# Positions — records that are given as arrays

An array gives the values of the first fields of a record in their order, an object gives them under their
keys. What happens to the fields behind is told by two rules, one for keys that are missing and one for arrays
that have ended. They differ where a key may be missing, but an array has to reach its field. Such a field
always has one behind it that has to be there, so that in the end both rules come to the same.
-/

namespace MetricCatalog

open Json Json.Scan Json.Tree Shape

/-! ## 1. Fields that have to be reached -/

namespace Fields

/-- The number of fields up to the last one that has to be there. -/
def reach : Fields → Nat
  | .nil => 0
  | .cons _ field rest =>
    if 0 < rest.reach then rest.reach + 1 else if field.ifMissing?.isNone then 1 else 0

/-- Each field that an array has to reach, though its key may be missing, has one behind it that has to be
there. -/
def reachesNulls : Fields → Bool
  | .nil => true
  | .cons _ field rest =>
    (field.ifMissing?.isNone || field.ifCutOff?.isSome || decide (0 < rest.reach)) && rest.reachesNulls

section

variable {key : String} {field : Field} {rest : Fields}

theorem reach_cons_le : (Fields.cons key field rest).reach ≤ rest.reach + 1 := by
  rw [reach]
  split
  · omega
  · split <;> omega

theorem reach_cons_pos :
    0 < (Fields.cons key field rest).reach ↔ 0 < rest.reach ∨ field.ifMissing? = none := by
  rw [reach]
  by_cases hrest : 0 < rest.reach
  · simp [hrest]
  · by_cases hmissing : field.ifMissing? = none <;> simp [hrest, hmissing]

end

theorem reach_le_size : (fs : Fields) → fs.reach ≤ fs.size
  | .nil => Nat.le_refl 0
  | .cons _ _ rest => Nat.le_trans reach_cons_le (Nat.succ_le_succ rest.reach_le_size)

theorem toOption_finish_unfilled_cons {key : String} {field : Field} {rest : Fields} :
    ((Fields.cons key field rest).finish (Fields.cons key field rest).unfilled).toOption =
      field.ifMissing?.bind fun v =>
        (rest.finish rest.unfilled).toOption.bind fun more => some (v, more) :=
  toOption_finish_cons none rest.unfilled

/-- An object without members lacks the fields that have to be there. -/
theorem toOption_finish_unfilled_of_reach : {fs : Fields} → 0 < fs.reach →
    (fs.finish fs.unfilled).toOption = none
  | .nil, h => absurd h (Nat.lt_irrefl 0)
  | .cons key field rest, h => by
    rw [toOption_finish_unfilled_cons]
    by_cases hmissing : field.ifMissing? = none
    · rw [hmissing]
      rfl
    · have hrest : 0 < rest.reach := (reach_cons_pos.1 h).resolve_right hmissing
      rw [toOption_finish_unfilled_of_reach hrest]
      exact Option.bind_fun_none _

/-- So does an array that has ended. -/
theorem items?_nil_of_reach : {fs : Fields} → 0 < fs.reach → fs.items? [] = none
  | .nil, h => absurd h (Nat.lt_irrefl 0)
  | .cons key field rest, h => by
    rw [items?]
    cases hcut : field.ifCutOff? with
    | none => rfl
    | some v =>
      have hmissing : field.ifMissing? ≠ none := by
        rw [Field.ifMissing?_of_ifCutOff? hcut]
        exact Option.some_ne_none v
      have hrest : 0 < rest.reach := (reach_cons_pos.1 h).resolve_right hmissing
      rw [items?_nil_of_reach hrest]
      rfl

/-- Where nothing is given, both rules come to the same. -/
theorem toOption_finish_unfilled : {fs : Fields} → fs.reachesNulls →
    (fs.finish fs.unfilled).toOption = fs.items? []
  | .nil, _ => rfl
  | .cons key field rest, h => by
    by_cases hreach : 0 < (Fields.cons key field rest).reach
    · rw [toOption_finish_unfilled_of_reach hreach, items?_nil_of_reach hreach]
    · rw [reach_cons_pos, not_or] at hreach
      rw [reachesNulls, Bool.and_eq_true] at h
      have hcut : field.ifCutOff?.isSome := by
        simpa [hreach] using h.1
      obtain ⟨v, hv⟩ := Option.isSome_iff_exists.1 hcut
      rw [toOption_finish_unfilled_cons, toOption_finish_unfilled h.2, Field.ifMissing?_of_ifCutOff? hv,
        items?, hv]
      rfl

/-! ## 2. Arrays and objects that give the same -/

/-- The members are those of an object that gives the first fields, under their keys, what the items of an array
give them by their places. -/
inductive Keyed : Fields → List Tree → Members → Prop where
  | nil {fs : Fields} : Keyed fs [] []
  | cons {key : String} {field : Field} {rest : Fields} {k : List Literal.Piece} {t : Tree}
      {ts : List Tree} {ms : Members} (hk : Literal.text k = .ok key) (h : Keyed rest ts ms) :
      Keyed (.cons key field rest) (t :: ts) ((k, t) :: ms)

theorem Keyed.mem_keys {fs : Fields} {ts : List Tree} {ms : Members} (h : fs.Keyed ts ms) :
    ∀ m ∈ ms, ∃ key ∈ fs.keys, Literal.text m.1 = .ok key := by
  induction h with
  | nil => nofun
  | cons hk _ ih =>
    rw [List.forall_mem_cons]
    constructor
    · exact ⟨_, List.mem_cons_self, hk⟩
    · intro m hm
      obtain ⟨key, hkey, htext⟩ := ih m hm
      exact ⟨key, List.mem_cons_of_mem _ hkey, htext⟩

/-- What the fields take from one more member. -/
def takeTree (fs : Fields) (room : Nat) (found : fs.Filling) (m : List Literal.Piece × Tree) :
    Except Fault fs.Filling := do
  fs.putTree room (← Literal.text m.1) m.2 found

section

variable {key : String} {field : Field} {rest : Fields} {room : Nat} {ms : Members}

/-- Members for the fields behind the first leave what has been found of it. -/
theorem foldlM_takeTree_rest (h : ∀ m ∈ ms, Literal.text m.1 ≠ .ok key) (found : Option field.Value)
    (more : rest.Filling) :
    ms.foldlM ((Fields.cons key field rest).takeTree room) (found, more) =
      (ms.foldlM (rest.takeTree room) more).map (found, ·) := by
  refine foldlM_map (g := (found, ·)) ?_ more
  intro more m hm
  change (Literal.text m.1 >>= fun k => (Fields.cons key field rest).putTree room k m.2 (found, more)) =
    (Literal.text m.1 >>= fun k => rest.putTree room k m.2 more).map (found, ·)
  cases hk : Literal.text m.1 with
  | error e => rfl
  | ok k =>
    have hother : k ≠ key := by
      rintro rfl
      exact h m hm hk
    exact putTree_other hother room m.2 found more

theorem toOption_complete {fs : Fields} (found : fs.Filling) :
    (fs.complete found).toOption = (fs.finish found).toOption := by
  rw [complete]
  cases fs.finish found <;> rfl

/-- What the first member gives is found, and the other fields find theirs among the other members. -/
theorem foldTrees_cons {k : List Literal.Piece} {t : Tree} (hk : Literal.text k = .ok key)
    (h : ∀ m ∈ ms, Literal.text m.1 ≠ .ok key) :
    (Fields.cons key field rest).foldTrees room ((k, t) :: ms) =
      field.ofTree room t >>= fun v => (rest.foldTrees room ms).map (some v, ·) := by
  let others := fun found => ms.foldlM ((Fields.cons key field rest).takeTree room) found
  have hfirst : (Fields.cons key field rest).takeTree room (none, rest.unfilled) (k, t) =
      (takeUnder key none (field.ofTree room t)).map (·, rest.unfilled) := by
    change (Literal.text k >>= fun k => (Fields.cons key field rest).putTree room k t (none, rest.unfilled)) = _
    rw [hk]
    exact putTree_self room t none rest.unfilled
  refine (congrArg (· >>= others) hfirst).trans ?_
  cases field.ofTree room t with
  | error fault => rfl
  | ok v => exact foldlM_takeTree_rest h (some v) rest.unfilled

theorem toOption_foldTrees_cons {k : List Literal.Piece} {t : Tree} (hk : Literal.text k = .ok key)
    (h : ∀ m ∈ ms, Literal.text m.1 ≠ .ok key) :
    ((Fields.cons key field rest).foldTrees room ((k, t) :: ms) >>=
        (Fields.cons key field rest).complete).toOption =
      (field.ofTree room t).toOption.bind fun v =>
        (rest.foldTrees room ms >>= rest.complete).toOption.bind fun more => some (v, more) := by
  rw [foldTrees_cons hk h]
  cases field.ofTree room t with
  | error fault => rfl
  | ok v =>
    cases rest.foldTrees room ms with
    | error fault => rfl
    | ok more =>
      change ((Fields.cons key field rest).complete (some v, more)).toOption =
        (rest.complete more).toOption.bind fun more => some (v, more)
      rw [toOption_complete more]
      exact (@toOption_complete (.cons key field rest) _).trans (toOption_finish_cons (some v) more)

end

theorem toOption_ofTrees_nil (fs : Fields) (name : String) (size room index : Nat) :
    (fs.ofTrees name size room [] index).toOption = fs.items? [] := by
  rw [← fs.toOption_cutOff index]
  cases fs with
  | nil => rfl
  | cons key field rest =>
    rw [ofTrees]
    cases (Fields.cons key field rest).cutOff index <;> rfl

/-- A record takes the same from the items of an array as from the members of the object that gives the same. -/
theorem Keyed.toOption_ofTrees {fs : Fields} {ts : List Tree} {ms : Members} (h : fs.Keyed ts ms)
    (hkeys : fs.keys.Nodup) (hnulls : fs.reachesNulls) (name : String) (size room index : Nat) :
    (fs.ofTrees name size room ts index).toOption =
      (fs.foldTrees room ms >>= fs.complete).toOption := by
  induction h generalizing index with
  | @nil fs =>
    change _ = (fs.complete fs.unfilled).toOption
    rw [toOption_complete, toOption_finish_unfilled hnulls, toOption_ofTrees_nil]
  | @cons key field rest k t ts ms hk h ih =>
    obtain ⟨hkey, hrest⟩ := List.nodup_cons.1 hkeys
    rw [reachesNulls, Bool.and_eq_true] at hnulls
    have hother : ∀ m ∈ ms, Literal.text m.1 ≠ .ok key := by
      intro m hm heq
      obtain ⟨key', hkey', htext⟩ := h.mem_keys m hm
      cases heq.symm.trans htext
      exact hkey hkey'
    rw [toOption_foldTrees_cons hk hother, ← ih hrest hnulls.2 (index + 1), ofTrees]
    refine (toOption_bind _ _).trans (congrArg _ (funext fun v => ?_))
    exact toOption_bind _ _

/-- An array that ends before a field that has to be there is refused. -/
theorem ofTrees_ne_ok_of_reach {name : String} {size room : Nat} : {fs : Fields} → {ts : List Tree} →
    ts.length < fs.reach → ∀ index vs, fs.ofTrees name size room ts index ≠ .ok vs
  | .nil, _, h => absurd h (Nat.not_lt_zero _)
  | .cons key field rest, [], h => by
    intro index vs hvs
    have hitems := toOption_ofTrees_nil (.cons key field rest) name size room index
    rw [hvs, items?_nil_of_reach h] at hitems
    cases hitems
  | .cons key field rest, t :: ts, h => by
    intro index vs hvs
    obtain ⟨v, -, hmore⟩ := ok_of_bind hvs
    obtain ⟨more, hmore, -⟩ := ok_of_bind hmore
    have hrest : ts.length < rest.reach := by
      have hle : (Fields.cons key field rest).reach ≤ rest.reach + 1 := reach_cons_le
      rw [List.length_cons] at h
      omega
    exact ofTrees_ne_ok_of_reach hrest (index + 1) more hmore

/-- An array with more items than there are fields is refused. -/
theorem ofTrees_ne_ok_of_size {name : String} {size room : Nat} : {fs : Fields} → {ts : List Tree} →
    fs.size < ts.length → ∀ index vs, fs.ofTrees name size room ts index ≠ .ok vs
  | .nil, _ :: _, _ => nofun
  | .cons key field rest, t :: ts, h => by
    intro index vs hvs
    obtain ⟨v, -, hmore⟩ := ok_of_bind hvs
    obtain ⟨more, hmore, -⟩ := ok_of_bind hmore
    exact ofTrees_ne_ok_of_size (Nat.lt_of_succ_lt_succ h) (index + 1) more hmore

end Fields

/-! ## 3. Texts of records -/

theorem Fields.length_keys : (fs : Fields) → fs.keys.length = fs.size
  | .nil => rfl
  | .cons _ _ rest => congrArg (· + 1) rest.length_keys

/-- The texts of values spell the members that give these values under the first keys. -/
theorem Fields.exists_keyed {items : List String} {ts : List Tree}
    (h : List.Forall₂ (fun text t => Tree.Spells t (Utf8.encode text.toList)) items ts) {fs : Fields}
    (hsize : items.length ≤ fs.size) :
    ∃ ms, fs.Keyed ts ms ∧ List.Forall₂ (fun text m => Spaced (memberTokens m) (Utf8.encode text.toList))
      (List.zipWith memberText fs.keys items) ms := by
  induction h generalizing fs with
  | nil =>
    refine ⟨[], .nil, ?_⟩
    rw [List.zipWith_nil_right]
    exact .nil
  | cons hfirst _ ih =>
    cases fs with
    | nil => cases hsize
    | cons key field rest =>
      obtain ⟨k, hk, hmember⟩ := spaced_memberText key hfirst
      obtain ⟨ms, hkeyed, hmembers⟩ := ih (Nat.le_of_succ_le_succ hsize)
      exact ⟨(k, _) :: ms, .cons hk hkeyed, .cons hmember hmembers⟩

namespace Shape

/-- The number of fields up to the last one that has to be there, if it is a record. -/
def reach : Shape → Nat
  | .record _ fields => fields.reach
  | _ => 0

def reachesNulls : Shape → Bool
  | .record _ fields => fields.reachesNulls
  | _ => true

variable {s : Shape} {name : String} {fs : Fields}

/-- Both forms of a record are taken alike, faults left aside. -/
theorem toOption_ofTree_keyed (hs : s = .record name fs) {ts : List Tree} {ms : Members}
    (h : fs.Keyed ts ms) (hkeys : fs.keys.Nodup) (hnulls : s.reachesNulls) (room : Nat) :
    (s.ofTree room (.array ts)).toOption = (s.ofTree room (.object ms)).toOption := by
  subst hs
  cases room with
  | zero => rfl
  | succ room => exact h.toOption_ofTrees hkeys hnulls name fs.size room 0

theorem ofTree_array_ne_ok (hs : s = .record name fs) {ts : List Tree}
    (h : ts.length < s.reach ∨ fs.size < ts.length) (room : Nat) (v : s.Value) :
    s.ofTree room (.array ts) ≠ .ok v := by
  subst hs
  cases room with
  | zero => nofun
  | succ room =>
    obtain hreach | hsize := h
    · exact Fields.ofTrees_ne_ok_of_reach hreach 0 v
    · exact Fields.ofTrees_ne_ok_of_size hsize 0 v

end Shape

namespace RecordType

/-- The number of keys up to the last one that has to be there. -/
def reach (T : RecordType) : Nat := (Wire.shape T.Value).reach

theorem exists_fields {T : RecordType} (hT : T ≠ .commonDimensions) :
    ∃ name fs, Wire.shape T.Value = .record name fs := by
  cases T with
  | commonDimensions => exact absurd rfl hT
  | _ => exact ⟨_, _, rfl⟩

theorem reachesNulls (T : RecordType) : (Wire.shape T.Value).reachesNulls := by
  cases T <;> rfl

end RecordType

/-- A record that is given as an array is decoded like the object with the same values under its first keys.
Both are refused where they do not reach the last key that has to be there, and so is an array with more values
than there are keys. -/
theorem decode_positions {T : RecordType} (hT : T ≠ .commonDimensions) {items : List String}
    (h : ∀ item ∈ items, ∃ t : Tree, t.Spells (Utf8.encode item.toList)) :
    (items.length ≤ T.keys.length →
      ∀ v, decode T.Value (arrayText items) = .ok v ↔
        decode T.Value (objectText (List.zipWith memberText T.keys items)) = .ok v) ∧
    (items.length < T.reach →
      (∃ refusal, decode T.Value (arrayText items) = .error (.json refusal)) ∧
        ∃ refusal, decode T.Value (objectText (List.zipWith memberText T.keys items)) =
          .error (.json refusal)) ∧
    (T.keys.length < items.length →
      ∃ refusal, decode T.Value (arrayText items) = .error (.json refusal)) := by
  obtain ⟨name, fs, hs⟩ := RecordType.exists_fields hT
  obtain ⟨ts, hts⟩ := exists_forall₂ h
  have hlength : items.length = ts.length := hts.length_eq
  have hkeys : T.keys = fs.keys := congrArg Shape.ownKeys hs
  have hsize : T.keys.length = fs.size := by rw [hkeys, fs.length_keys]
  have hreach : T.reach = fs.reach := congrArg Shape.reach hs
  have hnodup : fs.keys.Nodup := (hs ▸ T.distinct).keys_nodup
  have harray := spells_arrayText hts
  have hrefused : items.length < T.reach ∨ T.keys.length < items.length →
      ∀ v, decode T.Value (arrayText items) ≠ .ok v := by
    intro hlong v hv
    apply Shape.ofTree_array_ne_ok hs _ depthLimit _ ((decodeBytes_spells harray).1 hv)
    rwa [← hlength, ← hsize]
  have hsame : items.length ≤ T.keys.length → ∀ v, decode T.Value (arrayText items) = .ok v ↔
      decode T.Value (objectText (List.zipWith memberText T.keys items)) = .ok v := by
    intro hshort v
    obtain ⟨ms, hkeyed, hms⟩ := Fields.exists_keyed hts (hsize ▸ hshort)
    rw [hkeys, decode, decode, decodeBytes_spells harray, decodeBytes_spells (spells_objectText hms),
      ← toOption_eq_some, ← toOption_eq_some, Shape.toOption_ofTree_keyed hs hkeyed hnodup T.reachesNulls]
  refine ⟨hsame, ?_, ?_⟩
  · intro hshort
    have hle : items.length ≤ T.keys.length := by
      have hfields := fs.reach_le_size
      omega
    refine ⟨decode_eq_error (hrefused (.inl hshort)), decode_eq_error ?_⟩
    intro v hv
    exact hrefused (.inl hshort) v ((hsame hle v).2 hv)
  · intro hlong
    exact decode_eq_error (hrefused (.inr hlong))

/-- A transform needs all of its values, though three of them may be null. -/
theorem decode_positions_transform :
    let items := ["\"n\"", "null", "null", "\"draft\"", "[]", "[\"t\"]", "\"q\"", "[null,1]"]
    let one : Json := .number (.int ⟨1, by decide, by decide⟩)
    (∀ item ∈ items ++ ["false"], ∃ t : Tree, t.Spells (Utf8.encode item.toList)) ∧
      decode Request.Transform
        (objectText (List.zipWith memberText (RecordType.keys .requestTransform) (items ++ ["false"]))) =
          .ok { name := "n", mode := .draft, tags := ["t"], query := "q",
                customMetadata := some (Json.array [.null, one]).canonicalize } ∧
      ∃ refusal, decode Request.Transform (arrayText items) = .error (.json refusal) := by
  intro items one
  let docs : List Json := [.string "n", .null, .null, .string "draft", .array [], .array [.string "t"],
    .string "q", .array [.null, one], .boolean false]
  have hdocs : items ++ ["false"] = docs.map compact := by decide +kernel
  have hspells : ∀ item ∈ items ++ ["false"], ∃ t : Tree, t.Spells (Utf8.encode item.toList) := by
    rw [hdocs, List.forall_mem_map]
    intro j _
    obtain ⟨t, hlaid, -⟩ := exists_tree Layout.isBlank_compact j 0
    refine ⟨t, _, [], ?_, hlaid, blank_nil⟩
    rw [compact, String.toList_ofList, List.append_nil]
  refine ⟨hspells, ?_, ?_⟩
  · have hparse : parse (arrayText (items ++ ["false"])) = .ok (.array docs) :=
      parse_of_eq_compact (by decide +kernel) (by repeat' constructor) (by decide)
    apply ((decode_positions (T := .requestTransform) nofun hspells).1 (by decide) _).1
    exact (decode_eq_ok hparse).2 rfl
  · have hitems : ∀ item ∈ items, ∃ t : Tree, t.Spells (Utf8.encode item.toList) :=
      fun item hitem => hspells item (List.mem_append_left _ hitem)
    exact ((decode_positions (T := .requestTransform) nofun hitems).2.1 (by decide)).1

end MetricCatalog
