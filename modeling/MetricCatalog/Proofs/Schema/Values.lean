import MetricCatalog.Proofs.Schema.Records
import MetricCatalog.Schema.OfJson

/-!
# Values — what is taken from a document, faults left aside

`Shape.value?` is the value that a shape takes from a document, if it takes one. For records this is said
without the order of the members: a field is filled by the only member under its key, and by nothing else
(`Shape.value?_object`).
-/

namespace MetricCatalog

open Json (Fault)
open Shape

variable {α β σ ε : Type}

/-! ## 1. Faults left aside -/

theorem toOption_bind (x : Except ε α) (f : α → Except ε β) :
    (x >>= f).toOption = x.toOption.bind fun a => (f a).toOption := by
  cases x <;> rfl

theorem toOption_map (x : Except ε α) (f : α → β) : (x.map f).toOption = x.toOption.map f := by
  cases x <;> rfl

theorem toOption_eq_some {x : Except ε α} {a : α} : x.toOption = some a ↔ x = .ok a := by
  cases x with
  | error e => exact ⟨nofun, nofun⟩
  | ok b =>
    constructor
    · intro h
      cases h
      rfl
    · intro h
      cases h
      rfl

theorem toOption_mapM (f : β → Except ε α) (xs : List β) :
    (xs.mapM f).toOption = xs.mapM fun x => (f x).toOption := by
  induction xs with
  | nil => rfl
  | cons x xs ih =>
    rw [List.mapM_cons, List.mapM_cons, toOption_bind]
    refine congrArg _ (funext fun a => ?_)
    rw [toOption_bind, ih]
    rfl

theorem toOption_foldlM (f : σ → β → Except ε σ) (xs : List β) (s : σ) :
    (xs.foldlM f s).toOption = xs.foldlM (fun s x => (f s x).toOption) s := by
  induction xs generalizing s with
  | nil => rfl
  | cons x xs ih =>
    rw [List.foldlM_cons, List.foldlM_cons, toOption_bind]
    exact congrArg _ (funext fun a => ih a)

/-- The value that a shape takes from a document. -/
def Shape.value? (s : Shape) (j : Json) : Option s.Value := (s.ofJson j).toOption

/-- The value that a field takes from a document. -/
def Field.value? (f : Field) (j : Json) : Option f.Value := (f.ofJson j).toOption

/-! ## 2. Words, lists and null -/

/-- A word, as a string or as the only key of an object with null under it. -/
def word? (α : Type) [Vocabulary α] : Json → Option α
  | .string s => Vocabulary.ofWord? s
  | .object [(key, .null)] => Vocabulary.ofWord? key
  | _ => none

def list? (item : Json → Option α) : Json → Option (List α)
  | .array js => js.mapM item
  | _ => none

def orNull? (value : Json → Option α) : Json → Option (Option α)
  | .null => some none
  | j => (value j).map some

theorem toOption_spellingOf (α : Type) [Vocabulary α] (word : String) :
    (spellingOf α word).toOption = Vocabulary.ofWord? word := by
  rw [spellingOf]
  cases (Vocabulary.ofWord? word : Option α) <;> rfl

theorem toOption_wordOf (α : Type) [Vocabulary α] (j : Json) : (wordOf α j).toOption = word? α j := by
  cases j with
  | string s => exact toOption_spellingOf α s
  | object ms =>
    rcases ms with _ | ⟨⟨key, j⟩, _ | ⟨m, ms⟩⟩
    · rfl
    · rw [wordOf, toOption_bind, toOption_spellingOf]
      cases j with
      | null => exact Option.bind_fun_some _
      | _ => exact Option.bind_fun_none _
    · cases j <;> rfl
  | _ => rfl

theorem toOption_listOf (item : Json → Except Fault α) (j : Json) :
    (listOf item j).toOption = list? (fun j => (item j).toOption) j := by
  cases j with
  | array js => exact toOption_mapM item js
  | _ => rfl

theorem toOption_orNullOf (value : Json → Except Fault α) (j : Json) :
    (orNullOf value j).toOption = orNull? (fun j => (value j).toOption) j := by
  cases j with
  | null => rfl
  | _ => exact toOption_map _ some

/-! ## 3. Members -/

/-- What is taken under a key: nothing if the key does not occur, and no more than one value. -/
def underKey (key : String) (value : Json → Option α) (ms : List (String × Json)) : Option (Option α) :=
  match ms.filter (·.1 = key) with
  | [] => some none
  | [m] => (value m.2).map some
  | _ => none

theorem takeUnder_some (key : String) (a : α) (value : Except Fault α) :
    takeUnder key (some a) value = .error (.mismatch (.repeatedKey key)) := rfl

/-- Members under other keys do not take part in a fold over the members. -/
theorem foldlM_filter (key : String) {step : σ → String × Json → Option σ}
    (h : ∀ s m, m.1 ≠ key → step s m = some s) (ms : List (String × Json)) (s : σ) :
    ms.foldlM step s = (ms.filter (·.1 = key)).foldlM step s := by
  induction ms generalizing s with
  | nil => rfl
  | cons m ms ih =>
    by_cases hm : m.1 = key
    · rw [List.filter_cons_of_pos (by simpa using hm), List.foldlM_cons, List.foldlM_cons]
      exact congrArg _ (funext fun s => ih s)
    · rw [List.filter_cons_of_neg (by simpa using hm), List.foldlM_cons, h s m hm]
      exact ih s

/-- Taking the values under a key one after the other takes the only one. -/
theorem toOption_foldlM_takeUnder (key : String) (value : Json → Except Fault α)
    (ms : List (String × Json)) :
    (ms.foldlM (fun found m =>
        if m.1 = key then takeUnder key found (value m.2) else return found) none).toOption =
      underKey key (fun j => (value j).toOption) ms := by
  rw [toOption_foldlM, foldlM_filter key fun s m hm => by rw [if_neg hm]; rfl, underKey]
  have hkeys : ∀ m ∈ ms.filter (·.1 = key), m.1 = key :=
    fun m hm => by simpa using (List.mem_filter.1 hm).2
  -- With no member nothing is taken, with one its value, and a second one is refused.
  generalize ms.filter (·.1 = key) = found at hkeys
  rcases found with _ | ⟨m, _ | ⟨m', found⟩⟩
  · rfl
  · rw [List.foldlM_cons, if_pos (hkeys m List.mem_cons_self)]
    show _ = (value m.2).toOption.map some
    cases value m.2 <;> rfl
  · rw [List.foldlM_cons, if_pos (hkeys m List.mem_cons_self)]
    show _ = none
    cases value m.2 with
    | error e => rfl
    | ok a =>
      show (m' :: found).foldlM (fun found m =>
        (if m.1 = key then takeUnder key found (value m.2) else return found).toOption) (some a) = none
      rw [List.foldlM_cons, if_pos (hkeys m' (List.mem_cons_of_mem _ List.mem_cons_self)),
        takeUnder_some]
      rfl

/-- The values of the fields, each under its own key. -/
def Fields.gather : (fs : Fields) → List (String × Json) → Option fs.Values
  | .nil, _ => some ()
  | .cons key field rest, ms => do
    let found ← underKey key field.value? ms
    let v ← found.or field.ifMissing?
    return (v, ← rest.gather ms)

/-- The values of the fields, from the items of an array in their order. -/
def Fields.items? : (fs : Fields) → List Json → Option fs.Values
  | .nil, [] => some ()
  | .nil, _ :: _ => none
  | .cons _ field rest, j :: js => do return (← field.value? j, ← rest.items? js)
  | .cons _ field rest, [] => do return (← field.ifCutOff?, ← rest.items? [])

theorem Fields.toOption_cutOff : (fs : Fields) → (index : Nat) →
    (fs.cutOff index).toOption = fs.items? []
  | .nil, _ => rfl
  | .cons key field rest, index => by
    rw [Fields.cutOff, Fields.items?]
    cases field.ifCutOff? with
    | none => rfl
    | some v =>
      show ((rest.cutOff (index + 1)).map (v, ·)).toOption =
        (rest.items? []).bind fun vs => some (v, vs)
      rw [toOption_map, rest.toOption_cutOff (index + 1)]
      exact Option.map_eq_bind

theorem Fields.toOption_ofItems (name : String) (size count : Nat) : (fs : Fields) → (js : List Json) →
    (index : Nat) → (fs.ofItems name size count js index).toOption = fs.items? js
  | .nil, [], _ => rfl
  | .nil, _ :: _, _ => rfl
  | .cons _ field rest, j :: js, index => by
    rw [Fields.ofItems, Fields.items?]
    refine (toOption_bind _ _).trans (congrArg _ (funext fun v => ?_))
    refine (toOption_bind _ _).trans ?_
    rw [rest.toOption_ofItems name size count js (index + 1)]
    rfl
  | .cons key field rest, [], index => by
    rw [← Fields.toOption_cutOff (.cons key field rest) index, Fields.ofItems]
    cases Fields.cutOff (.cons key field rest) index <;> rfl

/-! ## 4. Records -/

theorem Fields.toOption_put_self {key : String} {field : Field} {rest : Fields} (j : Json)
    (found : Option field.Value) (more : rest.Filling) :
    ((Fields.cons key field rest).put key j (found, more)).toOption =
      (takeUnder key found (field.ofJson j)).toOption.map (·, more) :=
  (congrArg Except.toOption (if_pos rfl)).trans (toOption_map _ _)

theorem Fields.toOption_put_other {key k : String} {field : Field} {rest : Fields} (hk : k ≠ key)
    (j : Json) (found : Option field.Value) (more : rest.Filling) :
    ((Fields.cons key field rest).put k j (found, more)).toOption =
      (rest.put k j more).toOption.map (found, ·) :=
  (congrArg Except.toOption (if_neg hk)).trans (toOption_map _ _)

/-- A member under an unknown key fills nothing. -/
theorem Fields.toOption_put_unknown {j : Json} : {fs : Fields} → {k : String} → k ∉ fs.keys →
    (found : fs.Filling) → (fs.put k j found).toOption = some found
  | .nil, _, _, () => rfl
  | .cons key field rest, k, h, (found, more) => by
    rw [Fields.keys, List.mem_cons, not_or] at h
    rw [Fields.toOption_put_other h.1, Fields.toOption_put_unknown h.2 more]
    rfl

/-- What the fields take from the members one after the other. -/
def Fields.fold (fs : Fields) (ms : List (String × Json)) (found : fs.Filling) : Option fs.Filling :=
  ms.foldlM (fun found m => (fs.put m.1 m.2 found).toOption) found

/-- What a single field takes from the members one after the other. -/
def foldField (key : String) (field : Field) (ms : List (String × Json)) (found : Option field.Value) :
    Option (Option field.Value) :=
  ms.foldlM (fun found m =>
    (if m.1 = key then takeUnder key found (field.ofJson m.2) else return found).toOption) found

theorem option_bind_comm (x : Option α) (y : Option β) (f : α → β → Option σ) :
    (x.bind fun a => y.bind fun b => f a b) = y.bind fun b => x.bind fun a => f a b := by
  cases x <;> cases y <;> rfl

/-- If no later field has the key of the first one, the first is filled apart from the others. -/
theorem Fields.fold_cons {key : String} {field : Field} {rest : Fields} (hkey : key ∉ rest.keys)
    (ms : List (String × Json)) (found : Option field.Value) (more : rest.Filling) :
    (Fields.cons key field rest).fold ms (found, more) =
      (foldField key field ms found).bind fun found =>
        (rest.fold ms more).bind fun more => some (found, more) := by
  induction ms generalizing found more with
  | nil => rfl
  | cons m ms ih =>
    rcases m with ⟨k, j⟩
    show ((Fields.cons key field rest).put k j (found, more)).toOption.bind _ =
      ((if k = key then takeUnder key found (field.ofJson j)
          else return found).toOption.bind _).bind fun found =>
        ((rest.put k j more).toOption.bind _).bind _
    -- Each member is either for the first field or for the later ones.
    by_cases hk : k = key
    · subst hk
      rw [Fields.toOption_put_self, if_pos rfl, Fields.toOption_put_unknown hkey]
      cases (takeUnder k found (field.ofJson j)).toOption with
      | none => rfl
      | some found' => exact ih found' more
    · rw [Fields.toOption_put_other hk, if_neg hk]
      cases (rest.put k j more).toOption with
      | none => exact (Option.bind_fun_none _).symm
      | some more' => exact ih found more'

theorem Fields.toOption_finish_cons {key : String} {field : Field} {rest : Fields}
    (found : Option field.Value) (more : rest.Filling) :
    ((Fields.cons key field rest).finish (found, more)).toOption =
      (found.or field.ifMissing?).bind fun v =>
        (rest.finish more).toOption.bind fun vs => some (v, vs) := by
  rw [Fields.finish]
  cases found.or field.ifMissing? with
  | none => rfl
  | some v =>
    show ((rest.finish more).map (v, ·)).toOption =
      (rest.finish more).toOption.bind fun vs => some (v, vs)
    rw [toOption_map]
    exact Option.map_eq_bind

theorem foldField_unfilled (key : String) (field : Field) (ms : List (String × Json)) :
    foldField key field ms none = underKey key field.value? ms := by
  rw [foldField, ← toOption_foldlM]
  exact toOption_foldlM_takeUnder key field.ofJson ms

/-- If the keys are distinct, the order in which the members come does not matter. -/
theorem Fields.fold_finish : (fs : Fields) → fs.keys.Nodup → (ms : List (String × Json)) →
    ((fs.fold ms fs.unfilled).bind fun found => (fs.finish found).toOption) = fs.gather ms
  | .nil, _, ms => by
    have hfold : Fields.nil.fold ms () = some () := by
      induction ms with
      | nil => rfl
      | cons m ms ih => exact ih
    show (Fields.nil.fold ms ()).bind _ = _
    rw [hfold]
    rfl
  | .cons key field rest, hkeys, ms => by
    rcases List.nodup_cons.1 hkeys with ⟨hkey, hrest⟩
    have hgather := Fields.fold_finish rest hrest ms
    show ((Fields.cons key field rest).fold ms (none, rest.unfilled)).bind _ =
      (underKey key field.value? ms).bind fun found => (found.or field.ifMissing?).bind fun v =>
        (rest.gather ms).bind fun more => some (v, more)
    rw [Fields.fold_cons hkey, foldField_unfilled, ← hgather]
    refine (Option.bind_assoc _ _ _).trans (congrArg _ (funext fun found => ?_))
    refine (Option.bind_assoc _ _ _).trans ?_
    -- The later fields are filled before the first is finished, but neither depends on the other.
    refine (congrArg _ (funext fun more => Fields.toOption_finish_cons found more)).trans ?_
    refine (option_bind_comm _ _ _).trans (congrArg _ (funext fun v => ?_))
    exact (Option.bind_assoc _ _ _).symm

/-- A record takes the only value under each of its keys. -/
theorem Shape.value?_object (name : String) {fields : Fields} (hkeys : fields.keys.Nodup)
    (ms : List (String × Json)) :
    (Shape.record name fields).value? (.object ms) = fields.gather ms := by
  rw [← fields.fold_finish hkeys ms, Fields.fold, ← toOption_foldlM]
  refine (toOption_bind _ _).trans (congrArg _ (funext fun found => ?_))
  cases fields.finish found <;> rfl

theorem Shape.value?_array (name : String) (fields : Fields) (js : List Json) :
    (Shape.record name fields).value? (.array js) = fields.items? js :=
  fields.toOption_ofItems name fields.size js.length js 0

theorem Shape.value?_word (α : Type) [Vocabulary α] (j : Json) : (Shape.word α).value? j = word? α j :=
  toOption_wordOf α j

theorem Shape.value?_list (item : Shape) (j : Json) :
    (Shape.list item).value? j = list? item.value? j :=
  toOption_listOf item.ofJson j

theorem Shape.value?_wrappedObject (key : String) (item : Shape) (ms : List (String × Json)) :
    (Shape.wrapped key item).value? (.object ms) =
      (underKey key (orNull? (list? item.value?)) ms).map fun found => found.getD none := by
  have hvalue : (fun j => (orNullOf (listOf item.ofJson) j).toOption) =
      orNull? (list? item.value?) := by
    funext j
    rw [toOption_orNullOf]
    exact congrArg (orNull? · j) (funext fun j => toOption_listOf item.ofJson j)
  rw [← hvalue, ← toOption_foldlM_takeUnder, ← toOption_map]
  rfl

theorem Shape.value?_wrappedArray (key : String) (item : Shape) (js : List Json) :
    (Shape.wrapped key item).value? (.array js) = (js.mapM item.value?).map some := by
  rw [show js.mapM item.value? = (js.mapM item.ofJson).toOption from
    (toOption_mapM item.ofJson js).symm]
  exact toOption_map _ some

theorem Field.value?_listing (item : Shape) (j : Json) :
    (Field.listing item).value? j = list? item.value? j :=
  toOption_listOf item.ofJson j

theorem Field.value?_nullable (shape : Shape) (j : Json) :
    (Field.nullable shape).value? j = orNull? shape.value? j :=
  toOption_orNullOf shape.ofJson j

theorem Field.value?_optional (shape : Shape) (j : Json) :
    (Field.optional shape).value? j = orNull? shape.value? j :=
  toOption_orNullOf shape.ofJson j

theorem Field.value?_sparse (shape : Shape) (j : Json) :
    (Field.sparse shape).value? j = orNull? shape.value? j :=
  toOption_orNullOf shape.ofJson j

theorem Field.value?_flag (j : Json) :
    Field.flag.value? j = (orNull? Shape.truth.value? j).map fun found => found.getD false := by
  show ((orNullOf truthOf j).map fun found => found.getD false).toOption = _
  rw [toOption_map, toOption_orNullOf]
  rfl

end MetricCatalog
