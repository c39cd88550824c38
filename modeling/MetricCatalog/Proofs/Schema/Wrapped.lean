import MetricCatalog.Proofs.Schema.Room

/-!
# Wrapped lists — a list under its only key, or alone

An object with a list under its only key is taken like the bare list. The key unsets the list if it is
missing or null, and it cannot be repeated.
-/

namespace MetricCatalog

open Json Json.Tree Shape

variable {α : Type}

/-! ## 1. Members under one key -/

/-- Every key denotes a text. -/
def TextKeys (ms : Members) : Prop := ∀ m ∈ ms, ∃ k, Literal.text m.1 = .ok k

/-- No member has the key. -/
def Without (key : String) (ms : Members) : Prop := ∀ m ∈ ms, Literal.text m.1 ≠ .ok key

/-- No member has the key, or a single one does and has null under it. -/
def UnsetUnder (key : String) (ms : Members) : Prop :=
  Without key ms ∨
    ∃ before k after, ms = before ++ (k, .null) :: after ∧ Literal.text k = .ok key ∧
      Without key (before ++ after)

/-- Two members have the key. -/
def TwiceUnder (key : String) (ms : Members) : Prop :=
  ∃ before m between m' after, ms = before ++ m :: (between ++ m' :: after) ∧
    Literal.text m.1 = .ok key ∧ Literal.text m'.1 = .ok key

section

variable {key : String} {value : Tree → Except Fault (Option α)} {ms before after : Members}
  {k : List Literal.Piece} {t : Tree}

theorem takeMember_other {k' : String} (hk : Literal.text k = .ok k') (hother : k' ≠ key)
    (found : Option (Option α)) : takeMember key value found (k, t) = .ok found := by
  rw [takeMember, hk]
  exact if_neg hother

theorem takeMember_self (hk : Literal.text k = .ok key) (found : Option (Option α)) :
    takeMember key value found (k, t) = takeUnder key found (value t) := by
  rw [takeMember, hk]
  exact if_pos rfl

theorem foldlM_without (htexts : TextKeys ms) (h : Without key ms) (found : Option (Option α)) :
    ms.foldlM (takeMember key value) found = .ok found := by
  induction ms with
  | nil => rfl
  | cons m ms ih =>
    obtain ⟨⟨k, hk⟩, htexts⟩ := List.forall_mem_cons.1 htexts
    obtain ⟨hm, hms⟩ := List.forall_mem_cons.1 h
    have hother : k ≠ key := fun hsame => hm (hsame ▸ hk)
    rw [List.foldlM_cons, takeMember_other hk hother]
    exact ih htexts hms

/-- Of the members only the one under the key is taken. -/
theorem foldUnder_single (hk : Literal.text k = .ok key) (htexts : TextKeys (before ++ after))
    (h : Without key (before ++ after)) :
    foldUnder key value (before ++ (k, t) :: after) = (value t).map some := by
  obtain ⟨htextsBefore, htextsAfter⟩ := List.forall_mem_append.1 htexts
  obtain ⟨hbefore, hafter⟩ := List.forall_mem_append.1 h
  change (before ++ (k, t) :: after).foldlM (takeMember key value) none = _
  rw [List.foldlM_append, foldlM_without htextsBefore hbefore]
  change ((k, t) :: after).foldlM (takeMember key value) none = _
  rw [List.foldlM_cons, takeMember_self hk]
  change (value t >>= fun v => .ok (some v)) >>= _ = _
  cases value t with
  | error e => rfl
  | ok v => exact foldlM_without htextsAfter hafter (some v)

/-- What has been found under a key stays there. -/
theorem isSome_foldlM {found found' : Option (Option α)} (h : found.isSome)
    (hfold : ms.foldlM (takeMember key value) found = .ok found') : found'.isSome := by
  refine foldlM_invariant (P := fun found => found.isSome) (fun found m _ found' hfound hstep => ?_) h hfold
  obtain ⟨k, -, hput⟩ := ok_of_bind hstep
  by_cases hk : k = key
  · rw [if_pos hk] at hput
    rw [takeUnder_eq_ok hput] at hfound
    cases hfound
  · rw [if_neg hk] at hput
    cases hput
    exact hfound

theorem foldUnder_twice (h : TwiceUnder key ms) (found : Option (Option α)) :
    foldUnder key value ms ≠ .ok found := by
  obtain ⟨before, ⟨k, t⟩, between, ⟨k', t'⟩, after, rfl, hk, hk'⟩ := h
  intro hfold
  change (before ++ (k, t) :: (between ++ (k', t') :: after)).foldlM (takeMember key value) none = _ at hfold
  rw [List.foldlM_append] at hfold
  obtain ⟨found₀, -, hfold⟩ := ok_of_bind hfold
  rw [List.foldlM_cons, takeMember_self hk] at hfold
  obtain ⟨found₁, htake, hfold⟩ := ok_of_bind hfold
  rw [List.foldlM_append] at hfold
  obtain ⟨found₂, hbetween, hfold⟩ := ok_of_bind hfold
  rw [List.foldlM_cons, takeMember_self hk'] at hfold
  obtain ⟨found₃, htwice, -⟩ := ok_of_bind hfold
  -- The value of the first member is still there.
  have hsome : found₁.isSome := by
    cases takeUnder_eq_ok htake
    obtain ⟨v, -, hlast⟩ := ok_of_bind htake
    cases hlast
    rfl
  have hkept := isSome_foldlM hsome hbetween
  rw [takeUnder_eq_ok htwice] at hkept
  cases hkept

end

/-! ## 2. The list -/

namespace Shape

variable {key : String} {item : Shape} {room : Nat} {ms : Members} {ts : List Tree} {k : List Literal.Piece}

theorem ofTree_wrapped_array (key : String) (item : Shape) (room : Nat) (ts : List Tree) :
    (Shape.wrapped key item).ofTree (room + 1) (.array ts) = (ts.mapM (item.ofTree room)).map some :=
  rfl

theorem ofTree_wrapped_object (key : String) (item : Shape) (room : Nat) (ms : Members) :
    (Shape.wrapped key item).ofTree (room + 1) (.object ms) =
      (foldUnder key (orNullOfTree (listOfTree room fun room => item.ofTree room)) ms).map (·.getD none) :=
  rfl

/-- Where only one member has the key, its value is taken. -/
theorem ofTree_wrapped_single {before after : Members} (hk : Literal.text k = .ok key)
    (htexts : TextKeys (before ++ after)) (h : Without key (before ++ after)) (t : Tree) :
    (Shape.wrapped key item).ofTree (room + 1) (.object (before ++ (k, t) :: after)) =
      orNullOfTree (listOfTree room fun room => item.ofTree room) t := by
  rw [ofTree_wrapped_object, foldUnder_single hk htexts h]
  cases orNullOfTree (listOfTree room fun room => item.ofTree room) t <;> rfl

theorem ofTree_wrapped_unset (htexts : TextKeys ms) (h : UnsetUnder key ms) :
    (Shape.wrapped key item).ofTree (room + 1) (.object ms) = .ok none := by
  obtain hwithout | ⟨before, k, after, rfl, hk, hwithout⟩ := h
  · rw [ofTree_wrapped_object, show foldUnder key _ ms = .ok none from foldlM_without htexts hwithout none]
    rfl
  · refine ofTree_wrapped_single hk (fun m hm => htexts m ?_) hwithout .null
    exact (List.sublist_cons_self _ _).append_left before |>.subset hm

theorem ofTree_wrapped_twice (h : TwiceUnder key ms) (v : Option (List item.Value)) :
    (Shape.wrapped key item).ofTree room (.object ms) ≠ .ok v := by
  cases room with
  | zero => exact nofun
  | succ room =>
    intro hv
    rw [ofTree_wrapped_object] at hv
    obtain ⟨found, hfold, -⟩ := ok_of_map hv
    exact foldUnder_twice h found hfold

theorem ofTree_wrapped_scalar {t : Tree} (h : t.IsScalar) (v : Option (List item.Value)) :
    (Shape.wrapped key item).ofTree room t ≠ .ok v := by
  cases t with
  | array ts => exact h.elim
  | object ms => exact h.elim
  | _ => exact wrongTree_ne_ok

/-- A list is taken alike, with the same fault if it is refused, under its key and alone. -/
theorem ofTree_wrapped_forms {depth : Nat} (hfits : item.fits depth) (hroom : depth + 2 < room)
    (hk : Literal.text k = .ok key) (ts : List Tree) :
    (Shape.wrapped key item).ofTree room (.object [(k, .array ts)]) =
      (Shape.wrapped key item).ofTree room (.array ts) := by
  obtain ⟨less, rfl⟩ : ∃ less, room = less + 2 := ⟨room - 2, by omega⟩
  -- The key costs the items one bracket, which they do not need.
  have hitem : item.ofTree less = item.ofTree (less + 1) :=
    funext (ofTree_eq_of_fits hfits (by omega) (by omega))
  refine (@ofTree_wrapped_single key item (less + 1) k [] [] hk nofun nofun (.array ts)).trans ?_
  rw [ofTree_wrapped_array, ← hitem]
  change (ts.mapM (item.ofTree less) >>= fun vs => .ok (some vs)) = _
  cases ts.mapM (item.ofTree less) <;> rfl

end Shape

end MetricCatalog
