import Mathlib.Data.List.Perm.Basic

/-!
# Steps — what has gone well in the end

What is taken from a list, element by element or by passing a state along, is taken only if every step goes
well. So it can be followed from one list to another, step by step.
-/

namespace MetricCatalog.Json

variable {α β γ δ σ τ ε : Type}

/-- What has gone well in the end has gone well before. -/
theorem ok_of_bind {x : Except ε α} {f : α → Except ε β} {b : β} (h : x >>= f = .ok b) :
    ∃ a, x = .ok a ∧ f a = .ok b := by
  cases x with
  | error e => cases h
  | ok a => exact ⟨a, rfl, h⟩

theorem ok_of_map {x : Except ε α} {f : α → β} {b : β} (h : x.map f = .ok b) :
    ∃ a, x = .ok a ∧ f a = b := by
  cases x with
  | error e => cases h
  | ok a => exact ⟨a, rfl, Except.ok.inj h⟩

/-! ## 1. Element by element -/

section

variable {f : α → Except ε β}

theorem mapM_ok_cons {x : α} {xs : List α} {ys : List β} (h : (x :: xs).mapM f = .ok ys) :
    ∃ y more, ys = y :: more ∧ f x = .ok y ∧ xs.mapM f = .ok more := by
  rw [List.mapM_cons] at h
  obtain ⟨y, hy, hmore⟩ := ok_of_bind h
  obtain ⟨more, hys, hlast⟩ := ok_of_bind hmore
  cases hlast
  exact ⟨y, more, rfl, hy, hys⟩

theorem mapM_cons_ok {x : α} {xs : List α} {y : β} {ys : List β} (hy : f x = .ok y)
    (hys : xs.mapM f = .ok ys) : (x :: xs).mapM f = .ok (y :: ys) := by
  rw [List.mapM_cons, hy, hys]
  rfl

/-- What has been found for all of a list has been found for each of its elements. -/
theorem exists_mem_of_mapM {xs : List α} {ys : List β} (h : xs.mapM f = .ok ys) :
    ∀ x ∈ xs, ∃ y ∈ ys, f x = .ok y := by
  induction xs generalizing ys with
  | nil => exact nofun
  | cons x xs ih =>
    obtain ⟨y, more, rfl, hy, hmore⟩ := mapM_ok_cons h
    refine List.forall_mem_cons.2 ⟨⟨y, List.mem_cons_self, hy⟩, fun x' hx' => ?_⟩
    obtain ⟨y', hmem, hy'⟩ := ih hmore x' hx'
    exact ⟨y', List.mem_cons_of_mem _ hmem, hy'⟩

/-- What has been found of a list has been found of one of its elements. -/
theorem exists_of_mem_mapM {xs : List α} {ys : List β} (h : xs.mapM f = .ok ys) :
    ∀ y ∈ ys, ∃ x ∈ xs, f x = .ok y := by
  induction xs generalizing ys with
  | nil =>
    cases h
    exact nofun
  | cons x xs ih =>
    obtain ⟨y, more, rfl, hy, hmore⟩ := mapM_ok_cons h
    refine List.forall_mem_cons.2 ⟨⟨x, List.mem_cons_self, hy⟩, fun y' hy' => ?_⟩
    obtain ⟨x', hx', hread⟩ := ih hmore y' hy'
    exact ⟨x', List.mem_cons_of_mem _ hx', hread⟩

/-- Something has been found for an element in the middle, and whatever something is found for may stand in
its place. -/
theorem exists_of_mapM_append_cons {x' : α} {before after : List α} {ys' : List β}
    (h : (before ++ x' :: after).mapM f = .ok ys') :
    (∃ y', f x' = .ok y') ∧ ∀ x y, f x = .ok y → ∃ ys, (before ++ x :: after).mapM f = .ok ys := by
  induction before generalizing ys' with
  | nil =>
    obtain ⟨y', more, -, hy', hmore⟩ := mapM_ok_cons h
    exact ⟨⟨y', hy'⟩, fun x y hy => ⟨y :: more, mapM_cons_ok hy hmore⟩⟩
  | cons z before ih =>
    obtain ⟨w, more', -, hw, hmore'⟩ := mapM_ok_cons h
    obtain ⟨hfound, hplace⟩ := ih hmore'
    refine ⟨hfound, fun x y hy => ?_⟩
    obtain ⟨more, hmore⟩ := hplace x y hy
    exact ⟨w :: more, mapM_cons_ok hw hmore⟩

theorem mapM_append_cons_inv {x : α} {before after : List α} {ys : List β}
    (h : (before ++ x :: after).mapM f = .ok ys) :
    ∃ ys₁ y ys₂, ys = ys₁ ++ y :: ys₂ ∧ ys₁.length = before.length ∧ f x = .ok y ∧ after.mapM f = .ok ys₂ := by
  induction before generalizing ys with
  | nil =>
    obtain ⟨y, more, rfl, hy, hmore⟩ := mapM_ok_cons h
    exact ⟨[], y, more, rfl, rfl, hy, hmore⟩
  | cons z before ih =>
    obtain ⟨w, more, rfl, -, hmore⟩ := mapM_ok_cons h
    obtain ⟨ys₁, y, ys₂, rfl, hlength, hy, hafter⟩ := ih hmore
    exact ⟨w :: ys₁, y, ys₂, rfl, congrArg (· + 1) hlength, hy, hafter⟩

/-- What has been found for all of a list has been found one by one. -/
theorem forall₂_of_mapM {xs : List α} {ys : List β} (h : xs.mapM f = .ok ys) :
    List.Forall₂ (fun x y => f x = .ok y) xs ys := by
  induction xs generalizing ys with
  | nil =>
    cases h
    exact .nil
  | cons x xs ih =>
    obtain ⟨y, more, rfl, hy, hmore⟩ := mapM_ok_cons h
    exact .cons hy (ih hmore)

theorem mapM_of_forall₂ {xs : List α} {ys : List β}
    (h : List.Forall₂ (fun x y => f x = .ok y) xs ys) : xs.mapM f = .ok ys := by
  induction h with
  | nil => rfl
  | cons hy _ ih => exact mapM_cons_ok hy ih

theorem mapM_congr {g : α → Except ε β} {xs : List α} (h : ∀ x ∈ xs, f x = g x) : xs.mapM f = xs.mapM g := by
  induction xs with
  | nil => rfl
  | cons x xs ih =>
    rw [List.forall_mem_cons] at h
    rw [List.mapM_cons, List.mapM_cons, h.1, ih h.2]

theorem exists_mapM {xs : List α} (h : ∀ x ∈ xs, ∃ y, f x = .ok y) : ∃ ys, xs.mapM f = .ok ys := by
  induction xs with
  | nil => exact ⟨[], rfl⟩
  | cons x xs ih =>
    rw [List.forall_mem_cons] at h
    obtain ⟨y, hy⟩ := h.1
    obtain ⟨ys, hys⟩ := ih h.2
    exact ⟨y :: ys, mapM_cons_ok hy hys⟩

/-- The first element for which nothing is found decides why. -/
theorem mapM_append_cons_error {before after : List α} {x : α} {e : ε} (h : ∀ z ∈ before, ∃ y, f z = .ok y)
    (hx : f x = .error e) : (before ++ x :: after).mapM f = .error e := by
  induction before with
  | nil =>
    rw [List.nil_append, List.mapM_cons, hx]
    rfl
  | cons z before ih =>
    rw [List.forall_mem_cons] at h
    obtain ⟨y, hy⟩ := h.1
    rw [List.cons_append, List.mapM_cons, hy, ih h.2]
    rfl

/-- Where nothing is found for one reason only, and for some element indeed, that is the reason. -/
theorem mapM_eq_error {xs : List α} {e : ε} (h : ∀ x ∈ xs, (∃ y, f x = .ok y) ∨ f x = .error e) {x : α}
    (hx : x ∈ xs) (hfault : f x = .error e) : xs.mapM f = .error e := by
  induction xs with
  | nil => cases hx
  | cons z xs ih =>
    rw [List.forall_mem_cons] at h
    rw [List.mapM_cons]
    cases hz : f z with
    | error e' =>
      simp only [hz, reduceCtorEq, exists_false, false_or] at h
      rw [h.1]
      rfl
    | ok y =>
      have hrest : x ∈ xs := by
        apply List.mem_of_ne_of_mem _ hx
        rintro rfl
        rw [hz] at hfault
        cases hfault
      rw [ih h.2 hrest]
      rfl

theorem exists_forall₂ {R : α → β → Prop} {xs : List α} (h : ∀ x ∈ xs, ∃ y, R x y) :
    ∃ ys, List.Forall₂ R xs ys := by
  induction xs with
  | nil => exact ⟨[], .nil⟩
  | cons x xs ih =>
    rw [List.forall_mem_cons] at h
    obtain ⟨y, hy⟩ := h.1
    obtain ⟨ys, hys⟩ := ih h.2
    exact ⟨y :: ys, .cons hy hys⟩

theorem forall₂_mem_right {R : α → β → Prop} {xs : List α} {ys : List β} (h : List.Forall₂ R xs ys) :
    ∀ y ∈ ys, ∃ x ∈ xs, R x y := by
  induction h with
  | nil => nofun
  | @cons x y xs ys hxy _ ih =>
    rw [List.forall_mem_cons]
    constructor
    · exact ⟨x, List.mem_cons_self, hxy⟩
    · intro z hz
      obtain ⟨x', hx', hR⟩ := ih z hz
      exact ⟨x', List.mem_cons_of_mem _ hx', hR⟩

/-- Where each element is matched by one of another list, so is what is found of it. -/
theorem mapM_forall₂ {g : γ → Except ε δ} {S : β → δ → Prop} {xs : List α} {zs : List γ}
    (h : List.Forall₂ (fun x z => ∀ y, f x = .ok y → ∃ w, g z = .ok w ∧ S y w) xs zs) {ys : List β}
    (hys : xs.mapM f = .ok ys) : ∃ ws, zs.mapM g = .ok ws ∧ List.Forall₂ S ys ws := by
  induction h generalizing ys with
  | nil =>
    cases hys
    exact ⟨[], rfl, .nil⟩
  | cons hfirst _ ih =>
    obtain ⟨y, more, rfl, hy, hmore⟩ := mapM_ok_cons hys
    obtain ⟨w, hw, hS⟩ := hfirst y hy
    obtain ⟨ws, hws, hSs⟩ := ih hmore
    exact ⟨w :: ws, mapM_cons_ok hw hws, .cons hS hSs⟩

/-- In another order the same is found, in that order. -/
theorem mapM_perm {xs xs' : List α} (h : xs.Perm xs') {ys : List β} (hys : xs.mapM f = .ok ys) :
    ∃ ys', xs'.mapM f = .ok ys' ∧ ys.Perm ys' := by
  induction h generalizing ys with
  | nil => exact ⟨ys, hys, .refl _⟩
  | cons x _ ih =>
    obtain ⟨y, more, rfl, hy, hmore⟩ := mapM_ok_cons hys
    obtain ⟨ys', hys', hperm⟩ := ih hmore
    exact ⟨y :: ys', mapM_cons_ok hy hys', hperm.cons y⟩
  | swap x x' xs =>
    obtain ⟨y', more, rfl, hy', hmore⟩ := mapM_ok_cons hys
    obtain ⟨y, ys, rfl, hy, hys'⟩ := mapM_ok_cons hmore
    exact ⟨y :: y' :: ys, mapM_cons_ok hy (mapM_cons_ok hy' hys'), .swap _ _ _⟩
  | trans _ _ ih ih' =>
    obtain ⟨ys', hys', hperm⟩ := ih hys
    obtain ⟨ys'', hys'', hperm'⟩ := ih' hys'
    exact ⟨ys'', hys'', hperm.trans hperm'⟩

end

/-! ## 2. Passing a state along -/

section

variable {step : σ → α → Except ε σ}

theorem foldlM_congr {step' : σ → α → Except ε σ} {xs : List α} (h : ∀ s, ∀ x ∈ xs, step s x = step' s x)
    (s : σ) : xs.foldlM step s = xs.foldlM step' s := by
  induction xs generalizing s with
  | nil => rfl
  | cons x xs ih =>
    have hfirst := h s x List.mem_cons_self
    have hrest := funext fun s' => ih (fun s z hz => h s z (List.mem_cons_of_mem x hz)) s'
    rw [List.foldlM_cons, List.foldlM_cons, hfirst, hrest]

/-- What every step of a fold keeps is kept by the whole fold. -/
theorem foldlM_invariant {P : σ → Prop} {xs : List α}
    (hstep : ∀ s, ∀ x ∈ xs, ∀ s', P s → step s x = .ok s' → P s') {s final : σ} (hs : P s)
    (h : xs.foldlM step s = .ok final) : P final := by
  induction xs generalizing s with
  | nil =>
    cases h
    exact hs
  | cons x xs ih =>
    obtain ⟨s', hs', hmore⟩ := ok_of_bind h
    exact ih (fun s y hy => hstep s y (List.mem_cons_of_mem _ hy)) (hstep s x List.mem_cons_self s' hs hs')
      hmore

theorem foldlM_append_cons_inv {before after : List α} {x : α} {s final : σ}
    (h : (before ++ x :: after).foldlM step s = .ok final) :
    ∃ s₁ s₂, before.foldlM step s = .ok s₁ ∧ step s₁ x = .ok s₂ ∧ after.foldlM step s₂ = .ok final := by
  rw [List.foldlM_append] at h
  obtain ⟨s₁, hbefore, hmore⟩ := ok_of_bind h
  obtain ⟨s₂, hx, hafter⟩ := ok_of_bind hmore
  exact ⟨s₁, s₂, hbefore, hx, hafter⟩

theorem foldlM_append_cons_error {before after : List α} {x : α} {s s₁ : σ} {e : ε}
    (hbefore : before.foldlM step s = .ok s₁) (hx : step s₁ x = .error e) :
    (before ++ x :: after).foldlM step s = .error e := by
  rw [List.foldlM_append, hbefore]
  exact congrArg (· >>= after.foldlM step) hx

/-- A fold that has gone well has gone well at each element. -/
theorem exists_of_mem_foldlM {xs : List α} {s final : σ} (h : xs.foldlM step s = .ok final) :
    ∀ x ∈ xs, ∃ s s', step s x = .ok s' := by
  induction xs generalizing s with
  | nil => exact nofun
  | cons x xs ih =>
    obtain ⟨s', hs', hmore⟩ := ok_of_bind h
    exact List.forall_mem_cons.2 ⟨⟨s, s', hs'⟩, ih hmore⟩

/-- A state is carried over by the whole fold if every step carries it over. -/
theorem foldlM_map {step' : τ → α → Except ε τ} {g : σ → τ} {xs : List α}
    (h : ∀ s, ∀ x ∈ xs, step' (g s) x = (step s x).map g) (s : σ) :
    xs.foldlM step' (g s) = (xs.foldlM step s).map g := by
  induction xs generalizing s with
  | nil => rfl
  | cons x xs ih =>
    rw [List.foldlM_cons, List.foldlM_cons, h s x List.mem_cons_self]
    cases step s x with
    | error e => rfl
    | ok s' => exact ih (fun s y hy => h s y (List.mem_cons_of_mem _ hy)) s'

/-- Where each element is matched by one whose step keeps the states related, so is the whole fold. -/
theorem foldlM_forall₂ {step' : τ → γ → Except ε τ} {R : σ → τ → Prop} {xs : List α} {zs : List γ}
    (h : List.Forall₂ (fun x z => ∀ s r s', R s r → step s x = .ok s' → ∃ r', step' r z = .ok r' ∧ R s' r')
      xs zs) {s final : σ} {r : τ} (hr : R s r) (hfold : xs.foldlM step s = .ok final) :
    ∃ final', zs.foldlM step' r = .ok final' ∧ R final final' := by
  induction h generalizing s r with
  | nil =>
    cases hfold
    exact ⟨r, rfl, hr⟩
  | cons hfirst _ ih =>
    obtain ⟨s', hs', hmore⟩ := ok_of_bind hfold
    obtain ⟨r', hr', hrelated⟩ := hfirst s r s' hr hs'
    rw [List.foldlM_cons, hr']
    exact ih hrelated hmore

/-- Where any two steps can change places, all of them can. -/
theorem foldlM_perm
    (hcomm : ∀ x y s s' s'', step s x = .ok s' → step s' y = .ok s'' →
      ∃ r, step s y = .ok r ∧ step r x = .ok s'')
    {xs xs' : List α} (h : xs.Perm xs') {s final : σ} (hfold : xs.foldlM step s = .ok final) :
    xs'.foldlM step s = .ok final := by
  induction h generalizing s with
  | nil => exact hfold
  | cons x _ ih =>
    obtain ⟨s', hs', hmore⟩ := ok_of_bind hfold
    rw [List.foldlM_cons, hs']
    exact ih hmore
  | swap x y xs =>
    obtain ⟨s', hs', hmore⟩ := ok_of_bind hfold
    obtain ⟨s'', hs'', hlast⟩ := ok_of_bind hmore
    obtain ⟨r, hr, hr'⟩ := hcomm y x s s' s'' hs' hs''
    rw [List.foldlM_cons, hr]
    change (step r y >>= fun s => xs.foldlM step s) = .ok final
    rw [hr']
    exact hlast
  | trans _ _ ih ih' => exact ih' (ih hfold)

end

end MetricCatalog.Json
