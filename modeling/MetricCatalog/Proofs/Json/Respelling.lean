import MetricCatalog.Proofs.Json.CanonicalForm
import MetricCatalog.Proofs.Json.Document

/-!
# Respelling — texts that say the same

Two trees are respellings of each other if they differ only in the order of the members of their objects and
in how their literals spell the same text. If no object repeats a key, they denote documents with one
canonical form.
-/

namespace MetricCatalog.Json

/-! ## 1. Trees -/

/-- Two literals that denote one text, or both none. -/
def Literal.SameText (l l' : List Literal.Piece) : Prop := ∀ s, text l = .ok s ↔ text l' = .ok s

theorem Literal.sameText_of_text {l l' : List Literal.Piece} {s : String} (h : text l = .ok s)
    (h' : text l' = .ok s) : SameText l l' := by
  intro r
  rw [h, h']

theorem Literal.SameText.symm {l l' : List Literal.Piece} (h : SameText l l') : SameText l' l :=
  fun s => (h s).symm

namespace Tree

mutual

/-- The trees differ only in the order of members and in the spelling of literals. -/
inductive Respelled : Tree → Tree → Prop where
  | null : Respelled .null .null
  | boolean (b : Bool) : Respelled (.boolean b) (.boolean b)
  | number (n : Numeral.Token) : Respelled (.number n) (.number n)
  | string {l l' : List Literal.Piece} (h : Literal.SameText l l') : Respelled (.string l) (.string l')
  | array {ts ts' : List Tree} (h : List.Forall₂ Respelled ts ts') : Respelled (.array ts) (.array ts')
  | object {ms ms' reordered : List (List Literal.Piece × Tree)} (h : List.Forall₂ RespelledMember ms ms')
      (hperm : ms'.Perm reordered) : Respelled (.object ms) (.object reordered)

inductive RespelledMember : List Literal.Piece × Tree → List Literal.Piece × Tree → Prop where
  | intro {k k' : List Literal.Piece} {t t' : Tree} (hkey : Literal.SameText k k') (h : Respelled t t') :
      RespelledMember (k, t) (k', t')

end

mutual

/-- No object of the tree repeats a key, however it is spelled. -/
def KeysDistinct : Tree → Prop
  | .array ts => KeysDistinctItems ts
  | .object ms => (ms.filterMap fun m => (Literal.text m.1).toOption).Nodup ∧ KeysDistinctMembers ms
  | _ => True

def KeysDistinctItems : List Tree → Prop
  | [] => True
  | t :: ts => KeysDistinct t ∧ KeysDistinctItems ts

def KeysDistinctMembers : List (List Literal.Piece × Tree) → Prop
  | [] => True
  | (_, t) :: ms => KeysDistinct t ∧ KeysDistinctMembers ms

end

/-- Induction on where the trees differ. -/
theorem Respelled.induct {P : Tree → Tree → Prop} (null : P .null .null)
    (boolean : ∀ b, P (.boolean b) (.boolean b)) (number : ∀ n, P (.number n) (.number n))
    (string : ∀ l l', Literal.SameText l l' → P (.string l) (.string l'))
    (array : ∀ ts ts', List.Forall₂ (fun t t' => t.Respelled t' ∧ P t t') ts ts' →
      P (.array ts) (.array ts'))
    (object : ∀ ms ms' reordered,
      List.Forall₂ (fun m m' => Literal.SameText m.1 m'.1 ∧ m.2.Respelled m'.2 ∧ P m.2 m'.2) ms ms' →
      ms'.Perm reordered → P (.object ms) (.object reordered))
    {t t' : Tree} (h : t.Respelled t') : P t t' := by
  refine @Respelled.rec (fun t t' _ => P t t')
    (fun m m' _ => Literal.SameText m.1 m'.1 ∧ m.2.Respelled m'.2 ∧ P m.2 m'.2)
    (fun ts ts' _ => List.Forall₂ (fun t t' => t.Respelled t' ∧ P t t') ts ts')
    (fun ms ms' _ => List.Forall₂
      (fun m m' => Literal.SameText m.1 m'.1 ∧ m.2.Respelled m'.2 ∧ P m.2 m'.2) ms ms')
    null boolean number (fun h => string _ _ h) (fun _ ih => array _ _ ih)
    (fun _ hperm ih => object _ _ _ ih hperm) ?_ ?_ ?_ ?_ ?_ t t' h
  · intro _ _ _ _ hkey h ih
    exact ⟨hkey, h, ih⟩
  · exact .nil
  · intro _ _ _ _ h _ ih ihs
    exact .cons ⟨h, ih⟩ ihs
  · exact .nil
  · intro _ _ _ _ _ _ ih ihs
    exact .cons ih ihs

theorem respelledMember_iff {m m' : List Literal.Piece × Tree} :
    RespelledMember m m' ↔ Literal.SameText m.1 m'.1 ∧ Respelled m.2 m'.2 := by
  constructor
  · rintro ⟨hkey, h⟩
    exact ⟨hkey, h⟩
  · rintro ⟨hkey, h⟩
    exact .intro hkey h

theorem Respelled.symm {t t' : Tree} (h : t.Respelled t') : t'.Respelled t := by
  refine h.induct (P := fun t t' => Respelled t' t) .null .boolean .number ?_ ?_ ?_
  · intro l l' h
    exact .string h.symm
  · intro ts ts' h
    exact .array (List.Forall₂.flip (h.imp fun t t' h => h.2))
  · intro ms ms' reordered h hperm
    -- The members are put back in order first, and then are respelled.
    have hback : List.Forall₂ RespelledMember ms' ms :=
      List.Forall₂.flip (h.imp fun m m' h => respelledMember_iff.2 ⟨h.1.symm, h.2.2⟩)
    obtain ⟨ordered, hmembers, hordered⟩ := List.perm_comp_forall₂ hperm.symm hback
    exact .object hmembers hordered

theorem KeysDistinctItems.forall {ts : List Tree} (h : KeysDistinctItems ts) : ∀ t ∈ ts, t.KeysDistinct := by
  induction ts with
  | nil => exact nofun
  | cons t ts ih => exact List.forall_mem_cons.2 ⟨h.1, ih h.2⟩

theorem KeysDistinctMembers.forall {ms : List (List Literal.Piece × Tree)} (h : KeysDistinctMembers ms) :
    ∀ m ∈ ms, m.2.KeysDistinct := by
  induction ms with
  | nil => exact nofun
  | cons m ms ih => exact List.forall_mem_cons.2 ⟨h.1, ih h.2⟩

end Tree

/-! ## 2. Members in another order -/

/-- Where no key is repeated, the order of members does not matter for the canonical form. -/
theorem canonicalMembers_perm {ms ms' : List (String × Json)} (h : ms.Perm ms')
    (hkeys : (ms.map Prod.fst).Nodup) : canonicalMembers ms = canonicalMembers ms' := by
  have hkeys' : (ms'.map Prod.fst).Nodup := (h.map Prod.fst).nodup_iff.1 hkeys
  have hperm : (canonicalMembers ms).Perm (canonicalMembers ms') :=
    ((perm_canonicalMembers hkeys).trans (h.map canonicalMember)).trans (perm_canonicalMembers hkeys').symm
  refine hperm.eq_of_pairwise (fun a b _ _ hab hba => ?_) (ascending_canonicalMembers ms)
    (ascending_canonicalMembers ms')
  exact absurd hba (String.lt_asymm hab)

theorem canonicalMembers_congr {ms ms' : List (String × Json)}
    (h : List.Forall₂ (fun m m' => canonicalMember m = canonicalMember m') ms ms') :
    canonicalMembers ms = canonicalMembers ms' := by
  induction h with
  | nil => rfl
  | cons hm _ ih =>
    obtain ⟨hkey, hvalue⟩ := Prod.mk.inj hm
    rw [canonicalMembers, canonicalMembers, hkey, hvalue, ih]

theorem canonicalItems_congr {js js' : List Json}
    (h : List.Forall₂ (fun j j' => j.canonical = j'.canonical) js js') :
    canonicalItems js = canonicalItems js' := by
  induction h with
  | nil => rfl
  | cons hj _ ih => rw [canonicalItems, canonicalItems, hj, ih]

/-! ## 3. Documents -/

/-- The keys of an object are those of the document that it denotes. -/
theorem Tree.keys_eq {room : Nat} {ms : List (List Literal.Piece × Tree)} {js : List (String × Json)}
    (h : ms.mapM (memberDocument room) = .ok js) :
    (ms.filterMap fun m => (Literal.text m.1).toOption) = js.map Prod.fst := by
  induction ms generalizing js with
  | nil =>
    cases h
    rfl
  | cons m ms ih =>
    obtain ⟨j, more, rfl, hj, hmore⟩ := mapM_ok_cons h
    obtain ⟨key, hkey, hvalue⟩ := ok_of_bind hj
    obtain ⟨doc, -, hlast⟩ := ok_of_bind hvalue
    cases hlast
    rw [List.filterMap_cons, hkey, List.map_cons, ← ih hmore]
    rfl

/-- Respellings denote documents with one canonical form, if no key is repeated. -/
theorem Tree.Respelled.document {t t' : Tree} (h : t.Respelled t') : t.KeysDistinct →
    ∀ room doc, t.document room = .ok doc →
      ∃ doc', t'.document room = .ok doc' ∧ doc.canonical = doc'.canonical := by
  refine h.induct (P := fun t t' => t.KeysDistinct → ∀ room doc, t.document room = .ok doc →
    ∃ doc', t'.document room = .ok doc' ∧ doc.canonical = doc'.canonical) ?_ ?_ ?_ ?_ ?_ ?_
  · exact fun _ _ doc hdoc => ⟨doc, hdoc, rfl⟩
  · exact fun _ _ _ doc hdoc => ⟨doc, hdoc, rfl⟩
  · exact fun _ _ _ doc hdoc => ⟨doc, hdoc, rfl⟩
  · intro l l' h _ room doc hdoc
    obtain ⟨s, hs, rfl⟩ := ok_of_map hdoc
    exact ⟨.string s, congrArg (Except.map Json.string) ((h s).1 hs), rfl⟩
  · intro ts ts' h hdistinct room doc hdoc
    cases room with
    | zero => cases hdoc
    | succ room =>
      rw [Tree.document, documents_eq_mapM] at hdoc
      obtain ⟨js, hjs, rfl⟩ := ok_of_map hdoc
      have hitems : List.Forall₂ (fun t t' => ∀ j, Tree.document room t = .ok j →
          ∃ j', Tree.document room t' = .ok j' ∧ j.canonical = j'.canonical) ts ts' :=
        ((List.forall₂_and_left _ _).2 ⟨KeysDistinctItems.forall hdistinct, h⟩).imp
          fun t t' h => h.2.2 h.1 room
      obtain ⟨js', hjs', hcanonical⟩ := mapM_forall₂ hitems hjs
      refine ⟨.array js', ?_, congrArg Json.array (canonicalItems_congr hcanonical)⟩
      rw [Tree.document, documents_eq_mapM, hjs']
      rfl
  · intro ms ms' reordered h hperm hdistinct room doc hdoc
    cases room with
    | zero => cases hdoc
    | succ room =>
      rw [Tree.document, memberDocuments_eq_mapM] at hdoc
      obtain ⟨js, hjs, rfl⟩ := ok_of_map hdoc
      have hmembers : List.Forall₂ (fun m m' => ∀ j, memberDocument room m = .ok j →
          ∃ j', memberDocument room m' = .ok j' ∧ canonicalMember j = canonicalMember j') ms ms' := by
        refine ((List.forall₂_and_left _ _).2 ⟨KeysDistinctMembers.forall hdistinct.2, h⟩).imp ?_
        rintro m m' ⟨hm, hkey, -, hvalue⟩ j hj
        obtain ⟨key, htext, hmore⟩ := ok_of_bind hj
        obtain ⟨doc, hdoc, hlast⟩ := ok_of_bind hmore
        cases hlast
        obtain ⟨doc', hdoc', hcanonical⟩ := hvalue hm room doc hdoc
        refine ⟨(key, doc'), ?_, congrArg (Prod.mk key) hcanonical⟩
        rw [memberDocument, (hkey key).1 htext, hdoc']
        rfl
      -- First each member is respelled, and then they are put in another order.
      obtain ⟨respelled, hrespelled, hcanonical⟩ := mapM_forall₂ hmembers hjs
      obtain ⟨js', hjs', hreordered⟩ := mapM_perm hperm hrespelled
      have hkeys : js.map Prod.fst = respelled.map Prod.fst := by
        rw [← List.forall₂_eq_eq_eq, List.forall₂_map_left_iff, List.forall₂_map_right_iff]
        exact hcanonical.imp fun _ _ h => (Prod.mk.inj h).1
      have hnodup : (respelled.map Prod.fst).Nodup := hkeys ▸ Tree.keys_eq hjs ▸ hdistinct.1
      refine ⟨.object js', ?_, congrArg Json.object ?_⟩
      · rw [Tree.document, memberDocuments_eq_mapM, hjs']
        rfl
      · exact (canonicalMembers_congr hcanonical).trans (canonicalMembers_perm hreordered hnodup)

end MetricCatalog.Json
