import MetricCatalog.Proofs.Json.CanonicalForm
import MetricCatalog.Proofs.Json.Rendered
import MetricCatalog.Proofs.Json.Steps

/-!
# Paths — the parts of documents and of trees

A path leads from a document to one of its parts, step by step into an array or an object. What a document has
at the end of a path is written where the same path leads in the tree of its text, and what a tree has there
is denoted where it leads in the document.
-/

namespace MetricCatalog.Json

open Json.Tree

/-! ## 1. Steps -/

/-- A step into an array or an object. -/
inductive Step where
  | item (index : Nat)
  | key (key : String)
deriving DecidableEq

/-- The part of a document at the end of a path, below the first of several equal keys. -/
def at? : Json → List Step → Option Json
  | j, [] => some j
  | .array js, .item index :: path => js[index]?.bind (at? · path)
  | .object ms, .key key :: path => (ms.lookup key).bind (at? · path)
  | _, _ => none

/-- The value of the first member under a key. -/
def Tree.lookup (key : String) (ms : List (List Literal.Piece × Tree)) : Option Tree :=
  (ms.find? fun m => (Literal.text m.1).toOption = some key).map Prod.snd

/-- The part of a tree at the end of a path. -/
def Tree.at? : Tree → List Step → Option Tree
  | t, [] => some t
  | .array ts, .item index :: path => ts[index]?.bind (at? · path)
  | .object ms, .key key :: path => (lookup key ms).bind (at? · path)
  | _, _ => none

theorem at?_append (j : Json) (path more : List Step) :
    j.at? (path ++ more) = (j.at? path).bind (at? · more) := by
  induction path generalizing j with
  | nil => cases j <;> rfl
  | cons step path ih =>
    cases step with
    | item index =>
      cases j with
      | array js => simp [at?, ih, Option.bind_assoc]
      | _ => rfl
    | key key =>
      cases j with
      | object ms => simp [at?, ih, Option.bind_assoc]
      | _ => rfl

theorem at?_nil (j : Json) : j.at? [] = some j := by
  cases j <;> rfl

theorem Tree.at?_nil (t : Tree) : t.at? [] = some t := by
  cases t <;> rfl

/-! ## 2. What is written at the end of a path -/

section

variable {l : Layout} (hl : l.IsBlank)

include hl

/-- Items are laid out as trees, one of which may be chosen. -/
theorem exists_items_at {js : List Json} {index depth : Nat} {part : Json} (h : js[index]? = some part)
    {t : Tree} (ht : Laid t.tokens (Utf8.encode (l.render depth part))) :
    ∃ ts : List Tree, List.Forall₂ (fun piece tokens => Laid tokens (Utf8.encode piece) ∧ tokens ≠ [])
      (l.renderItems depth js) (ts.map tokens) ∧ ts[index]? = some t := by
  induction js generalizing index with
  | nil => cases h
  | cons j js ih =>
    cases index with
    | zero =>
      cases h
      obtain ⟨ts, hts, -⟩ := exists_items hl js depth
      exact ⟨t :: ts, .cons ⟨ht, t.tokens_nonempty⟩ hts, rfl⟩
    | succ index =>
      obtain ⟨u, hu, -⟩ := exists_tree hl j depth
      obtain ⟨ts, hts, hat⟩ := ih h
      exact ⟨u :: ts, .cons ⟨hu, u.tokens_nonempty⟩ hts, hat⟩

theorem exists_members_at {ms : List (String × Json)} {key : String} {depth : Nat} {part : Json}
    (h : ms.lookup key = some part) {t : Tree} (ht : Laid t.tokens (Utf8.encode (l.render depth part))) :
    ∃ us : List (List Literal.Piece × Tree),
      List.Forall₂ (fun piece tokens => Laid tokens (Utf8.encode piece) ∧ tokens ≠ [])
        (l.renderMembers depth ms) (us.map memberTokens) ∧ Tree.lookup key us = some t := by
  induction ms with
  | nil => cases h
  | cons m ms ih =>
    obtain ⟨k, j⟩ := m
    obtain ⟨ps, hbytes, htext⟩ := Literal.exists_pieces k
    by_cases hk : key = k
    · subst hk
      rw [List.lookup_cons_self] at h
      cases h
      obtain ⟨us, hus, -⟩ := exists_members hl ms depth
      refine ⟨(ps, t) :: us, .cons ⟨hl.laid_member hbytes ht, List.cons_ne_nil _ _⟩ hus, ?_⟩
      simp [Tree.lookup, htext, Except.toOption]
    · rw [List.lookup_cons, beq_false_of_ne hk] at h
      obtain ⟨u, hu, -⟩ := exists_tree hl j depth
      obtain ⟨us, hus, hlookup⟩ := ih h
      refine ⟨(ps, u) :: us, .cons ⟨hl.laid_member hbytes hu, List.cons_ne_nil _ _⟩ hus, ?_⟩
      rw [← hlookup]
      simp [Tree.lookup, htext, Except.toOption, Ne.symm hk]

/-- Where a document has a part, the tree of its text has the tree of that part. -/
theorem exists_tree_at {j part : Json} {path : List Step} (h : j.at? path = some part) {u : Tree}
    (hu : ∀ depth, Laid u.tokens (Utf8.encode (l.render depth part))) (depth : Nat) :
    ∃ t : Tree, Laid t.tokens (Utf8.encode (l.render depth j)) ∧ t.at? path = some u := by
  induction path generalizing j depth with
  | nil =>
    rw [at?_nil] at h
    cases h
    exact ⟨u, hu depth, u.at?_nil⟩
  | cons step path ih =>
    cases step with
    | item index =>
      cases j with
      | array js =>
        obtain ⟨j, hj, hpart⟩ := Option.bind_eq_some_iff.1 h
        obtain ⟨t, ht, hat⟩ := ih hpart (depth + 1)
        obtain ⟨ts, hts, hindex⟩ := exists_items_at hl hj ht
        refine ⟨.array ts, ?_, ?_⟩
        · rw [Tree.tokens, tokensOfItems_eq_map]
          exact Layout.laid_enclose hl rfl rfl depth hts
        · rw [Tree.at?, hindex]
          exact hat
      | _ => cases h
    | key key =>
      cases j with
      | object ms =>
        obtain ⟨j, hj, hpart⟩ := Option.bind_eq_some_iff.1 h
        obtain ⟨t, ht, hat⟩ := ih hpart (depth + 1)
        obtain ⟨us, hus, hkey⟩ := exists_members_at hl hj ht
        refine ⟨.object us, ?_, ?_⟩
        · rw [Tree.tokens, tokensOfMembers_eq_map]
          exact Layout.laid_enclose hl rfl rfl depth hus
        · rw [Tree.at?, hkey]
          exact hat
      | _ => cases h

end

/-! ## 3. Places within a document -/

/-- Trees that differ only in what stands at the end of a path. No member behind has the key of a step, so that
the canonical form of the document keeps what stands there. -/
inductive Tree.Within : List Step → (Tree → Tree) → Prop where
  | here : Within [] id
  | item {path : List Step} {fill : Tree → Tree} (before after : List Tree) (h : Within path fill) :
      Within (.item before.length :: path) fun x => .array (before ++ fill x :: after)
  | member {path : List Step} {fill : Tree → Tree} {key : String} {k : List Literal.Piece}
      (before after : List (List Literal.Piece × Tree)) (hk : Literal.text k = .ok key)
      (hlast : ∀ m ∈ after, Literal.text m.1 ≠ .ok key) (h : Within path fill) :
      Within (.key key :: path) fun x => .object (before ++ (k, fill x) :: after)

/-- The canonical form of an object has the value of the last member under a key. -/
theorem lookup_canonicalMembers {before after : List (String × Json)} {key : String} {j : Json}
    (hlast : ∀ m ∈ after, m.1 ≠ key) :
    (canonicalMembers (before ++ (key, j) :: after)).lookup key = some j.canonical := by
  have hafter : after.filter (·.1 = key) = [] := by
    apply List.filter_eq_nil_iff.2
    intro m hm
    simp [hlast m hm]
  rw [lookup_eq_head?, filter_canonicalMembers, List.filter_append, filter_cons_self, hafter,
    List.getLast?_concat]
  rfl

/-- What is denoted at the end of the path is found there in the canonical form of the document. -/
theorem Tree.Within.at?_document {path : List Step} {fill : Tree → Tree} (h : Within path fill) {x : Tree}
    {room : Nat} {doc : Json} (hdoc : (fill x).document room = .ok doc) :
    ∃ less part, x.document less = .ok part ∧ doc.canonical.at? path = some part.canonical := by
  induction h generalizing room doc with
  | here => exact ⟨room, doc, hdoc, doc.canonical.at?_nil⟩
  | item before after h ih =>
    cases room with
    | zero => cases hdoc
    | succ room =>
      rw [document, documents_eq_mapM] at hdoc
      obtain ⟨js, hjs, rfl⟩ := ok_of_map hdoc
      obtain ⟨js₁, j, js₂, rfl, hlength, hj, -⟩ := mapM_append_cons_inv hjs
      obtain ⟨less, part, hpart, hat⟩ := ih hj
      refine ⟨less, part, hpart, ?_⟩
      rw [canonical, canonicalItems_eq_map, List.map_append, List.map_cons, Json.at?, ← hlength]
      simpa using hat
  | @member path fill key k before after hk hlast h ih =>
    cases room with
    | zero => cases hdoc
    | succ room =>
      rw [document, memberDocuments_eq_mapM] at hdoc
      obtain ⟨js, hjs, rfl⟩ := ok_of_map hdoc
      obtain ⟨js₁, m, js₂, rfl, -, hm, hafter⟩ := mapM_append_cons_inv hjs
      rw [memberDocument_eq_map hk] at hm
      obtain ⟨j, hj, rfl⟩ := ok_of_map hm
      have hother : ∀ m ∈ js₂, m.1 ≠ key := by
        intro other hother heq
        obtain ⟨u, hu, hmember⟩ := exists_of_mem_mapM hafter other hother
        obtain ⟨key', hkey, hvalue⟩ := ok_of_bind hmember
        obtain ⟨_, -, hpair⟩ := ok_of_bind hvalue
        cases hpair
        exact hlast u hu (heq ▸ hkey)
      obtain ⟨less, part, hpart, hat⟩ := ih hj
      refine ⟨less, part, hpart, ?_⟩
      rw [canonical, Json.at?, lookup_canonicalMembers hother]
      exact hat

/-- Whatever denotes a document with any room may stand in the place of what denoted one there. -/
theorem Tree.Within.exists_document {path : List Step} {fill : Tree → Tree} (h : Within path fill)
    {x y : Tree} (hx : ∀ room, ∃ doc, x.document room = .ok doc) {room : Nat} {doc : Json}
    (hdoc : (fill y).document room = .ok doc) : ∃ doc, (fill x).document room = .ok doc := by
  induction h generalizing room doc with
  | here => exact hx room
  | item before after h ih =>
    cases room with
    | zero => cases hdoc
    | succ room =>
      rw [document, documents_eq_mapM] at hdoc ⊢
      obtain ⟨js, hjs, -⟩ := ok_of_map hdoc
      obtain ⟨⟨j, hj⟩, hplace⟩ := exists_of_mapM_append_cons hjs
      obtain ⟨j', hj'⟩ := ih hj
      obtain ⟨js', hjs'⟩ := hplace _ j' hj'
      rw [hjs']
      exact ⟨_, rfl⟩
  | @member path fill key k before after hk hlast h ih =>
    cases room with
    | zero => cases hdoc
    | succ room =>
      rw [document, memberDocuments_eq_mapM] at hdoc ⊢
      obtain ⟨js, hjs, -⟩ := ok_of_map hdoc
      obtain ⟨⟨m, hm⟩, hplace⟩ := exists_of_mapM_append_cons hjs
      rw [memberDocument_eq_map hk] at hm
      obtain ⟨j, hj, -⟩ := ok_of_map hm
      obtain ⟨j', hj'⟩ := ih hj
      have hmember : memberDocument room (k, fill x) = .ok (key, j') := by
        rw [memberDocument_eq_map hk, hj']
        rfl
      obtain ⟨js', hjs'⟩ := hplace _ _ hmember
      rw [hjs']
      exact ⟨_, rfl⟩

end MetricCatalog.Json
