import MetricCatalog.Proofs.Json.Paths
import MetricCatalog.Proofs.Json.Unambiguous

/-!
# Stored documents — what is kept of a tree and how it is written

Of an object with any members a sorted one is kept, in which each key occurs once, with the value of its last
member. An array is kept item by item. What is kept is written as it is, in every layout.
-/

namespace MetricCatalog.Json

open Scan Json.Tree

/-! ## 1. What is kept -/

/-- The value of the last member under a key. -/
def Tree.last? (key : String) (ms : List (List Literal.Piece × Tree)) : Option Tree := lookup key ms.reverse

/-- The document is kept of the tree: the keys of each object ascend, and under each stands what is kept of the
last member with this key. -/
inductive Tree.Stored : Tree → Json → Prop where
  | null : Stored .null .null
  | boolean (b : Bool) : Stored (.boolean b) (.boolean b)
  | number {n : Numeral.Token} {x : Number} (h : n.numeral.number = .ok x) : Stored (.number n) (.number x)
  | string {l : List Literal.Piece} {s : String} (h : Literal.text l = .ok s) : Stored (.string l) (.string s)
  | array {ts : List Tree} {js : List Json} (items : List.Forall₂ Stored ts js) :
      Stored (.array ts) (.array js)
  | object {ms : List (List Literal.Piece × Tree)} {ns : List (String × Json)} (ascending : Ascending ns)
      (values : ∀ key, Option.Rel Stored (last? key ms) (ns.lookup key)) : Stored (.object ms) (.object ns)

/-- Under each key the canonical form has the value of the last member with this key. -/
theorem lookup_canonicalMembers_eq (key : String) (ms : List (String × Json)) :
    (canonicalMembers ms).lookup key = (ms.reverse.lookup key).map canonical := by
  rw [lookup_eq_head?, lookup_eq_head?, filter_canonicalMembers, List.filter_reverse, List.head?_reverse]
  cases (ms.filter (·.1 = key)).getLast? <;> rfl

/-- Members that are matched by others in their order are found together with them. -/
theorem lookup_forall₂ {R : Tree → Json → Prop} {ms : List (List Literal.Piece × Tree)}
    {ns : List (String × Json)}
    (h : List.Forall₂ (fun m n => Literal.text m.1 = .ok n.1 ∧ R m.2 n.2) ms ns) (key : String) :
    Option.Rel R (Tree.lookup key ms) (ns.lookup key) := by
  induction h with
  | nil => exact .none
  | @cons m n ms ns hfirst _ ih =>
    obtain ⟨k, t⟩ := m
    obtain ⟨k', j⟩ := n
    obtain ⟨hk, hR⟩ : Literal.text k = .ok k' ∧ R t j := hfirst
    by_cases hkey : key = k'
    · subst hkey
      rw [List.lookup_cons_self, show Tree.lookup key ((k, t) :: ms) = some t by
        simp [Tree.lookup, hk, Except.toOption]]
      exact .some hR
    · rw [List.lookup_cons, beq_false_of_ne hkey, show Tree.lookup key ((k, t) :: ms) = Tree.lookup key ms by
        simp [Tree.lookup, hk, Except.toOption, Ne.symm hkey]]
      exact ih

theorem memberDocument_eq_ok {room : Nat} {m : List Literal.Piece × Tree} {n : String × Json}
    (h : memberDocument room m = .ok n) : Literal.text m.1 = .ok n.1 ∧ m.2.document room = .ok n.2 := by
  obtain ⟨key, hkey, hmore⟩ := ok_of_bind h
  obtain ⟨j, hj, hlast⟩ := ok_of_bind hmore
  cases hlast
  exact ⟨hkey, hj⟩

/-- The canonical form of what a tree denotes is kept of the tree. -/
theorem Tree.stored_document {t : Tree} {room : Nat} {doc : Json} (h : t.document room = .ok doc) :
    t.Stored doc.canonical := by
  induction t generalizing room doc with
  | null =>
    cases h
    exact .null
  | boolean b =>
    cases h
    exact .boolean b
  | number n =>
    obtain ⟨x, hx, rfl⟩ := ok_of_map h
    exact .number hx
  | string l =>
    obtain ⟨s, hs, rfl⟩ := ok_of_map h
    exact .string hs
  | array ts ih =>
    cases room with
    | zero => cases h
    | succ room =>
      rw [document, documents_eq_mapM] at h
      obtain ⟨js, hjs, rfl⟩ := ok_of_map h
      have hitems : List.Forall₂ (fun t j => t.Stored (canonical j)) ts js :=
        ((List.forall₂_and_left ts js).2 ⟨ih, forall₂_of_mapM hjs⟩).imp fun _ _ h => h.1 h.2
      rw [canonical, canonicalItems_eq_map]
      exact .array (List.forall₂_map_right_iff.2 hitems)
  | object ms ih =>
    cases room with
    | zero => cases h
    | succ room =>
      rw [document, memberDocuments_eq_mapM] at h
      obtain ⟨ns, hns, rfl⟩ := ok_of_map h
      have hmembers : List.Forall₂
          (fun m n => Literal.text m.1 = .ok n.1 ∧ m.2.Stored (canonical n.2)) ms ns := by
        refine ((List.forall₂_and_left ms ns).2 ⟨ih, forall₂_of_mapM hns⟩).imp fun m n hm => ?_
        obtain ⟨htext, hdoc⟩ := memberDocument_eq_ok hm.2
        exact ⟨htext, hm.1 hdoc⟩
      refine .object (ascending_canonicalMembers ns) fun key => ?_
      -- From the end, the first member under a key is the last one.
      have hfound : Option.Rel (fun t j => t.Stored (canonical j)) (last? key ms) (ns.reverse.lookup key) :=
        lookup_forall₂ (List.forall₂_reverse_iff.2 hmembers) key
      rw [lookup_canonicalMembers_eq]
      generalize last? key ms = found, ns.reverse.lookup key = kept at hfound
      cases hfound with
      | none => exact .none
      | some h => exact .some h

/-! ## 2. What is written -/

/-- The tree is written for the document, item by item and member by member, with the literals and numerals that
the document is written with. -/
inductive Tree.Writes : Tree → Json → Prop where
  | null : Writes .null .null
  | boolean (b : Bool) : Writes (.boolean b) (.boolean b)
  | number {n : Numeral.Token} {x : Number} (h : n.bytes = Utf8.encode x.render) : Writes (.number n) (.number x)
  | string {l : List Literal.Piece} {s : String} (h : Literal.bytes l = Utf8.encode (literal s)) :
      Writes (.string l) (.string s)
  | array {ts : List Tree} {js : List Json} (items : List.Forall₂ Writes ts js) :
      Writes (.array ts) (.array js)
  | object {ms : List (List Literal.Piece × Tree)} {ns : List (String × Json)}
      (keys : List.Forall₂ (fun m n => Literal.bytes m.1 = Utf8.encode (literal n.1)) ms ns)
      (values : List.Forall₂ Writes (ms.map Prod.snd) (ns.map Prod.snd)) : Writes (.object ms) (.object ns)

theorem exists_written_number (x : Number) : ∃ n : Numeral.Token, n.bytes = Utf8.encode x.render := by
  cases x with
  | int i =>
    obtain ⟨n, hbytes, -⟩ := Numeral.exists_token i
    exact ⟨n, hbytes⟩
  | float x =>
    obtain ⟨m, hwf, hwritten⟩ := Numeral.exists_written_renderFloat x
    obtain ⟨n, -, hbytes⟩ := Numeral.exists_token_written hwf
    exact ⟨n, hbytes.trans (congrArg Utf8.encode hwritten)⟩

mutual

theorem exists_writes : (j : Json) → ∃ t : Tree, t.Writes j
  | .null => ⟨.null, .null⟩
  | .boolean b => ⟨.boolean b, .boolean b⟩
  | .number x => by
    obtain ⟨n, hn⟩ := exists_written_number x
    exact ⟨.number n, .number hn⟩
  | .string s => by
    obtain ⟨l, hl, -⟩ := Literal.exists_pieces s
    exact ⟨.string l, .string hl⟩
  | .array js => by
    obtain ⟨ts, hts⟩ := exists_writesItems js
    exact ⟨.array ts, .array hts⟩
  | .object ns => by
    obtain ⟨ms, hkeys, hvalues⟩ := exists_writesMembers ns
    exact ⟨.object ms, .object hkeys hvalues⟩

theorem exists_writesItems : (js : List Json) → ∃ ts, List.Forall₂ Tree.Writes ts js
  | [] => ⟨[], .nil⟩
  | j :: js => by
    obtain ⟨t, ht⟩ := exists_writes j
    obtain ⟨ts, hts⟩ := exists_writesItems js
    exact ⟨t :: ts, .cons ht hts⟩

theorem exists_writesMembers : (ns : List (String × Json)) → ∃ ms : List (List Literal.Piece × Tree),
    List.Forall₂ (fun m n => Literal.bytes m.1 = Utf8.encode (literal n.1)) ms ns ∧
      List.Forall₂ Tree.Writes (ms.map Prod.snd) (ns.map Prod.snd)
  | [] => ⟨[], .nil, .nil⟩
  | (key, j) :: ns => by
    obtain ⟨k, hk, -⟩ := Literal.exists_pieces key
    obtain ⟨t, ht⟩ := exists_writes j
    obtain ⟨ms, hkeys, hvalues⟩ := exists_writesMembers ns
    exact ⟨(k, t) :: ms, .cons hk hkeys, .cons ht hvalues⟩

end

theorem Tree.Writes.members {ms : List (List Literal.Piece × Tree)} {ns : List (String × Json)}
    (h : (Tree.object ms).Writes (.object ns)) :
    List.Forall₂ (fun m n => Literal.bytes m.1 = Utf8.encode (literal n.1) ∧ m.2.Writes n.2) ms ns := by
  cases h with
  | object keys values =>
    rw [List.forall₂_map_left_iff, List.forall₂_map_right_iff] at values
    exact keys.mp (fun _ _ hkey hvalue => ⟨hkey, hvalue⟩) values

/-- The tree is laid out as the document is, whatever the layout. -/
theorem Tree.Writes.laid {l : Layout} (hl : l.IsBlank) {t : Tree} {j : Json} (h : t.Writes j) (depth : Nat) :
    Laid t.tokens (Utf8.encode (l.render depth j)) := by
  induction t generalizing j depth with
  | null =>
    cases h
    exact laid_single blank_nil _
  | boolean b =>
    cases h
    cases b <;> exact laid_single blank_nil _
  | number n =>
    cases h with
    | number h =>
      rw [tokens, h]
      exact laid_single blank_nil _
  | string k =>
    cases h with
    | string h =>
      rw [tokens, h]
      exact laid_single blank_nil _
  | array ts ih =>
    cases h with
    | @array _ js items =>
      have hlaid := (List.forall₂_and_left ts js).2 ⟨ih, items⟩
      rw [tokens, tokensOfItems_eq_map]
      refine Layout.laid_enclose hl rfl rfl depth ?_
      rw [Layout.renderItems_eq_map, List.forall₂_map_left_iff, List.forall₂_map_right_iff]
      exact hlaid.flip.imp fun j t h => ⟨h.1 h.2 (depth + 1), t.tokens_nonempty⟩
  | object ms ih =>
    cases j with
    | object ns =>
      have hlaid := (List.forall₂_and_left ms ns).2 ⟨ih, h.members⟩
      rw [tokens, tokensOfMembers_eq_map]
      refine Layout.laid_enclose hl rfl rfl depth ?_
      rw [Layout.renderMembers_eq_map, List.forall₂_map_left_iff, List.forall₂_map_right_iff]
      refine hlaid.flip.imp fun n m h => ?_
      obtain ⟨hvalue, hkey, hwrites⟩ := h
      exact ⟨hl.laid_member hkey (hvalue hwrites (depth + 1)), List.cons_ne_nil _ _⟩
    | _ => cases h

/-! ## 3. Ascending keys -/

/-- In each object of the tree the texts that its keys denote ascend strictly. -/
inductive Tree.Ascends : Tree → Prop where
  | scalar {t : Tree} (h : t.IsScalar) : Ascends t
  | array {ts : List Tree} (items : ∀ t ∈ ts, Ascends t) : Ascends (.array ts)
  | object {ms : List (List Literal.Piece × Tree)} {names : List String}
      (texts : List.Forall₂ (fun m name => Literal.text m.1 = .ok name) ms names)
      (ascending : names.Pairwise (· < ·)) (values : ∀ m ∈ ms, Ascends m.2) : Ascends (.object ms)

/-- A literal that a text is written with denotes the text. -/
theorem Literal.text_of_bytes {ps : List Piece} {s : String} (h : Literal.bytes ps = Utf8.encode (literal s)) :
    text ps = .ok s := by
  obtain ⟨qs, hbytes, htext⟩ := exists_pieces s
  obtain ⟨rfl, -⟩ : ps = qs ∧ ([] : Bytes) = [] := bytes_inj (by rw [h, hbytes])
  exact htext

theorem CanonicalItems.forall {js : List Json} (h : CanonicalItems js) : ∀ j ∈ js, j.Canonical := by
  induction js with
  | nil => exact nofun
  | cons j js ih => exact List.forall_mem_cons.2 ⟨h.1, ih h.2⟩

theorem CanonicalMembers.forall {ns : List (String × Json)} (h : CanonicalMembers ns) :
    ∀ n ∈ ns, n.2.Canonical := by
  induction ns with
  | nil => exact nofun
  | cons n ns ih => exact List.forall_mem_cons.2 ⟨h.1, ih h.2⟩

/-- The keys of a canonical document ascend where it is written. -/
theorem Tree.Writes.ascends {t : Tree} {j : Json} (h : t.Writes j) (hj : j.Canonical) : t.Ascends := by
  induction t generalizing j with
  | array ts ih =>
    cases h with
    | @array _ js items =>
      refine .array fun t ht => ?_
      obtain ⟨j, hmem, hwrites⟩ := forall₂_mem_right items.flip t ht
      exact ih t ht hwrites (CanonicalItems.forall hj j hmem)
  | object ms ih =>
    cases j with
    | object ns =>
      obtain ⟨hascending, hvalues⟩ := hj
      have hmembers := h.members
      have htexts : List.Forall₂ (fun m name => Literal.text m.1 = .ok name) ms (ns.map Prod.fst) :=
        List.forall₂_map_right_iff.2 (hmembers.imp fun _ _ h => Literal.text_of_bytes h.1)
      refine .object htexts (List.pairwise_map.2 hascending) fun m hm => ?_
      obtain ⟨n, hmem, -, hwrites⟩ := forall₂_mem_right hmembers.flip m hm
      exact ih m hm hwrites (CanonicalMembers.forall hvalues n hmem)
    | _ => cases h
  | _ => exact .scalar trivial

/-! ## 4. Texts -/

/-- The text spells one tree, in which the document is written at the end of the path, with the keys of all its
objects in ascending order. -/
def SortedIn (doc : Json) (path : List Step) (text : String) : Prop :=
  ∃ t u : Tree, (∀ t', t'.Spells (Utf8.encode text.toList) ↔ t' = t) ∧ t.at? path = some u ∧
    u.Writes doc ∧ u.Ascends

/-- A canonical part of a document is sorted in each of its texts. -/
theorem sortedIn_render {l : Layout} (hl : l.IsBlank) {j part : Json} {path : List Step}
    (h : j.at? path = some part) (hpart : part.Canonical) :
    part.SortedIn path (String.ofList (l.render 0 j)) := by
  obtain ⟨u, hu⟩ := exists_writes part
  obtain ⟨t, ht, hat⟩ := exists_tree_at hl h (hu.laid hl) 0
  have hspells : t.Spells (Utf8.encode (String.ofList (l.render 0 j)).toList) := by
    rw [String.toList_ofList]
    exact ⟨_, [], (List.append_nil _).symm, ht, blank_nil⟩
  refine ⟨t, u, fun t' => ⟨fun ht' => ht'.unique hspells, ?_⟩, hat, hu, hu.ascends hpart⟩
  rintro rfl
  exact hspells

end MetricCatalog.Json
