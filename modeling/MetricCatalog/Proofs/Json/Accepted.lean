import MetricCatalog.Proofs.Json.AcceptedScalars

/-!
# Accepted texts — whatever is read is spelled by a tree

The converse of `reads_read`: where the reader of documents succeeds, the bytes that it has read are the
tokens of a tree with blanks between them, and the document is the one that the tree denotes.
-/

namespace MetricCatalog.Json

open Scan Json.Tree

/-! ## 1. The front of a value -/

/-- A name that has been read from its first letter on. -/
theorem name_inv {cs : List Char} (letters : Bytes) {mid rest : Bytes} {b : UInt8}
    {found found' : Head} (hletters : letters.map ascii = cs) (hb : some (ascii b) = mid.head?.map ascii)
    (h : outcome (advance >>= fun _ => identifier cs >>= fun _ => pure found') mid =
      .ok (found, rest)) :
    mid = b :: letters ++ rest ∧ found = found' := by
  rcases cons_of_head hb with ⟨mid, rfl⟩
  rw [outcome_bind, outcome_advance] at h
  rcases bind_eq_ok.1 h with ⟨u, mid', hidentifier, hlast⟩
  cases hlast
  have hmid : mid = letters ++ rest := identifier_inv hletters hidentifier
  exact ⟨by rw [hmid, List.cons_append], rfl⟩

/-- Either a scalar has been read, or a bracket has been seen behind blanks. -/
theorem head_inv {bs rest : Bytes} {found : Head} (h : outcome Scan.head bs = .ok (found, rest)) :
    (∃ (t : Tree) (front : Bytes), t.IsScalar ∧ bs = front ++ rest ∧ Laid t.tokens front ∧
        t.head = .ok found) ∨
      (found = .array ∧ ∃ gap rest', Blank gap ∧ rest = 0x5B :: rest' ∧ bs = gap ++ rest) ∨
      (found = .object ∧ ∃ gap rest', Blank gap ∧ rest = 0x7B :: rest' ∧ bs = gap ++ rest) := by
  rcases bind_eq_ok.1 h with ⟨c, mid, hnext, hmatch⟩
  rcases next_inv hnext with ⟨gap, hgap, rfl, hc⟩
  -- The first character behind the blanks decides what has been read.
  split at hmatch
  · cases hmatch
  · rcases name_inv (b := 0x6E) [0x75, 0x6C, 0x6C] rfl hc hmatch with ⟨rfl, rfl⟩
    exact .inl ⟨.null, gap ++ [0x6E, 0x75, 0x6C, 0x6C], trivial, (List.append_assoc _ _ _).symm,
      laid_single hgap _, rfl⟩
  · rcases name_inv (b := 0x74) [0x72, 0x75, 0x65] rfl hc hmatch with ⟨rfl, rfl⟩
    exact .inl ⟨.boolean true, gap ++ [0x74, 0x72, 0x75, 0x65], trivial,
      (List.append_assoc _ _ _).symm, laid_single hgap _, rfl⟩
  · rcases name_inv (b := 0x66) [0x61, 0x6C, 0x73, 0x65] rfl hc hmatch with ⟨rfl, rfl⟩
    exact .inl ⟨.boolean false, gap ++ [0x66, 0x61, 0x6C, 0x73, 0x65], trivial,
      (List.append_assoc _ _ _).symm, laid_single hgap _, rfl⟩
  · rcases cons_of_head (b := 0x22) hc with ⟨mid, rfl⟩
    have hread : outcome (Literal.read >>= fun s => pure (Head.string s)) mid = .ok (found, rest) :=
      hmatch
    rcases bind_eq_ok.1 hread with ⟨s, mid', hliteral, hlast⟩
    cases hlast
    rcases Literal.read_inv hliteral with ⟨ps, rfl, htext⟩
    refine .inl ⟨.string ps, gap ++ Literal.bytes ps, trivial, ?_, laid_single hgap _, ?_⟩
    · rw [List.append_assoc, Literal.bytes, List.cons_append]
    · rw [Tree.head, htext]
      rfl
  · rcases cons_of_head (b := 0x5B) hc with ⟨mid, rfl⟩
    cases hmatch
    exact .inr (.inl ⟨rfl, gap, mid, hgap, rfl, rfl⟩)
  · rcases cons_of_head (b := 0x7B) hc with ⟨mid, rfl⟩
    cases hmatch
    exact .inr (.inr ⟨rfl, gap, mid, hgap, rfl, rfl⟩)
  · next d _ _ _ _ _ _ =>
    by_cases hdigit : d = '-' ∨ (Numeral.digit? d).isSome
    · rw [if_pos hdigit] at hmatch
      rcases bind_eq_ok.1 hmatch with ⟨x, mid', hnumber, hlast⟩
      cases hlast
      rcases Number.read_inv hnumber with ⟨n, rfl, hvalue⟩
      refine .inl ⟨.number n, gap ++ n.bytes, trivial, (List.append_assoc _ _ _).symm,
        laid_single hgap _, ?_⟩
      rw [Tree.head, hvalue]
      rfl
    · rw [if_neg hdigit] at hmatch
      cases hmatch

/-! ## 2. Whole documents -/

/-- The members of an object are spelled, if their values are. -/
theorem findsMember_document {value : Scan Json} {room : Nat} (hvalue : Finds value (document room))
    (found : List (String × Json)) :
    FindsMember (do
      let key ← Literal.read
      colon
      return (key, ← value) :: found) fun m => (· :: found) <$> memberDocument room m := by
  intro bs js rest h
  rcases bind_eq_ok.1 h with ⟨key, mid, hkey, hmore⟩
  rcases Literal.read_inv hkey with ⟨k, rfl, htext⟩
  rcases bind_eq_ok.1 hmore with ⟨u, mid', hcolon, hbehind⟩
  rcases colon_inv hcolon with ⟨front, rfl, hfront⟩
  rcases bind_eq_ok.1 hbehind with ⟨j, mid'', hj, hlast⟩
  cases hlast
  -- The colon and the value are laid out one behind the other.
  rcases hvalue _ _ _ hj with ⟨t, front', rfl, hfront', hdocument⟩
  refine ⟨(k, t), front ++ front', by rw [List.append_assoc], hfront.append hfront', ?_⟩
  show (· :: found) <$> memberDocument room (k, t) = _
  rw [memberDocument, htext]
  show (· :: found) <$> (t.document room >>= fun j => .ok (key, j)) = _
  rw [hdocument]
  rfl

/-- One level of a document, where the values that brackets enclose are spelled by trees. -/
theorem readLevel_inv {inner : Option (Scan Json)} {room : Nat}
    (hnone : inner = none → room = 0)
    (hsome : ∀ scan, inner = some scan → ∃ less, room = less + 1 ∧ Finds scan (document less)) :
    Finds (readLevel inner) (document room) := by
  intro bs j rest h
  rcases bind_eq_ok.1 h with ⟨found, mid, hhead, hlevel⟩
  rcases head_inv hhead with ⟨t, front, ht, rfl, hfront, hfound⟩ | ⟨rfl, gap, mid', hgap, rfl, rfl⟩ |
    ⟨rfl, gap, mid', hgap, rfl, rfl⟩
  · -- A scalar is the whole document.
    refine ⟨t, front, ?_⟩
    cases t with
    | null =>
      cases hfound
      cases hlevel
      exact ⟨rfl, hfront, rfl⟩
    | boolean b =>
      cases hfound
      cases hlevel
      exact ⟨rfl, hfront, rfl⟩
    | number n =>
      rcases ok_of_map hfound with ⟨x, hx, rfl⟩
      cases hlevel
      exact ⟨rfl, hfront, by rw [Tree.document, hx]; rfl⟩
    | string l =>
      rcases ok_of_map hfound with ⟨s, hs, rfl⟩
      cases hlevel
      exact ⟨rfl, hfront, by rw [Tree.document, hs]; rfl⟩
    | array ts => exact ht.elim
    | object ms => exact ht.elim
  · cases inner with
    | none => cases hlevel
    | some scan =>
      rcases hsome scan rfl with ⟨less, rfl, hscan⟩
      have hitems : outcome (items scan >>= fun js => pure (Json.array js)) mid' = .ok (j, rest) :=
        hlevel
      rcases bind_eq_ok.1 hitems with ⟨js, mid, hjs, hlast⟩
      cases hlast
      rcases items_inv hscan hjs with ⟨ts, front, rfl, hfront, hvalues⟩
      refine ⟨.array ts, gap ++ ([0x5B] ++ front), ?_, ?_, ?_⟩
      · rw [List.append_assoc, List.append_assoc]
        rfl
      · rw [Tree.tokens, tokensOfItems_eq_map]
        exact .cons hgap hfront
      · rw [Tree.document, documents_eq_mapM, hvalues]
        rfl
  · cases inner with
    | none => cases hlevel
    | some scan =>
      rcases hsome scan rfl with ⟨less, rfl, hscan⟩
      have hmembers : outcome (members (fun found => do
          let key ← Literal.read
          colon
          return (key, ← scan) :: found) [] >>= fun found => pure (Json.object found.reverse)) mid' =
            .ok (j, rest) :=
        hlevel
      rcases bind_eq_ok.1 hmembers with ⟨found, mid, hfold, hlast⟩
      cases hlast
      rcases members_inv (findsMember_document hscan) hfold with ⟨ms, front, rfl, hfront, hvalues⟩
      refine ⟨.object ms, gap ++ ([0x7B] ++ front), ?_, ?_, ?_⟩
      · rw [List.append_assoc, List.append_assoc]
        rfl
      · rw [Tree.tokens, tokensOfMembers_eq_map]
        exact .cons hgap hfront
      · -- The members have been gathered in reverse.
        rw [Tree.document, memberDocuments_eq_mapM, List.mapM_eq_reverse_foldlM_cons, hvalues]
        rfl

/-- Every document that is read is spelled by a tree. -/
theorem finds_read (room : Nat) : Finds (Json.read room) (document room) := by
  -- Each bracket takes room, so the values inside of it are read with less.
  induction room with
  | zero => exact readLevel_inv (fun _ => rfl) nofun
  | succ room ih =>
    refine readLevel_inv nofun fun scan hscan => ⟨room, rfl, ?_⟩
    cases hscan
    exact ih

end MetricCatalog.Json
