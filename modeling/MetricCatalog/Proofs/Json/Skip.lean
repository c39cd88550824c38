import MetricCatalog.Proofs.Json.Literal
import MetricCatalog.Proofs.Json.Numeral

/-!
# Skipping — every tree is passed over

Skipping reads exactly the tokens of a tree, whatever its literals denote, however large its numbers are
and however deep its brackets nest. The brackets that are open are on a stack, so the induction on the
tree speaks of every stack: behind the tree, skipping goes on with the stack that it had before.
-/

namespace MetricCatalog.Json

open Scan Json.Tree

/-! ## 1. Scalars and keys -/

/-- Passes over the key of a member and its colon. -/
theorem outcome_skipKey {k : List Literal.Piece} {tokens : List Bytes} {front : Bytes}
    (h : Laid (Literal.bytes k :: [0x3A] :: tokens) front) (rest : Bytes) :
    ∃ front', outcome skipKey (front ++ rest) = .ok ((), front' ++ rest) ∧ Laid tokens front' := by
  rcases Laid.next (b := 0x22) h rfl rest with ⟨front₁, hnext, h₁⟩
  rcases h₁.outcome_colon rest with ⟨front₂, hcolon, h₂⟩
  refine ⟨front₂, ?_, h₂⟩
  unfold skipKey
  rw [outcome_bind, hnext]
  show outcome (advance >>= _) _ = _
  rw [outcome_seq (outcome_advance _ _)]
  rw [outcome_bind, Literal.outcome_skip]
  exact hcolon

theorem skipScalar_number {c : Char} (h : c = '-' ∨ (Numeral.digit? c).isSome = true) :
    skipScalar c = Number.skip := by
  unfold skipScalar
  split
  · exact absurd h (by decide)
  · exact absurd h (by decide)
  · exact absurd h (by decide)
  · exact absurd h (by decide)
  · exact if_pos h

/-- A scalar is one token, which does not start like a bracket. -/
theorem Tree.IsScalar.tokens {t : Tree} (ht : t.IsScalar) :
    ∃ b bs, t.tokens = [b :: bs] ∧ isBlank b = false ∧ ascii b ≠ '[' ∧ ascii b ≠ '\x7b' ∧
      ∀ rest, Delimited rest → outcome (skipScalar (ascii b)) (b :: bs ++ rest) = .ok ((), rest) := by
  cases t with
  | null =>
    exact ⟨_, _, rfl, by decide, by decide, by decide,
      fun rest _ => outcome_identifier _ [0x75, 0x6C, 0x6C] rest rfl⟩
  | boolean b =>
    cases b
    · exact ⟨_, _, rfl, by decide, by decide, by decide,
        fun rest _ => outcome_identifier _ [0x61, 0x6C, 0x73, 0x65] rest rfl⟩
    · exact ⟨_, _, rfl, by decide, by decide, by decide,
        fun rest _ => outcome_identifier _ [0x72, 0x75, 0x65] rest rfl⟩
  | number n =>
    rcases n.bytes_head with ⟨b, bs, hbytes, hblank, hb⟩
    refine ⟨b, bs, by rw [Tree.tokens, hbytes], hblank, ?_, ?_, fun rest hrest => ?_⟩
    · intro h
      rw [h] at hb
      exact absurd hb (by decide)
    · intro h
      rw [h] at hb
      exact absurd hb (by decide)
    · -- A number ends where what follows it begins.
      rw [skipScalar_number hb, ← hbytes, Number.outcome_skip n hrest]
  | string l =>
    exact ⟨_, _, rfl, by decide, by decide, by decide, fun rest _ => Literal.outcome_skip l rest⟩
  | array ts => exact ht.elim
  | object ms => exact ht.elim

/-! ## 2. Brackets

What stands between brackets is a row of entries: the items of an array, or the members of an object.
-/

/-- The byte that opens a bracket. -/
def Bracket.openingByte : Bracket → UInt8
  | .array => 0x5B
  | .object => 0x7B

/-- The byte that closes a bracket. -/
def Bracket.closingByte : Bracket → UInt8
  | .array => 0x5D
  | .object => 0x7D

/-- The tokens before the value of an entry. -/
def keyTokens : Option (List Literal.Piece) → List Bytes
  | none => []
  | some k => [Literal.bytes k, [0x3A]]

/-- Items have no keys, members have. -/
def Bracket.Fits : Bracket → Option (List Literal.Piece) → Prop
  | .array, key => key = none
  | .object, key => key ≠ none

/-- The tokens of an entry. -/
def entryTokens (e : Option (List Literal.Piece) × Tree) : List Bytes := keyTokens e.1 ++ e.2.tokens

theorem outcome_closedAtOnce_end (bracket : Bracket) {front : Bytes}
    (h : Laid [[bracket.closingByte]] front) (rest : Bytes) :
    outcome (closedAtOnce bracket) (front ++ rest) = .ok (true, rest) := by
  unfold closedAtOnce
  cases bracket with
  | array =>
    rcases Laid.next (b := 0x5D) h rfl rest with ⟨front', hnext, hrest⟩
    rw [outcome_bind, hnext, hrest.nil_inv]
    rfl
  | object =>
    rcases Laid.next (b := 0x7D) h rfl rest with ⟨front', hnext, hrest⟩
    rw [outcome_bind, hnext, hrest.nil_inv]
    rfl

theorem outcome_closedNext_end (bracket : Bracket) {front : Bytes}
    (h : Laid [[bracket.closingByte]] front) (rest : Bytes) :
    outcome (closedNext bracket) (front ++ rest) = .ok (true, rest) := by
  unfold closedNext
  cases bracket with
  | array =>
    rcases Laid.next (b := 0x5D) h rfl rest with ⟨front', hnext, hrest⟩
    rw [outcome_bind, hnext, hrest.nil_inv]
    rfl
  | object =>
    rcases Laid.next (b := 0x7D) h rfl rest with ⟨front', hnext, hrest⟩
    rw [outcome_bind, hnext, hrest.nil_inv]
    rfl

/-- The first entry is reached, behind its key. -/
theorem outcome_closedAtOnce_entry {bracket : Bracket} {key : Option (List Literal.Piece)}
    (hfits : bracket.Fits key) {t : Tree} {tokens : List Bytes} {front : Bytes}
    (h : Laid (keyTokens key ++ (t.tokens ++ tokens)) front) (rest : Bytes) :
    ∃ front', outcome (closedAtOnce bracket) (front ++ rest) = .ok (false, front' ++ rest) ∧
      Laid (t.tokens ++ tokens) front' := by
  unfold closedAtOnce
  cases bracket with
  | array =>
    obtain rfl : key = none := hfits
    rcases t.tokens_eq_cons with ⟨b, bs, more, ht, hb, -, hclose, -⟩
    rw [keyTokens, List.nil_append, ht, List.cons_append] at h
    rcases h.next hb rest with ⟨front', hnext, hrest⟩
    refine ⟨b :: bs ++ front', ?_, ht ▸ .cons blank_nil hrest⟩
    rw [outcome_bind, hnext]
    show outcome (if ascii b = ']' then _ else _) _ = _
    rw [if_neg hclose]
    show Except.ok (false, b :: (bs ++ (front' ++ rest))) = _
    rw [List.cons_append, List.cons_append, List.append_assoc]
  | object =>
    rcases Option.ne_none_iff_exists'.1 hfits with ⟨k, rfl⟩
    have hkeyed : Laid (Literal.bytes k :: [0x3A] :: (t.tokens ++ tokens)) front := h
    -- The quote is seen first and then read again as the start of the key.
    rcases hkeyed.cons_inv with ⟨gap, front₁, rfl, hgap, hrest⟩
    rcases outcome_skipKey (@Laid.cons [] _ _ _ blank_nil hrest) rest with ⟨front', hkey, h'⟩
    refine ⟨front', ?_, h'⟩
    rw [outcome_bind, List.append_assoc, List.append_assoc, Literal.bytes, List.cons_append,
      outcome_next hgap rfl]
    show outcome (skipKey >>= fun _ => pure false) (0x22 :: (Literal.inside k ++ (front₁ ++ rest))) = _
    rw [outcome_bind]
    rw [List.nil_append, List.append_assoc, Literal.bytes, List.cons_append] at hkey
    rw [hkey]
    rfl

/-- Another entry is reached, behind the comma and its key. -/
theorem outcome_closedNext_entry {bracket : Bracket} {key : Option (List Literal.Piece)}
    (hfits : bracket.Fits key) {tokens : List Bytes} {front : Bytes}
    (h : Laid ([0x2C] :: (keyTokens key ++ tokens)) front) (rest : Bytes) :
    ∃ front', outcome (closedNext bracket) (front ++ rest) = .ok (false, front' ++ rest) ∧
      Laid tokens front' := by
  rcases h.next rfl rest with ⟨front₁, hcomma, h₁⟩
  unfold closedNext
  cases bracket with
  | array =>
    obtain rfl : key = none := hfits
    refine ⟨front₁, ?_, h₁⟩
    rw [outcome_bind, hcomma]
    rfl
  | object =>
    rcases Option.ne_none_iff_exists'.1 hfits with ⟨k, rfl⟩
    rcases outcome_skipKey h₁ rest with ⟨front', hkey, h'⟩
    refine ⟨front', ?_, h'⟩
    rw [outcome_bind, hcomma]
    show outcome (advance >>= _) _ = _
    rw [outcome_bind, outcome_advance]
    show outcome (skipKey >>= fun _ => pure false) (front₁ ++ rest) = _
    rw [outcome_bind, hkey]
    rfl

/-! ## 3. Whole trees -/

/-- Skipping passes over the tree and goes on with the brackets that were open before it. Every round reads
a token, so fuel for the tokens of the tree and for `n` rounds more leaves fuel for these. -/
def Skips (t : Tree) : Prop :=
  ∀ (n : Nat) (fuel : Bytes) (stack : List Bracket) (front rest : Bytes),
    Laid t.tokens front → Delimited rest → t.tokens.length + n ≤ fuel.length →
    ∃ fuel' : Bytes, n ≤ fuel'.length ∧
      outcome (skipValue fuel stack) (front ++ rest) = outcome (skipRest fuel' stack) rest

theorem skips_of_isScalar {t : Tree} (ht : t.IsScalar) : Skips t := by
  intro n fuel stack front rest h hrest hfuel
  rcases ht.tokens with ⟨b, bs, htokens, hblank, harray, hobject, hskip⟩
  rw [htokens] at h hfuel
  rcases h.next hblank rest with ⟨front', hnext, h'⟩
  -- One round of fuel is for the only token.
  rw [List.length_singleton] at hfuel
  rcases List.exists_cons_of_length_pos (show 0 < fuel.length by omega) with ⟨f, fuel, rfl⟩
  rw [List.length_cons] at hfuel
  refine ⟨fuel, by omega, ?_⟩
  rw [skipValue, outcome_seq hnext]
  split
  · contradiction
  · next h => exact absurd (Option.some.inj h) harray
  · next h => exact absurd (Option.some.inj h) hobject
  · next c _ _ hc =>
    cases Option.some.inj hc
    have hread := hskip rest hrest
    rw [List.cons_append] at hread
    rw [outcome_bind, h'.nil_inv, List.nil_append, hread]
    rfl

/-- The entries behind the first one, up to the closing bracket. -/
theorem outcome_skipRest_entries {bracket : Bracket} {es : List (Option (List Literal.Piece) × Tree)}
    (hes : ∀ e ∈ es, bracket.Fits e.1 ∧ Skips e.2) {n : Nat} {fuel : Bytes} {stack : List Bracket}
    {front rest : Bytes} (h : Laid (continued bracket.closingByte (es.map entryTokens)) front)
    (hfuel : (continued bracket.closingByte (es.map entryTokens)).length + n ≤ fuel.length) :
    ∃ fuel' : Bytes, n ≤ fuel'.length ∧
      outcome (skipRest fuel (bracket :: stack)) (front ++ rest) =
        outcome (skipRest fuel' stack) rest := by
  -- What is left of the fuel after one entry is enough for the tokens of the others and for `n` more.
  induction es generalizing fuel front with
  | nil =>
    have hend : Laid [[bracket.closingByte]] front := h
    have hlength : 1 + n ≤ fuel.length := hfuel
    rcases List.exists_cons_of_length_pos (show 0 < fuel.length by omega) with ⟨f, fuel, rfl⟩
    rw [List.length_cons] at hlength
    refine ⟨fuel, by omega, ?_⟩
    rw [skipRest, outcome_bind, outcome_closedNext_end bracket hend]
    rfl
  | cons e es ih =>
    have hfits := (hes e List.mem_cons_self).1
    have hskips := (hes e List.mem_cons_self).2
    rw [List.map_cons, continued_cons, entryTokens, List.append_assoc] at h hfuel
    simp only [List.length_cons, List.length_append] at hfuel
    rcases List.exists_cons_of_length_pos (show 0 < fuel.length by omega) with ⟨f, fuel, rfl⟩
    rw [List.length_cons] at hfuel
    rcases outcome_closedNext_entry hfits h rest with ⟨front₁, hnext, h₁⟩
    rcases h₁.append_inv with ⟨a, b, rfl, ha, hb⟩
    have hdelimited : Delimited (b ++ rest) :=
      hb.delimited_continued (by cases bracket <;> simp [Bracket.closingByte]) rest
    -- The value of the entry is skipped with its own bracket on the stack.
    rcases hskips ((continued bracket.closingByte (es.map entryTokens)).length + n) fuel
      (bracket :: stack) a (b ++ rest) ha hdelimited (by omega) with ⟨fuel₁, hfuel₁, hvalue⟩
    rcases ih (fun e he => hes e (List.mem_cons_of_mem _ he)) hb hfuel₁ with ⟨fuel₂, hfuel₂, hentries⟩
    refine ⟨fuel₂, hfuel₂, ?_⟩
    rw [skipRest, outcome_bind, hnext, ← hentries, ← hvalue, ← List.append_assoc]
    rfl

/-- All entries between two brackets. -/
theorem outcome_skipEntries {bracket : Bracket} {es : List (Option (List Literal.Piece) × Tree)}
    (hes : ∀ e ∈ es, bracket.Fits e.1 ∧ Skips e.2) {n : Nat} {fuel : Bytes} {stack : List Bracket}
    {front rest : Bytes} (h : Laid (listed bracket.closingByte (es.map entryTokens)) front)
    (hfuel : (listed bracket.closingByte (es.map entryTokens)).length + n ≤ fuel.length) :
    ∃ fuel' : Bytes, n ≤ fuel'.length ∧
      outcome (do if ← closedAtOnce bracket then skipRest fuel stack else skipValue fuel (bracket :: stack))
        (front ++ rest) = outcome (skipRest fuel' stack) rest := by
  cases es with
  | nil =>
    have hend : Laid [[bracket.closingByte]] front := h
    refine ⟨fuel, by omega, ?_⟩
    rw [outcome_bind, outcome_closedAtOnce_end bracket hend]
    rfl
  | cons e es =>
    have hfits := (hes e List.mem_cons_self).1
    have hskips := (hes e List.mem_cons_self).2
    rw [List.map_cons, listed, entryTokens, List.append_assoc] at h hfuel
    simp only [List.length_append] at hfuel
    rcases outcome_closedAtOnce_entry hfits h rest with ⟨front₁, hnext, h₁⟩
    rcases h₁.append_inv with ⟨a, b, rfl, ha, hb⟩
    have hdelimited : Delimited (b ++ rest) :=
      hb.delimited_continued (by cases bracket <;> simp [Bracket.closingByte]) rest
    rcases hskips ((continued bracket.closingByte (es.map entryTokens)).length + n) fuel
      (bracket :: stack) a (b ++ rest) ha hdelimited (by omega) with ⟨fuel₁, hfuel₁, hvalue⟩
    rcases outcome_skipRest_entries (fun e he => hes e (List.mem_cons_of_mem _ he)) hb hfuel₁ with
      ⟨fuel₂, hfuel₂, hentries⟩
    refine ⟨fuel₂, hfuel₂, ?_⟩
    rw [outcome_bind, hnext, ← hentries, ← hvalue, ← List.append_assoc]
    rfl

theorem outcome_skipValue_open (bracket : Bracket) {f : UInt8} {fuel front bs : Bytes}
    {stack : List Bracket}
    (h : outcome next? front = .ok (some (ascii bracket.openingByte), bracket.openingByte :: bs)) :
    outcome (skipValue (f :: fuel) stack) front =
      outcome (do if ← closedAtOnce bracket then skipRest fuel stack else skipValue fuel (bracket :: stack))
        bs := by
  cases bracket with
  | array =>
    rw [skipValue, outcome_seq h]
    rfl
  | object =>
    rw [skipValue, outcome_seq h]
    rfl

/-- Brackets are passed over, if the entries between them are. -/
theorem skips_of_entries (bracket : Bracket) {es : List (Option (List Literal.Piece) × Tree)} {t : Tree}
    (htokens : t.tokens = [bracket.openingByte] :: listed bracket.closingByte (es.map entryTokens))
    (hes : ∀ e ∈ es, bracket.Fits e.1 ∧ Skips e.2) : Skips t := by
  intro n fuel stack front rest h hrest hfuel
  rw [htokens] at h hfuel
  rw [List.length_cons] at hfuel
  rcases List.exists_cons_of_length_pos (show 0 < fuel.length by omega) with ⟨f, fuel, rfl⟩
  rw [List.length_cons] at hfuel
  have hblank : isBlank bracket.openingByte = false := by cases bracket <;> rfl
  rcases h.next hblank rest with ⟨front', hnext, h'⟩
  rcases outcome_skipEntries hes h' (show _ + n ≤ fuel.length by omega) with
    ⟨fuel', hfuel', hentries⟩
  exact ⟨fuel', hfuel', (outcome_skipValue_open bracket hnext).trans hentries⟩

/-- Every tree is passed over, by induction on it. -/
theorem skips (t : Tree) : Skips t := by
  induction t with
  | null => exact skips_of_isScalar trivial
  | boolean b => exact skips_of_isScalar trivial
  | number n => exact skips_of_isScalar trivial
  | string l => exact skips_of_isScalar trivial
  | array ts ih =>
    -- Items are entries without keys.
    have htokens : tokensOfItems ts = (ts.map fun t => (none, t)).map entryTokens := by
      rw [tokensOfItems_eq_map, List.map_map]
      rfl
    refine skips_of_entries .array (by rw [Tree.tokens, htokens]; rfl) ?_
    intro e he
    rcases List.mem_map.1 he with ⟨t, ht, rfl⟩
    exact ⟨rfl, ih t ht⟩
  | object ms ih =>
    have htokens : tokensOfMembers ms = (ms.map fun m => (some m.1, m.2)).map entryTokens := by
      rw [tokensOfMembers_eq_map, List.map_map]
      rfl
    refine skips_of_entries .object (by rw [Tree.tokens, htokens]; rfl) ?_
    intro e he
    rcases List.mem_map.1 he with ⟨m, hm, rfl⟩
    exact ⟨Option.some_ne_none m.1, ih m hm⟩

/-! ## 4. Skipping a value -/

theorem listed_ne_nil (closing : UInt8) {ps : List (List Bytes)}
    (hps : ∀ p ∈ ps, ∀ token ∈ p, token ≠ []) :
    ∀ token ∈ listed closing ps, token ≠ [] := by
  intro token htoken
  cases ps with
  | nil =>
    rw [List.mem_singleton.1 htoken]
    exact List.cons_ne_nil _ _
  | cons p ps =>
    rcases List.mem_append.1 htoken with hp | hcontinued
    · exact hps p List.mem_cons_self token hp
    · rcases List.mem_append.1 hcontinued with hmore | hclosing
      · rcases List.mem_flatMap.1 hmore with ⟨q, hq, htoken⟩
        rcases List.mem_cons.1 htoken with rfl | htoken
        · exact List.cons_ne_nil _ _
        · exact hps q (List.mem_cons_of_mem _ hq) token htoken
      · rw [List.mem_singleton.1 hclosing]
        exact List.cons_ne_nil _ _

/-- No token is empty. -/
theorem tokens_ne_nil (t : Tree) : ∀ token ∈ t.tokens, token ≠ [] := by
  induction t with
  | null => simp [Tree.tokens]
  | boolean b => cases b <;> simp [Tree.tokens]
  | number n =>
    intro token htoken
    rcases n.bytes_eq_cons with ⟨b, bs, hbytes, -⟩
    rw [List.mem_singleton.1 htoken, hbytes]
    exact List.cons_ne_nil _ _
  | string l => simp [Tree.tokens, Literal.bytes]
  | array ts ih =>
    rw [Tree.tokens, tokensOfItems_eq_map]
    refine List.forall_mem_cons.2 ⟨List.cons_ne_nil _ _, listed_ne_nil _ ?_⟩
    intro p hp
    rcases List.mem_map.1 hp with ⟨t, ht, rfl⟩
    exact ih t ht
  | object ms ih =>
    rw [Tree.tokens, tokensOfMembers_eq_map]
    refine List.forall_mem_cons.2 ⟨List.cons_ne_nil _ _, listed_ne_nil _ ?_⟩
    intro p hp
    rcases List.mem_map.1 hp with ⟨m, hm, rfl⟩
    exact List.forall_mem_cons.2 ⟨List.cons_ne_nil _ _,
      List.forall_mem_cons.2 ⟨List.cons_ne_nil _ _, ih m hm⟩⟩

theorem Laid.length_le {tokens : List Bytes} {front : Bytes} (h : Laid tokens front)
    (hne : ∀ token ∈ tokens, token ≠ []) : tokens.length ≤ front.length := by
  induction h with
  | nil => exact Nat.le_refl 0
  | cons _ _ ih =>
    have hrest := ih fun token htoken => hne token (List.mem_cons_of_mem _ htoken)
    have hfirst := List.length_pos_iff.2 (hne _ List.mem_cons_self)
    simp only [List.length_cons, List.length_append]
    omega

/-- Skipping reads exactly one value, whichever it is. -/
theorem reads_skip (t : Tree) : Reads skip t.tokens (.ok ()) := by
  intro front rest h hrest
  have hfuel : t.tokens.length + 0 ≤ (0 :: (front ++ rest)).length := by
    have := h.length_le (tokens_ne_nil t)
    simp only [List.length_cons, List.length_append]
    omega
  rcases skips t 0 (0 :: (front ++ rest)) [] front rest h hrest hfuel with ⟨fuel', -, hskip⟩
  unfold skip
  rw [outcome_withFuel, hskip]
  cases fuel' <;> rfl

end MetricCatalog.Json
