import MetricCatalog.Proofs.Json.Parse
import MetricCatalog.Proofs.Schema.Reading
import MetricCatalog.Schema.Wire

/-!
# Decoded texts — what a spelling of a tree is decoded as
-/

namespace MetricCatalog

open Json Json.Scan

variable {α : Type} [Wire α]

theorem decodeBytes_eq_ok {bytes : Bytes} {a : α} :
    decodeBytes α bytes = .ok a ↔
      Scan.run ((Wire.shape α).read depthLimit) bytes = .ok (Wire.pack a) := by
  unfold decodeBytes
  cases Scan.run ((Wire.shape α).read depthLimit) bytes with
  | error r => exact ⟨nofun, nofun⟩
  | ok v =>
    constructor
    · intro h
      cases h
      rw [Wire.pack_unpack]
    · intro h
      cases h
      show Except.ok (Wire.unpack (Wire.pack a)) = _
      rw [Wire.unpack_pack]

/-- What is decoded from a text is what its tree says. -/
theorem decodeBytes_spells {t : Json.Tree} {bytes : Bytes} (h : t.Spells bytes) {a : α} :
    decodeBytes α bytes = .ok a ↔ (Wire.shape α).ofTree depthLimit t = .ok (Wire.pack a) := by
  rw [decodeBytes_eq_ok, run_spells ((Wire.shape α).reads depthLimit t) h]

/-- The result is an error of JSON with this fault, wherever its place may be. -/
def RefusedFor (r : Except Error α) (fault : Fault) : Prop :=
  ∃ refusal, r = .error (.json refusal) ∧ refusal.fault = fault

/-- The fault for which a text is refused is that of its tree. -/
theorem decodeBytes_refusedFor {t : Json.Tree} {bytes : Bytes} (h : t.Spells bytes) {fault : Fault} :
    RefusedFor (decodeBytes α bytes) fault ↔ (Wire.shape α).ofTree depthLimit t = .error fault := by
  obtain ⟨front, trail, rfl, hfront, htrail⟩ := h
  have hread := (Wire.shape α).reads depthLimit t front trail hfront (delimited_blank htrail)
  have hwhole := outcome_whole hread htrail
  unfold outcome at hwhole
  unfold RefusedFor decodeBytes Scan.run
  cases hrun : ((Wire.shape α).read depthLimit).whole (front ++ trail) with
  | ok r =>
    rw [hrun] at hwhole
    cases htree : (Wire.shape α).ofTree depthLimit t with
    | ok v => exact ⟨fun ⟨_, h, _⟩ => (nomatch h), nofun⟩
    | error fault' =>
      rw [htree] at hwhole
      cases hwhole
  | error failure =>
    rw [hrun] at hwhole
    cases htree : (Wire.shape α).ofTree depthLimit t with
    | ok v =>
      rw [htree] at hwhole
      cases hwhole
    | error fault' =>
      rw [htree] at hwhole
      obtain rfl : failure.fault = fault' := Except.error.inj hwhole
      constructor
      · rintro ⟨refusal, h, rfl⟩
        cases h
        rfl
      · intro h
        cases h
        exact ⟨_, rfl, rfl⟩

/-- Each text of the tree is decoded as this value. -/
def DecodedAs (t : Json.Tree) (a : α) : Prop := ∀ bytes, t.Spells bytes → decodeBytes α bytes = .ok a

theorem decodedAs_iff {t : Json.Tree} {a : α} :
    DecodedAs t a ↔ (Wire.shape α).ofTree depthLimit t = .ok (Wire.pack a) := by
  constructor
  · intro h
    have hspells : t.Spells t.tokens.flatten :=
      ⟨_, [], (List.append_nil _).symm, laid_flatten _, blank_nil⟩
    exact (decodeBytes_spells hspells).1 (h _ hspells)
  · intro h bytes hspells
    exact (decodeBytes_spells hspells).2 h

/-- The message of the error is `said`, followed by a line and a column. -/
def Error.Says (e : Error) (said : String) : Prop :=
  ∃ line column : Nat, e.message = said ++ " at line " ++ toString line ++ " column " ++ toString column

theorem says_of_refusedFor {bytes : Bytes} {fault : Fault} (h : RefusedFor (decodeBytes α bytes) fault) :
    ∃ e, decodeBytes α bytes = .error e ∧ e.Says ("JSON error: " ++ fault.message) := by
  obtain ⟨refusal, hrefusal, rfl⟩ := h
  refine ⟨.json refusal, hrefusal, ?_⟩
  unfold decodeBytes Scan.run at hrefusal
  cases hwhole : ((Wire.shape α).read depthLimit).whole bytes with
  | ok r =>
    rw [hwhole] at hrefusal
    cases hrefusal
  | error failure =>
    rw [hwhole] at hrefusal
    cases hrefusal
    let place := Place.behind (bytes.take (bytes.length - failure.left))
    refine ⟨place.line, place.column, ?_⟩
    change "JSON error: " ++ (failure.fault.message ++ " at line " ++ toString place.line ++ " column " ++
      toString place.column) = _
    simp only [String.append_assoc]
    rfl

/-- Texts from whose trees the same is taken are decoded alike, but for the places of faults. -/
theorem decodeBytes_alike {t t' : Json.Tree} {bytes bytes' : Bytes} (h : t.Spells bytes) (h' : t'.Spells bytes')
    (hsame : (Wire.shape α).ofTree depthLimit t = (Wire.shape α).ofTree depthLimit t') :
    (∃ a : α, decodeBytes α bytes = .ok a ∧ decodeBytes α bytes' = .ok a) ∨
      ∃ e e' said, decodeBytes α bytes = .error e ∧ decodeBytes α bytes' = .error e' ∧
        e.Says said ∧ e'.Says said := by
  cases htaken : (Wire.shape α).ofTree depthLimit t with
  | ok v =>
    left
    refine ⟨Wire.unpack v, (decodeBytes_spells h).2 ?_, (decodeBytes_spells h').2 ?_⟩
    · rw [htaken, Wire.pack_unpack]
    · rw [← hsame, htaken, Wire.pack_unpack]
  | error fault =>
    right
    obtain ⟨e, he, hsays⟩ := says_of_refusedFor ((decodeBytes_refusedFor h).2 htaken)
    obtain ⟨e', he', hsays'⟩ := says_of_refusedFor ((decodeBytes_refusedFor h').2 (hsame ▸ htaken))
    exact ⟨e, e', _, he, he', hsays, hsays'⟩

/-- A text is decoded as arbitrary JSON if it is parsed; the document is then made canonical. -/
theorem decode_canonicalJson {text : String} {j : CanonicalJson} :
    decode CanonicalJson text = .ok j ↔ ∃ doc, parse text = .ok doc ∧ doc.canonicalize = j := by
  unfold decode
  rw [decodeBytes_eq_ok, run_eq_ok]
  constructor
  · rintro ⟨rest, h⟩
    rcases whole_inv h with ⟨trail, hvalue, htrail⟩
    rcases bind_eq_ok.1 hvalue with ⟨doc, mid, hdoc, hlast⟩
    cases hlast
    exact ⟨doc, run_eq_ok.2 ⟨[], @outcome_whole _ _ _ _ (.ok doc) hdoc htrail⟩, rfl⟩
  · rintro ⟨doc, hparse, rfl⟩
    rcases run_eq_ok.1 hparse with ⟨rest, h⟩
    rcases whole_inv h with ⟨trail, hvalue, htrail⟩
    exact ⟨[], outcome_whole (@outcome_return _ _ _ (.ok doc) _ _ Json.canonicalize hvalue) htrail⟩

end MetricCatalog
