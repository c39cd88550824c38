import Mathlib.Data.List.Forall2
import MetricCatalog.Json.Render

/-!
# Layouts — the compact and the laid out text of one document

A text is cut into regions by its quotes and backslashes alone, as one would who knows nothing of documents.
Between two literals a layout puts nothing but blanks, and a literal holds neither a bare quote nor a control
character. So taking the blanks between the literals away from the laid out text leaves the compact one.
-/

namespace MetricCatalog.Json

/-! ## 1. Regions of a text -/

/-- Where a character stands: outside of all string literals, in one, or behind a backslash in one. The quote
that opens a literal stands outside of it and the quote that closes it inside. -/
inductive Region where
  | outside
  | inside
  | escaped
deriving DecidableEq

namespace Region

/-- Where the next character stands. -/
def next : Region → Char → Region
  | .outside, c => if c = '"' then .inside else .outside
  | .inside, c => if c = '"' then .outside else if c = '\\' then .escaped else .inside
  | .escaped, _ => .inside

/-- Where the text behind some characters stands. -/
def behind (r : Region) (cs : List Char) : Region := cs.foldl next r

end Region

/-- The characters of a text, each with the region in which it stands. -/
def regions (r : Region) : List Char → List (Region × Char)
  | [] => []
  | c :: cs => (r, c) :: regions (r.next c) cs

/-- White space outside of all literals. -/
def isLayout (m : Region × Char) : Bool := m.1 = .outside && m.2.isWhitespace

/-- The text without white space outside of its literals. -/
def withoutBlanks (cs : List Char) : List Char :=
  ((regions .outside cs).filter (!isLayout ·)).map Prod.snd

/-- A character that shows: ASCII, neither white space nor a control character. -/
def Visible (c : Char) : Prop := 0x20 < c.toNat ∧ c.toNat < 0x7F

theorem regions_append (r : Region) (a b : List Char) :
    regions r (a ++ b) = regions r a ++ regions (r.behind a) b := by
  induction a generalizing r with
  | nil => rfl
  | cons c a ih => simp only [List.cons_append, regions, ih, Region.behind, List.foldl_cons]

theorem Region.behind_append (r : Region) (a b : List Char) :
    r.behind (a ++ b) = (r.behind a).behind b := List.foldl_append

theorem withoutBlanks_append {a : List Char} (h : Region.outside.behind a = .outside) (b : List Char) :
    withoutBlanks (a ++ b) = withoutBlanks a ++ withoutBlanks b := by
  simp only [withoutBlanks, regions_append, h, List.filter_append, List.map_append]

theorem map_snd_regions (r : Region) (cs : List Char) : (regions r cs).map Prod.snd = cs := by
  induction cs generalizing r with
  | nil => rfl
  | cons c cs ih => simp only [regions, List.map_cons, ih]

theorem Visible.not_isWhitespace {c : Char} (h : Visible c) : c.isWhitespace = false := by
  have hne : ∀ d : Char, d.toNat ≤ 0x20 → c ≠ d := by
    rintro d hd rfl
    exact absurd h.1 (by omega)
  simp only [Char.isWhitespace, hne ' ' (by decide), hne '\t' (by decide), hne '\r' (by decide),
    hne '\n' (by decide), decide_false, Bool.or_self]

/-! ## 2. Texts without blanks -/

/-- Whole tokens with no blank between them and no control character anywhere. -/
structure Tight (cs : List Char) : Prop where
  closed : Region.outside.behind cs = .outside
  visible : ∀ m ∈ regions .outside cs, m.1 = .outside → Visible m.2
  noControl : ∀ m ∈ regions .outside cs, 0x20 ≤ m.2.toNat

theorem tight_nil : Tight [] := ⟨rfl, nofun, nofun⟩

theorem Tight.append {a b : List Char} (ha : Tight a) (hb : Tight b) : Tight (a ++ b) where
  closed := by rw [Region.behind_append, ha.closed, hb.closed]
  visible := by
    rw [regions_append, ha.closed]
    exact List.forall_mem_append.2 ⟨ha.visible, hb.visible⟩
  noControl := by
    rw [regions_append, ha.closed]
    exact List.forall_mem_append.2 ⟨ha.noControl, hb.noControl⟩

theorem Tight.withoutBlanks_eq {cs : List Char} (h : Tight cs) : withoutBlanks cs = cs := by
  have hkept : ∀ m ∈ regions .outside cs, (!isLayout m) = true := by
    intro m hm
    by_cases hout : m.1 = .outside
    · simp [isLayout, (h.visible m hm hout).not_isWhitespace]
    · simp [isLayout, hout]
  rw [withoutBlanks, List.filter_eq_self.2 hkept, map_snd_regions]

/-- Visible characters, and no quote among them. -/
def Bare (cs : List Char) : Prop := ∀ c ∈ cs, Visible c ∧ c ≠ '"'

instance (cs : List Char) : Decidable (Bare cs) :=
  List.decidableBAll (fun c : Char => (0x20 < c.toNat ∧ c.toNat < 0x7F) ∧ c ≠ '"') cs

theorem Bare.append {a b : List Char} (ha : Bare a) (hb : Bare b) : Bare (a ++ b) :=
  List.forall_mem_append.2 ⟨ha, hb⟩

/-- Without a quote there is no literal. -/
theorem Bare.tight {cs : List Char} (h : Bare cs) : Tight cs := by
  induction cs with
  | nil => exact tight_nil
  | cons c cs ih =>
    obtain ⟨⟨hvisible, hquote⟩, hcs⟩ := List.forall_mem_cons.1 h
    have hc : Tight [c] :=
      { closed := if_neg hquote
        visible := by simpa [regions] using hvisible
        noControl := by
          simp only [regions, List.mem_singleton, forall_eq]
          exact Nat.le_of_lt hvisible.1 }
    exact hc.append (ih hcs)

/-! ## 3. Literals -/

/-- What stands in a literal does not leave it and shows no control character. -/
structure Enclosed (cs : List Char) : Prop where
  closed : Region.inside.behind cs = .inside
  within : ∀ m ∈ regions .inside cs, m.1 ≠ .outside
  noControl : ∀ c ∈ cs, 0x20 ≤ c.toNat

theorem Enclosed.append {a b : List Char} (ha : Enclosed a) (hb : Enclosed b) : Enclosed (a ++ b) where
  closed := by rw [Region.behind_append, ha.closed, hb.closed]
  within := by
    rw [regions_append, ha.closed]
    exact List.forall_mem_append.2 ⟨ha.within, hb.within⟩
  noControl := List.forall_mem_append.2 ⟨ha.noControl, hb.noControl⟩

theorem enclosed_nil : Enclosed [] := ⟨rfl, nofun, nofun⟩

theorem enclosed_iff {cs : List Char} : Enclosed cs ↔ Region.inside.behind cs = .inside ∧
    (∀ m ∈ regions .inside cs, m.1 ≠ .outside) ∧ ∀ c ∈ cs, 0x20 ≤ c.toNat :=
  ⟨fun h => ⟨h.closed, h.within, h.noControl⟩, fun h => ⟨h.1, h.2.1, h.2.2⟩⟩

-- The characters of the list are gone through, not all characters that there are.
instance (cs : List Char) : Decidable (Enclosed cs) :=
  have : Decidable (∀ c ∈ cs, 0x20 ≤ c.toNat) := List.decidableBAll _ cs
  decidable_of_iff _ enclosed_iff.symm

theorem enclosed_hexDigits {n : Nat} (h : n < 0x20) :
    Enclosed ['\\', 'u', '0', '0', hexDigit (n / 16), hexDigit (n % 16)] := by
  revert n
  decide

theorem enclosed_escape (c : Char) : Enclosed (escape c) := by
  unfold escape
  split
  case h_8 hquote hslash _ _ _ _ _ =>
    by_cases hcontrol : c.toNat < 0x20
    · rw [if_pos hcontrol]
      exact enclosed_hexDigits hcontrol
    · -- Any other character stands for itself, and is neither the quote nor the backslash.
      rw [if_neg hcontrol]
      rw [enclosed_iff]
      simp only [Region.behind, regions, Region.next, List.foldl_cons, List.foldl_nil, if_neg hquote,
        if_neg hslash, List.mem_singleton, forall_eq]
      exact ⟨trivial, nofun, Nat.not_lt.1 hcontrol⟩
  all_goals decide

/-- A text is written as one literal, whatever characters it has. -/
theorem tight_literal (s : String) : Tight (literal s) := by
  have hinside : ∀ cs : List Char, Enclosed (cs.flatMap escape) := by
    intro cs
    induction cs with
    | nil => exact enclosed_nil
    | cons c cs ih => exact (enclosed_escape c).append ih
  have henclosed := hinside s.toList
  have hregions : regions .outside (literal s) =
      (.outside, '"') :: (regions .inside (s.toList.flatMap escape) ++ [(.inside, '"')]) := by
    rw [literal, regions, Region.next, if_pos rfl, regions_append, henclosed.closed]
    rfl
  -- Only the first quote stands outside.
  refine ⟨?_, ?_, ?_⟩
  · rw [literal, ← List.singleton_append, Region.behind_append]
    change Region.inside.behind (s.toList.flatMap escape ++ ['"']) = .outside
    rw [Region.behind_append, henclosed.closed]
    rfl
  · rw [hregions]
    intro m hm hout
    obtain rfl | hm := List.mem_cons.1 hm
    · exact ⟨by decide, by decide⟩
    · obtain hm | hm := List.mem_append.1 hm
      · exact absurd hout (henclosed.within m hm)
      · rw [List.mem_singleton.1 hm] at hout
        cases hout
  · intro m hm
    have hmem : m.2 ∈ literal s := by
      rw [← map_snd_regions .outside (literal s)]
      exact List.mem_map_of_mem hm
    rw [literal, List.mem_cons, List.mem_append, List.mem_singleton] at hmem
    obtain h | h | h := hmem
    · rw [h]
      decide
    · exact henclosed.noControl _ h
    · rw [h]
      decide

/-! ## 4. Numbers -/

theorem bare_of_isDigit {cs : List Char} (h : ∀ c ∈ cs, c.isDigit = true) : Bare cs := by
  intro c hc
  have hdigit := h c hc
  simp only [Char.isDigit, Bool.and_eq_true, decide_eq_true_eq, ge_iff_le,
    UInt32.le_iff_toNat_le] at hdigit
  have hval : c.val.toNat = c.toNat := rfl
  have hzero : '0'.val.toNat = 48 := rfl
  have hnine : '9'.val.toNat = 57 := rfl
  refine ⟨⟨by omega, by omega⟩, ?_⟩
  rintro rfl
  exact absurd hdigit (by decide)

theorem bare_toDigits (n : Nat) : Bare (Nat.toDigits 10 n) :=
  bare_of_isDigit fun _ => Nat.isDigit_of_mem_toDigits (by decide) (by decide)

theorem bare_zeros (n : Nat) : Bare (List.replicate n '0') := by
  apply bare_of_isDigit
  intro c hc
  rw [List.eq_of_mem_replicate hc]
  rfl

theorem bare_renderInt (i : Int) : Bare (renderInt i) := by
  unfold renderInt
  split
  · have hminus : Bare ['-'] := by decide
    exact hminus.append (bare_toDigits i.natAbs)
  · exact bare_toDigits i.natAbs

theorem Bare.pointed {cs : List Char} (h : Bare cs) : Bare (Decimal.pointed cs) := by
  unfold Decimal.pointed
  split
  · exact h
  · exact h
  · next c rest _ =>
    obtain ⟨hc, hrest⟩ := List.forall_mem_cons.1 h
    have hpoint : Bare ['.'] := by decide
    exact List.forall_mem_cons.2 ⟨hc, hpoint.append hrest⟩

theorem bare_renderDecimal (d : Decimal) : Bare d.render := by
  have hdigits := bare_toDigits d.digits
  have htake (n : Nat) : Bare ((Nat.toDigits 10 d.digits).take n) :=
    fun c hc => hdigits c (List.mem_of_mem_take hc)
  have hdrop (n : Nat) : Bare ((Nat.toDigits 10 d.digits).drop n) :=
    fun c hc => hdigits c (List.mem_of_mem_drop hc)
  have hpoint : Bare ['.'] := by decide
  have hleading : Bare ['0', '.'] := by decide
  have htrailing : Bare ['.', '0'] := by decide
  unfold Decimal.render
  dsimp only
  split
  · split
    · exact (hdigits.append (bare_zeros _)).append htrailing
    · split
      · exact (htake _).append (hpoint.append (hdrop _))
      · exact (hleading.append (bare_zeros _)).append hdigits
  · refine (hdigits.pointed.append ?_).append (bare_toDigits _)
    split <;> decide

theorem bare_renderFloat (x : Float) : Bare (Decimal.renderFloat x) := by
  have hmagnitude : Bare (if x == 0 then ['0', '.', '0'] else (Decimal.shortest x).render) := by
    split
    · decide
    · exact bare_renderDecimal _
  unfold Decimal.renderFloat
  dsimp only
  split
  · have hminus : Bare ['-'] := by decide
    exact hminus.append hmagnitude
  · exact hmagnitude

theorem bare_renderNumber (n : Json.Number) : Bare n.render := by
  cases n with
  | int i => exact bare_renderInt i.val
  | float x => exact bare_renderFloat x

/-! ## 5. Documents -/

/-- The second text is the first one without the blanks of the layout, which breaks lines by newlines alone. -/
structure Condenses (laid bare : List Char) : Prop where
  closed : Region.outside.behind laid = .outside
  tight : Tight bare
  withoutBlanks_eq : withoutBlanks laid = bare
  control : ∀ m ∈ regions .outside laid, m.2.toNat < 0x20 → m = (.outside, '\n')

theorem Tight.condenses {cs : List Char} (h : Tight cs) : Condenses cs cs where
  closed := h.closed
  tight := h
  withoutBlanks_eq := h.withoutBlanks_eq
  control m hm hlt := absurd (h.noControl m hm) (by omega)

theorem Condenses.append {a b a' b' : List Char} (ha : Condenses a a') (hb : Condenses b b') :
    Condenses (a ++ b) (a' ++ b') where
  closed := by rw [Region.behind_append, ha.closed, hb.closed]
  tight := ha.tight.append hb.tight
  withoutBlanks_eq := by rw [withoutBlanks_append ha.closed, ha.withoutBlanks_eq, hb.withoutBlanks_eq]
  control := by
    rw [regions_append, ha.closed]
    exact List.forall_mem_append.2 ⟨ha.control, hb.control⟩

theorem condenses_nil : Condenses [] [] := tight_nil.condenses

/-- Line breaks and blanks leave nothing. -/
theorem condenses_blanks {cs : List Char} (h : ∀ c ∈ cs, c = '\n' ∨ c = ' ') : Condenses cs [] := by
  induction cs with
  | nil => exact condenses_nil
  | cons c cs ih =>
    obtain ⟨hc, hcs⟩ := List.forall_mem_cons.1 h
    have hfirst : Condenses [c] [] := by
      obtain rfl | rfl := hc
      · exact ⟨rfl, tight_nil, rfl, by simp [regions]⟩
      · exact ⟨rfl, tight_nil, rfl, by simp [regions]⟩
    exact hfirst.append (ih hcs)

namespace Layout

/-- A layout that puts line breaks and blanks between tokens and nothing else. -/
structure Airy (l : Layout) : Prop where
  lineBreak (n : Nat) : Condenses (l.lineBreak n) []
  colon : Condenses l.colon [':']

theorem airy_pretty : Airy pretty where
  lineBreak n := by
    apply condenses_blanks
    intro c hc
    obtain rfl | hc := List.mem_cons.1 hc
    · exact .inl rfl
    · exact .inr (List.eq_of_mem_replicate hc)
  colon := by
    have hcolon : Bare [':'] := by decide
    have hblank : Condenses [' '] [] := condenses_blanks fun c hc => .inr (List.mem_singleton.1 hc)
    exact hcolon.tight.condenses.append hblank

variable {l : Layout}

/-- Brackets and commas stay, the line breaks go. -/
theorem Airy.condenses_enclose (hl : l.Airy) {opening closing : Char} (ho : Bare [opening])
    (hc : Bare [closing]) (depth depth' : Nat) {laid bare : List (List Char)}
    (h : List.Forall₂ Condenses laid bare) :
    Condenses (l.enclose depth opening closing laid) (compact.enclose depth' opening closing bare) := by
  have hcomma : Bare [','] := by decide
  have hmore : ∀ {laid bare : List (List Char)}, List.Forall₂ Condenses laid bare →
      Condenses (laid.flatMap fun q => ',' :: (l.lineBreak (depth + 1) ++ q))
        (bare.flatMap fun q => ',' :: (compact.lineBreak (depth' + 1) ++ q)) := by
    intro laid bare h
    induction h with
    | nil => exact condenses_nil
    | cons hpiece _ ih =>
      have hfirst := (hl.lineBreak (depth + 1)).append hpiece
      exact (hcomma.tight.condenses.append hfirst).append ih
  cases h with
  | nil => exact (ho.append hc).tight.condenses
  | cons hpiece hpieces =>
    have hfirst := (hl.lineBreak (depth + 1)).append hpiece
    have hlast := (hl.lineBreak depth).append hc.tight.condenses
    have hwhole := ho.tight.condenses.append ((hfirst.append (hmore hpieces)).append hlast)
    simpa [enclose, compact] using hwhole

mutual

/-- A document is laid out with the same tokens in any such layout, at any depth. -/
theorem Airy.condenses_render (hl : l.Airy) : (j : Json) → (depth depth' : Nat) →
    Condenses (l.render depth j) (compact.render depth' j)
  | .null, _, _ => (show Bare ['n', 'u', 'l', 'l'] by decide).tight.condenses
  | .boolean true, _, _ => (show Bare ['t', 'r', 'u', 'e'] by decide).tight.condenses
  | .boolean false, _, _ => (show Bare ['f', 'a', 'l', 's', 'e'] by decide).tight.condenses
  | .number n, _, _ => (bare_renderNumber n).tight.condenses
  | .string s, _, _ => (tight_literal s).condenses
  | .array js, depth, depth' =>
    hl.condenses_enclose (by decide) (by decide) depth depth'
      (hl.condenses_renderItems js (depth + 1) (depth' + 1))
  | .object ms, depth, depth' =>
    hl.condenses_enclose (by decide) (by decide) depth depth'
      (hl.condenses_renderMembers ms (depth + 1) (depth' + 1))

theorem Airy.condenses_renderItems (hl : l.Airy) : (js : List Json) → (depth depth' : Nat) →
    List.Forall₂ Condenses (l.renderItems depth js) (compact.renderItems depth' js)
  | [], _, _ => .nil
  | j :: js, depth, depth' =>
    .cons (hl.condenses_render j depth depth') (hl.condenses_renderItems js depth depth')

theorem Airy.condenses_renderMembers (hl : l.Airy) : (ms : List (String × Json)) → (depth depth' : Nat) →
    List.Forall₂ Condenses (l.renderMembers depth ms) (compact.renderMembers depth' ms)
  | [], _, _ => .nil
  | (k, j) :: ms, depth, depth' =>
    .cons (((tight_literal k).condenses.append hl.colon).append (hl.condenses_render j depth depth'))
      (hl.condenses_renderMembers ms depth depth')

end

theorem airy_compact : Airy compact where
  lineBreak _ := condenses_nil
  colon := (show Bare [':'] by decide).tight.condenses

theorem tight_compact (j : Json) (depth : Nat) : Tight (compact.render depth j) :=
  (airy_compact.condenses_render j depth depth).tight

/-- Without blanks it does not matter how deep a document stands. -/
theorem render_compact_eq (j : Json) (depth depth' : Nat) :
    compact.render depth j = compact.render depth' j := by
  rw [← (airy_compact.condenses_render j depth depth').withoutBlanks_eq,
    (tight_compact j depth).withoutBlanks_eq]

end Layout

end MetricCatalog.Json
