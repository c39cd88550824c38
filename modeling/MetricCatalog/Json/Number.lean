import MetricCatalog.Decimal.Notation

/-!
# Numbers — exact integers within bounds, and doubles

A document's integers are kept exactly or not at all. `Json.Number` is what arbitrary JSON can hold:
an integer of 64 bits, signed or unsigned, or a double. An integer is never equal to a double.
-/

namespace MetricCatalog

/-- An integer from `lo` on and below `hi`. -/
structure IntBetween (lo hi : Int) where
  val : Int
  lo_le : lo ≤ val
  lt_hi : val < hi
deriving DecidableEq

namespace IntBetween

variable {lo hi : Int}

/-- The integer `i` within the bounds, if it lies there. -/
def ofInt? (lo hi i : Int) : Option (IntBetween lo hi) :=
  if h : lo ≤ i ∧ i < hi then some ⟨i, h.1, h.2⟩ else none

theorem ofInt?_val (i : IntBetween lo hi) : ofInt? lo hi i.val = some i := by
  simp [ofInt?, i.lo_le, i.lt_hi]

theorem ofInt?_eq_some_iff {i : Int} {j : IntBetween lo hi} : ofInt? lo hi i = some j ↔ j.val = i := by
  constructor
  · intro h
    simp only [ofInt?] at h
    split at h <;> simp_all
    rw [← h]
  · rintro rfl
    exact ofInt?_val j

/-- The same integer within wider bounds. -/
def widen (lo' hi' : Int) (hlo : lo' ≤ lo) (hhi : hi ≤ hi') (i : IntBetween lo hi) : IntBetween lo' hi' :=
  ⟨i.val, Int.le_trans hlo i.lo_le, Int.lt_of_lt_of_le i.lt_hi hhi⟩

end IntBetween

/-- The decimal digits of an integer, behind a minus sign if it is negative. -/
def renderInt (i : Int) : List Char :=
  if i < 0 then '-' :: Nat.toDigits 10 i.natAbs else Nat.toDigits 10 i.natAbs

namespace Json

/-- The integers that arbitrary JSON keeps exactly: those of 64 bits, with a sign or without. -/
abbrev Integer := IntBetween (-0x8000000000000000) 0x10000000000000000

/-- A number of a JSON document. -/
inductive Number where
  | int (i : Integer)
  | float (x : Float)

namespace Number

/-- Integers are equal as integers and doubles as doubles. -/
instance : BEq Number where
  beq
    | .int i, .int j => i == j
    | .float x, .float y => x == y
    | _, _ => false

/-- A number as a document shows it. -/
def render : Number → List Char
  | .int i => renderInt i.val
  | .float x => Decimal.renderFloat x

end Number

end Json

end MetricCatalog
