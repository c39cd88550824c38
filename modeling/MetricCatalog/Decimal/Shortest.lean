/-!
# Shortest decimals — the fewest digits that identify a double

The reals that round to a given double form an interval: from halfway to its lower neighbour to
halfway to its upper one, both ends included exactly if its significand is even. `Decimal.shortest`
looks for a decimal in that interval on ever finer grids of powers of ten, takes the first grid that
has one, and on it the point nearest to the double. All comparisons are exact.
-/

namespace MetricCatalog

/-- A decimal: `digits * 10 ^ exponent`. -/
structure Decimal where
  digits : Nat
  exponent : Int

namespace Decimal

/-- A positive double: `significand * 2 ^ exponent`. -/
structure Binary where
  significand : Nat
  exponent : Int
  /-- The gap to the double below is half the gap to the double above. -/
  narrowBelow : Bool

/-- The absolute value of a finite double from its bits. -/
def Binary.ofBits (bits : UInt64) : Binary :=
  let leadingBit : Nat := 0x10000000000000
  let field : Nat := bits.toNat / leadingBit % 0x800
  let fraction : Nat := bits.toNat % leadingBit
  if field = 0 then ⟨fraction, -1074, false⟩
  else ⟨leadingBit + fraction, (field : Int) - 1075, fraction = 0 && field > 1⟩

/-- The point of the grid of multiples of `10 ^ grid` that rounds to the double, the nearest one if
there are two, the even one if both are equally near. -/
def Binary.onGrid? (x : Binary) (grid : Int) : Option Nat :=
  -- In units of `2 ^ (exponent - 2)` the double and the ends of its interval are whole numbers.
  let value := 4 * x.significand
  let least := value - (if x.narrowBelow then 1 else 2)
  let greatest := value + 2
  let unit := Nat.pow 2 (x.exponent - 2).toNat * Nat.pow 10 (-grid).toNat
  let step := Nat.pow 2 (2 - x.exponent).toNat * Nat.pow 10 grid.toNat
  let closed := x.significand % 2 = 0
  let inside (n : Nat) : Bool :=
    (least * unit < n * step || (closed && least * unit = n * step)) &&
    (n * step < greatest * unit || (closed && n * step = greatest * unit))
  let below := value * unit / step
  let above := below + 1
  match inside below, inside above with
  | false, false => none
  | true, false => some below
  | false, true => some above
  | true, true =>
    match compare (2 * value * unit) ((below + above) * step) with
    | .lt => some below
    | .gt => some above
    | .eq => some (if below % 2 = 0 then below else above)

/-- An exponent `k` with `x < 10 ^ k`, too large by two at most: a little more than `log₁₀ 2` a bit. -/
def Binary.magnitude (x : Binary) : Int :=
  ((x.significand.log2 + 1 : Nat) + x.exponent) * 30103 / 100000 + 2

/-- The search for a grid with a point in the interval, `fuel` grids finer and finer from `grid` on. -/
def Binary.search (x : Binary) (grid : Int) : Nat → Decimal
  | 0 => ⟨0, 0⟩
  | fuel + 1 =>
    match x.onGrid? grid with
    | some digits => ⟨digits, grid⟩
    | none => x.search (grid - 1) fuel

/-- The shortest decimal that rounds to the positive finite double `x`. Seventeen digits are always enough. -/
def shortest (x : Float) : Decimal :=
  let b := Binary.ofBits x.toBits
  b.search b.magnitude 24

end Decimal

end MetricCatalog
