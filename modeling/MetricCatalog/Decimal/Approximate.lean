/-!
# Approximate decimals — a double from a significand and a power of ten

`Decimal.approximate s e` stands for `s * 10 ^ e`. It takes one rounded multiplication or division by
a power of ten instead of rounding the exact product, so the last bit may differ from the nearest
double.
-/

namespace MetricCatalog.Decimal

/-- The double nearest to `10 ^ n`. -/
def powerOfTen (n : Nat) : Float := Float.ofScientific 1 false n

/-- The largest exponent whose power of ten is finite. -/
def largestPower : Nat := 308

/-- `f / 10 ^ n`, in steps of at most `10 ^ 308`; zero stays zero. -/
def shrink (f : Float) (n : Nat) : Float :=
  if n ≤ largestPower then f / powerOfTen n
  else if f == 0 then f
  else shrink (f / powerOfTen largestPower) (n - largestPower)
termination_by n
decreasing_by simp only [largestPower] at *; omega

/-- About `s * 10 ^ e`, or `none` where that is beyond every finite double. -/
def approximate (s : Nat) : Int → Option Float
  | .ofNat n =>
    let f := Float.ofNat s
    if n ≤ largestPower then
      let x := f * powerOfTen n
      if x.isInf then none else some x
    else if f == 0 then some f
    else none
  | .negSucc n => some (shrink (Float.ofNat s) (n + 1))

end MetricCatalog.Decimal
