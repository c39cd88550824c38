import MetricCatalog.Decimal.Shortest

/-!
# Decimal notation — how a double is written

A number whose leading digit stands for `10 ^ x` is written positionally for `-5 ≤ x < 16`, with at
least one digit behind the point, and otherwise in scientific form with a signed exponent. Zero keeps
its sign.
-/

namespace MetricCatalog.Decimal

/-- The exponents of the leading digit that are written positionally: from this one on. -/
def plainFrom : Int := -5

/-- The exponents of the leading digit that are written positionally: below this one. -/
def plainBelow : Int := 16

/-- `first.rest`, without the point if there is no rest. -/
def pointed : List Char → List Char
  | [] => []
  | [c] => [c]
  | c :: rest => c :: '.' :: rest

/-- A positive decimal in the notation above. -/
def render (d : Decimal) : List Char :=
  let digits := Nat.toDigits 10 d.digits
  let leading := d.exponent + digits.length - 1
  if plainFrom ≤ leading ∧ leading < plainBelow then
    if 0 ≤ d.exponent then
      digits ++ List.replicate d.exponent.toNat '0' ++ ['.', '0']
    else if 0 ≤ leading then
      digits.take (leading.toNat + 1) ++ '.' :: digits.drop (leading.toNat + 1)
    else
      ['0', '.'] ++ List.replicate (-leading - 1).toNat '0' ++ digits
  else
    pointed digits ++ ['e', if leading < 0 then '-' else '+'] ++ Nat.toDigits 10 leading.natAbs

/-- A finite double in the notation above. -/
def renderFloat (x : Float) : List Char :=
  let negative := 0x8000000000000000 ≤ x.toBits.toNat
  let magnitude := if x == 0 then ['0', '.', '0'] else (shortest x).render
  if negative then '-' :: magnitude else magnitude

example : String.ofList (renderFloat 0.1) = "0.1" := by decide +kernel
example : String.ofList (renderFloat 1e16) = "1e+16" := by decide +kernel
example : String.ofList (renderFloat (-1.5e-7)) = "-1.5e-7" := by decide +kernel
example : String.ofList (renderFloat 5e-324) = "5e-324" := by decide +kernel

end MetricCatalog.Decimal
