import MetricUpload.Binary64

namespace MetricUpload

namespace Binary64

/-- The reals that round to `f`, without the sign, between two bounds with the common denominator
`den`. The bounds themselves belong to it when the significand is even. -/
structure RoundingInterval where
  low : Nat
  value : Nat
  high : Nat
  den : Nat
  closed : Bool

/-- The bounds lie halfway to the neighbours. Below a power of two the neighbour is only half as far
away, unless the exponent is already the least. -/
def roundingInterval (f : Binary64) : RoundingInterval :=
  let scale := Nat.pow 2 f.exponent.toNat
  let gap := if f.significand = half ∧ f.exponent ≠ -1074 then 1 else 2
  { low := (4 * f.significand - gap) * scale
    value := 4 * f.significand * scale
    high := (4 * f.significand + 2) * scale
    den := 4 * Nat.pow 2 (-f.exponent).toNat
    closed := f.significand % 2 == 0 }

namespace RoundingInterval

/-- Measured in multiples of `10 ^ grid`. -/
def onGrid (i : RoundingInterval) (grid : Int) : RoundingInterval :=
  let up := Nat.pow 10 (-grid).toNat
  { i with low := i.low * up, value := i.value * up, high := i.high * up,
           den := i.den * Nat.pow 10 grid.toNat }

/-- Whether the whole number `n` lies in the interval. -/
def holds (i : RoundingInterval) (n : Nat) : Bool :=
  if i.closed then i.low ≤ n * i.den && n * i.den ≤ i.high
  else i.low < n * i.den && n * i.den < i.high

/-- The whole number in the interval that is nearest to the value, a half going to the even one. -/
def nearest? (i : RoundingInterval) : Option Nat :=
  let below := i.value / i.den
  let near := roundedQuotient i.value i.den
  let far := if near = below then below + 1 else below
  if i.holds near then some near else if i.holds far then some far else none

/-- The first of the grids `10 ^ grid`, `10 ^ (grid - 1)`, … with a point in the interval, and that
point; on the last grid tried, the point nearest to the value. -/
def firstHit (i : RoundingInterval) : Nat → Int → Nat × Int
  | 0, grid => (roundedQuotient (i.onGrid grid).value (i.onGrid grid).den, grid)
  | tries + 1, grid =>
    match (i.onGrid grid).nearest? with
    | some n => (n, grid)
    | none => firstHit i tries (grid - 1)

end RoundingInterval

/-- The `k` with `10 ^ k ≤ num / den < 10 ^ (k + 1)`, for a positive `num`. -/
def decimalExponent (num den : Nat) : Int :=
  if den ≤ num then (Nat.toDigits 10 (num / den)).length - 1
  else -(Nat.toDigits 10 ((den - 1) / num)).length

/-- A decimal `digits * 10 ^ grid` with the fewest digits that rounds to `f`, the nearest such;
seventeen digits always suffice. -/
def shortest (f : Binary64) : Nat × Int :=
  f.roundingInterval.firstHit 16 (decimalExponent f.num f.den)

end Binary64

end MetricUpload
