import MetricUpload.Binary64

namespace MetricUpload

namespace Binary64

/-- The greatest power of ten below the greatest double. -/
def greatestTen : Nat := 308

/-- Divided by `10 ^ 308` so many times, and no longer once it is zero. -/
def lowered? : Nat → Binary64 → Option Binary64
  | 0, f => some f
  | times + 1, f =>
    if f.isZero then some f
    else do
      let ten ← powerOfTen? greatestTen
      lowered? times (← f.over? ten)

/-- `significand * 10 ^ power` with one rounding for the significand and one for each factor, which
is not always the double nearest to the exact value; `none` when it leaves the finite range. -/
def scaled? (negative : Bool) (significand : Nat) (power : Int) : Option Binary64 := do
  let f ← ofRatio? negative significand 1
  if 0 ≤ power then
    if power ≤ greatestTen then f.times? (← powerOfTen? power.toNat)
    else if f.isZero then some f
    else none
  else
    let depth := (-power).toNat
    let rounds := (depth - 1) / greatestTen
    (← lowered? rounds f).over? (← powerOfTen? (depth - rounds * greatestTen))

end Binary64

end MetricUpload
