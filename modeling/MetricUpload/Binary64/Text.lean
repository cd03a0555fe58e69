import MetricUpload.Binary64.Shortest

namespace MetricUpload

/-- A positive whole number without its trailing zeros, and how many there were. -/
def stripZeros : Nat → Nat → Nat × Nat
  | 0, n => (n, 0)
  | steps + 1, n =>
    if n % 10 = 0 then
      let (m, zeros) := stripZeros steps (n / 10)
      (m, zeros + 1)
    else (n, 0)

namespace Binary64

/-- The first digit alone before the point, and the power of ten written after it. -/
def scientific (digits : List Char) (power : Int) : List Char :=
  let fraction := match digits with
    | first :: next :: rest => first :: '.' :: next :: rest
    | short => short
  fraction ++ 'e' :: (if power < 0 then '-' else '+') :: Nat.toDigits 10 power.natAbs

/-- Without a power of ten, and never without a point. -/
def positional (digits : List Char) (power : Int) : List Char :=
  if power < 0 then '0' :: '.' :: List.replicate (power.natAbs - 1) '0' ++ digits
  else
    let whole := power.toNat + 1
    if whole < digits.length then digits.take whole ++ '.' :: digits.drop whole
    else digits ++ List.replicate (whole - digits.length) '0' ++ ['.', '0']

/-- The shortest decimal that rounds to the number: positional when the power of ten of its first
digit is between -5 and 15, scientific otherwise. -/
def chars (f : Binary64) : List Char :=
  let magnitude :=
    if f.isZero then ['0', '.', '0']
    else
      let (n, grid) := f.shortest
      let (n, zeros) := stripZeros 17 n
      let digits := Nat.toDigits 10 n
      let power := grid + zeros + (digits.length - 1)
      if -5 ≤ power ∧ power ≤ 15 then positional digits power else scientific digits power
  if f.negative then '-' :: magnitude else magnitude

end Binary64

end MetricUpload
