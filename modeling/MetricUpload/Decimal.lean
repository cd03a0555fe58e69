import MetricUpload.Binary64

namespace MetricUpload

/-- The number `significand * 10 ^ power` with a sign, as a numeral spells it. -/
structure Decimal where
  negative : Bool
  significand : Nat
  power : Int
  deriving DecidableEq

namespace Decimal

def natural (digits : List Char) : Nat :=
  digits.foldl (fun n c => n * 10 + (c.toNat - '0'.toNat)) 0

def natural? (digits : List Char) : Option Nat :=
  if digits.isEmpty || !digits.all Char.isDigit then none else some (natural digits)

/-- Nothing, or a mark and a whole number with or without a sign. -/
def exponent? : List Char → Option Int
  | [] => some 0
  | mark :: cs =>
    if mark == 'e' || mark == 'E' then
      match cs with
      | '-' :: digits => (natural? digits).map fun n => -(n : Int)
      | '+' :: digits => (natural? digits).map Int.ofNat
      | digits => (natural? digits).map Int.ofNat
    else none

def magnitude? (negative : Bool) (cs : List Char) : Option Decimal :=
  let whole := cs.takeWhile Char.isDigit
  let (fraction, rest) := match cs.dropWhile Char.isDigit with
    | '.' :: cs => (cs.takeWhile Char.isDigit, cs.dropWhile Char.isDigit)
    | cs => ([], cs)
  if whole.isEmpty && fraction.isEmpty then none
  else (exponent? rest).map fun power =>
    ⟨negative, natural (whole ++ fraction), power - fraction.length⟩

/-- Digits on at least one side of the point, with zeros in front of them as one likes. -/
def ofChars? : List Char → Option Decimal
  | '-' :: cs => magnitude? true cs
  | cs => magnitude? false cs

/-- The nearest double. What is below `10 ^ -330` is zero, and what reaches `10 ^ 310` is infinite,
without a look at the digits. -/
def toBinary64? (d : Decimal) : Option Binary64 :=
  let top := d.power + (Nat.toDigits 10 d.significand).length
  if d.significand = 0 ∨ top < -330 then some (.zero d.negative)
  else if 310 < top then none
  else if 0 ≤ d.power then
    Binary64.ofRatio? d.negative (d.significand * Nat.pow 10 d.power.toNat) 1
  else Binary64.ofRatio? d.negative d.significand (Nat.pow 10 (-d.power).toNat)

/-- The whole number that the nearest double is, if it is one. -/
def toInt? (d : Decimal) : Option Int := d.toBinary64?.bind Binary64.toInt?

end Decimal

end MetricUpload
