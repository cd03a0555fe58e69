import MetricUpload.Json.Value
import MetricUpload.Json.Fault
import MetricUpload.Binary64.Scaling

namespace MetricUpload

/-- The digits of a numeral read so far: `significand * 10 ^ shift`, up to digits that were dropped
because the significand has no room for them. `full` tells that this happened in the part, before or
after the point, that is being read. -/
structure Digits where
  significand : Nat
  shift : Int
  full : Bool
  deriving DecidableEq

namespace Digits

def empty : Digits := ⟨0, 0, false⟩

/-- A significand is kept in 64 bits. -/
def room : Nat := 18446744073709551616

/-- A dropped digit before the point still counts as a place. -/
def addWhole (ds : Digits) (digit : Nat) : Digits :=
  if ds.full || room ≤ ds.significand * 10 + digit then
    { ds with shift := ds.shift + 1, full := true }
  else { ds with significand := ds.significand * 10 + digit }

/-- A dropped digit after the point counts for nothing. -/
def addFraction (ds : Digits) (digit : Nat) : Digits :=
  if ds.full || room ≤ ds.significand * 10 + digit then { ds with full := true }
  else { ds with significand := ds.significand * 10 + digit, shift := ds.shift - 1 }

def enterFraction (ds : Digits) : Digits := { ds with full := false }

end Digits

/-- How far a numeral has been read, its sign aside. After `sign`, `point`, `mark` and `markSign` a
digit must still come. -/
inductive Numeral where
  | sign
  | zero
  | whole (digits : Digits)
  | point (digits : Digits)
  | fraction (digits : Digits)
  | mark (digits : Digits)
  | markSign (digits : Digits) (down : Bool)
  | exponent (digits : Digits) (down : Bool) (power : Nat)
  deriving DecidableEq

namespace Numeral

def digit? (c : Char) : Option Nat :=
  if c.isDigit then some (c.toNat - '0'.toNat) else none

/-- What the next character does to a numeral: it belongs to it, stands after its end, or breaks
it. -/
inductive Step where
  | more (n : Numeral)
  | over
  | wrong (cause : Json.Cause)

/-- Exponents are written in 31 bits. -/
def greatestExponent : Nat := 2147483647

/-- A written exponent beyond the greatest is refused at once when it makes the number infinite, and
otherwise makes it zero. -/
def addExponent (ds : Digits) (down : Bool) (power digit : Nat) : Step :=
  if greatestExponent < power * 10 + digit ∧ down = false ∧ ds.significand ≠ 0 then
    .wrong .numberOutOfRange
  else .more (.exponent ds down (power * 10 + digit))

def isMark (c : Char) : Bool := c == 'e' || c == 'E'

def next (n : Numeral) (c : Char) : Step :=
  match n, digit? c with
  | .sign, some 0 => .more .zero
  | .sign, some d => .more (.whole (Digits.empty.addWhole d))
  | .sign, none => .wrong .invalidNumber
  | .zero, some _ => .wrong .invalidNumber
  | .zero, none =>
    if c == '.' then .more (.point .empty)
    else if isMark c then .more (.mark .empty)
    else .over
  | .whole ds, some d => .more (.whole (ds.addWhole d))
  | .whole ds, none =>
    if c == '.' then .more (.point ds.enterFraction)
    else if isMark c then .more (.mark ds)
    else .over
  | .point ds, some d => .more (.fraction (ds.addFraction d))
  | .point _, none => .wrong .invalidNumber
  | .fraction ds, some d => .more (.fraction (ds.addFraction d))
  | .fraction ds, none => if isMark c then .more (.mark ds) else .over
  | .mark ds, some d => addExponent ds false 0 d
  | .mark ds, none =>
    if c == '+' then .more (.markSign ds false)
    else if c == '-' then .more (.markSign ds true)
    else .wrong .invalidNumber
  | .markSign ds down, some d => addExponent ds down 0 d
  | .markSign _ _, none => .wrong .invalidNumber
  | .exponent ds down power, some d => addExponent ds down power d
  | .exponent _ _ _, none => .over

def float (negative : Bool) (significand : Nat) (power : Int) : Except Json.Cause Number :=
  match Binary64.scaled? negative significand power with
  | some f => .ok (.float f)
  | none => .error .numberOutOfRange

/-- The magnitude of the least whole number, `-2 ^ 63`. -/
def deepest : Nat := 9223372036854775808

/-- The number that a finished numeral denotes. Whole numbers from `-2 ^ 63` to `2 ^ 64 - 1` are
integers, except that zero with a minus sign is a double. -/
def value (negative : Bool) : Numeral → Except Json.Cause Number
  | .zero => if negative then float true 0 0 else .ok (.int 0)
  | .whole ds =>
    if ds.full then float negative ds.significand ds.shift
    else if negative = false then .ok (.int ds.significand)
    else if ds.significand ≤ deepest then .ok (.int (-ds.significand))
    else float true ds.significand 0
  | .fraction ds => float negative ds.significand ds.shift
  | .exponent ds down power =>
    float negative ds.significand (if down then ds.shift - power else ds.shift + power)
  | .sign | .point _ | .mark _ | .markSign _ _ => .error .endInValue

end Numeral

end MetricUpload
