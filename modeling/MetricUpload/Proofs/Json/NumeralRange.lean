import MetricUpload.Proofs.Binary64.Overflow
import MetricUpload.Proofs.Json.KeptDigits

namespace MetricUpload

namespace Json.NumeralText

def fractionDigits (n : NumeralText) : List Char :=
  match n.fraction with
  | none => []
  | some run => run.chars

/-- All digits before the exponent, as one number. -/
def digits (n : NumeralText) : Nat := Nat.ofDigitChars 10 (n.whole.chars ++ n.fractionDigits) 0

/-- The exponent that is written. -/
def power (n : NumeralText) : Int :=
  match n.exponent with
  | none => 0
  | some e =>
    let size : Int := Nat.ofDigitChars 10 e.run.chars 0
    if e.down = some true then -size else size

/-- The exact value without the sign. -/
def magnitude (n : NumeralText) : ℚ := n.digits * 10 ^ (n.power - n.fractionDigits.length)

end Json.NumeralText

namespace Digits

theorem leading_bounds {a k lead : Nat} (h : a / 10 ^ k = lead) :
    (lead : ℚ) ≤ a / 10 ^ k ∧ (a : ℚ) / 10 ^ k < lead + 1 := by
  have hten : (0 : ℚ) < 10 ^ k := by positivity
  have hlow : lead * 10 ^ k ≤ a := by
    rw [← h]
    exact Nat.div_mul_le_self a (10 ^ k)
  have hhigh : a < (lead + 1) * 10 ^ k :=
    (Nat.div_lt_iff_lt_mul (Nat.pow_pos (by decide))).mp (by omega)
  constructor
  · rw [le_div_iff₀ hten]
    exact_mod_cast hlow
  · rw [div_lt_iff₀ hten]
    exact_mod_cast hhigh

/-- Numbers that begin with the same digits, which fill the room, are no further apart than a rounding
takes them. -/
theorem drift_of_leading {a b k l lead : Nat} {unit : ℚ} (hunit : 0 < unit) (ha : a / 10 ^ k = lead)
    (hb : b / 10 ^ l = lead) (long : room ≤ lead * 10 + 9) :
    Binary64.Drift 1 (a / 10 ^ k * unit) (b / 10 ^ l * unit) := by
  have hroom : room = 18446744073709551616 := rfl
  have hlong : 1844674407370955160 ≤ lead := by omega
  have hlead : (1844674407370955160 : ℚ) ≤ lead := by exact_mod_cast hlong
  have hkept : Binary64.kept * (lead + 1) ≤ lead := by
    norm_num [Binary64.kept]
    linarith
  have hclose : ∀ {x y : ℚ}, x < lead + 1 → lead ≤ y →
      Binary64.kept ^ 1 * (x * unit) ≤ y * unit := by
    intro x y hx hy
    rw [pow_one, ← mul_assoc]
    refine mul_le_mul_of_nonneg_right ?_ hunit.le
    exact (mul_le_mul_of_nonneg_left hx.le Binary64.kept_pos.le).trans (hkept.trans hy)
  obtain ⟨halow, hahigh⟩ := leading_bounds ha
  obtain ⟨hblow, hbhigh⟩ := leading_bounds hb
  exact ⟨hclose hahigh hblow, hclose hbhigh halow⟩

/-- What is kept of digits and what they are differ by a rounding at the most. -/
theorem Keep.drift {ds : Digits} {n places : Nat} (h : ds.Keep n places) (power : Int) :
    Binary64.Drift 1 (n * 10 ^ (power - places)) (ds.significand * 10 ^ (ds.shift + power)) := by
  have hten : (10 : ℚ) ≠ 0 := by norm_num
  cases h with
  | all _ _ shift same =>
    refine (Binary64.Drift.of_eq ?_).mono (Nat.zero_le 1) (by positivity) (by positivity)
    rw [same, shift]
    congr 2
    omega
  | most _ dropped later shift same long =>
    have hcancel : ∀ (m : ℚ) (k : Nat) (e : Int), m / 10 ^ k * 10 ^ (e + k) = m * 10 ^ e := by
      intro m k e
      rw [zpow_add₀ (by norm_num), zpow_natCast]
      field_simp
    have hunit : (0 : ℚ) < 10 ^ (power - places + (dropped + later : Nat)) := by positivity
    have hleading := drift_of_leading hunit same rfl long
    have hexponent : power - places + (dropped + later : Nat) = ds.shift + power + (later : Nat) := by
      rw [shift]
      push_cast
      ring
    rwa [hcancel, hexponent, hcancel] at hleading

end Digits

namespace Numeral

/-- A numeral that ends here stands for its digits, raised by this power of ten. -/
inductive Stands : Numeral → Digits → Int → Prop
  | bare {n : Numeral} {ds : Digits} (h : n.HasDigits ds) : Stands n ds 0
  | down (ds : Digits) (size : Nat) : Stands (.exponent ds true size) ds (-size)
  | up (ds : Digits) (size : Nat) : Stands (.exponent ds false size) ds size

section

variable {text : Json.NumeralText} {n : Numeral} {ds : Digits}

theorem read_wholeChars (text : Json.NumeralText) :
    ∃ n ds, read .sign text.whole.chars = .ok n ∧ (n = .zero ∨ ∃ ds, n = .whole ds) ∧ n.HasDigits ds ∧
      ds.Keep (Nat.ofDigitChars 10 text.whole.chars 0) 0 := by
  obtain ⟨hfirst, hmore⟩ := List.forall_mem_cons.mp text.whole.digits
  by_cases hzero : text.whole.first = '0'
  · have hchars : text.whole.chars = ['0'] := by
      rw [Json.DigitRun.chars, hzero, text.noLeadingZero hzero]
    rw [hchars]
    exact ⟨_, _, rfl, .inl rfl, .zero, Digits.keep_empty⟩
  · have hkeep := Digits.keep_empty.addWhole (digit_lt hfirst)
    obtain ⟨ds, hread, hshift, hkept⟩ :=
      read_wholeDigits hmore hkeep (Digits.shift_addWhole (fun _ => rfl) _)
    rw [← ofDigitChars_cons_ten] at hkept
    refine ⟨.whole ds, ds, ?_, .inr ⟨ds, rfl⟩, .whole hshift, hkept⟩
    simp only [Json.DigitRun.chars, read, next_sign hfirst hzero]
    exact hread

theorem read_fractionChars (hn : n = .zero ∨ ∃ ds, n = .whole ds) (hds : n.HasDigits ds) {whole : Nat}
    (hkeep : ds.Keep whole 0) (text : Json.NumeralText) :
    ∃ n' ds', n.read text.fractionChars = .ok n' ∧ n'.HasDigits ds' ∧
      ds'.Keep (Nat.ofDigitChars 10 text.fractionDigits whole) text.fractionDigits.length := by
  unfold Json.NumeralText.fractionChars Json.NumeralText.fractionDigits
  cases text.fraction with
  | none => exact ⟨n, ds, rfl, hds, hkeep⟩
  | some run =>
    obtain ⟨hfirst, hmore⟩ := List.forall_mem_cons.mp run.digits
    obtain ⟨ds', hpoint, hkeep'⟩ : ∃ ds', n.next '.' = .more (.point ds') ∧ ds'.Keep whole 0 := by
      cases hds with
      | zero => exact ⟨_, rfl, hkeep⟩
      | whole => exact ⟨_, rfl, hkeep.enterFraction⟩
      | fraction ds =>
        rcases hn with hn | ⟨_, hn⟩
        · cases hn
        · cases hn
    obtain ⟨last, hread, hkept⟩ :=
      read_fractionDigits hmore (hkeep'.addFraction (digit_lt hfirst))
    rw [← ofDigitChars_cons_ten, Nat.zero_add, Nat.add_comm] at hkept
    refine ⟨.fraction last, last, ?_, .fraction last, hkept⟩
    simp only [Json.DigitRun.chars, read, hpoint, next_point ds' hfirst]
    exact hread

theorem next_mark (hds : n.HasDigits ds) (e : Json.ExponentPart) :
    n.next e.mark = .more (.mark ds) := by
  unfold Json.ExponentPart.mark
  cases hds <;> cases e.upper <;> rfl

/-- Behind its mark and sign an exponent begins with zero. -/
theorem read_signChars (ds : Digits) (e : Json.ExponentPart) {c : Char} (hc : c.isDigit = true)
    (cs : List Char) :
    read (.mark ds) (e.signChars ++ c :: cs) =
      read (.exponent ds (e.down = some true) 0) (c :: cs) := by
  have hdigit := digit?_of_isDigit hc
  unfold Json.ExponentPart.signChars
  cases e.down with
  | none => simp only [List.nil_append, read, next, hdigit, reduceCtorEq, decide_false]
  | some down =>
    have hsign : ∀ b, next (.markSign ds b) c = next (.exponent ds b 0) c := by
      intro b
      simp only [next, hdigit]
    cases down with
    | false =>
      have hplus : next (.mark ds) '+' = .more (.markSign ds false) := rfl
      have hup : decide (some false = some true) = false := rfl
      simp only [List.cons_append, List.nil_append, read, hplus, hsign, hup]
    | true =>
      have hminus : next (.mark ds) '-' = .more (.markSign ds true) := rfl
      simp only [List.cons_append, List.nil_append, read, hminus, hsign, decide_true]

theorem read_exponentChars (hds : n.HasDigits ds) (text : Json.NumeralText) :
    (∃ n', n.read text.exponentChars = .ok n' ∧ n'.Stands ds text.power) ∨
      n.read text.exponentChars = .error .numberOutOfRange ∧ greatestExponent < text.power := by
  unfold Json.NumeralText.exponentChars Json.NumeralText.power
  cases text.exponent with
  | none => exact .inl ⟨n, rfl, .bare hds⟩
  | some e =>
    obtain ⟨hfirst, _⟩ := List.forall_mem_cons.mp e.run.digits
    have hread : n.read e.chars = read (.exponent ds (e.down = some true) 0) e.run.chars := by
      simp only [Json.ExponentPart.chars, read, next_mark hds]
      exact read_signChars ds e hfirst e.run.more
    rcases read_exponentDigits e.run.digits ds (e.down = some true) 0 with hok | ⟨hover, hup, hgreat⟩
    · refine .inl ⟨_, hread.trans hok, ?_⟩
      dsimp only
      split
      next hdown =>
        simp only [hdown, decide_true]
        exact .down ds _
      next hup =>
        simp only [hup, decide_false]
        exact .up ds _
    · refine .inr ⟨hread.trans hover, ?_⟩
      dsimp only
      rw [if_neg (of_decide_eq_false hup)]
      exact_mod_cast hgreat

/-- A numeral is read up to its end, unless its exponent raises it and is out of range. -/
theorem read_magnitudeChars (text : Json.NumeralText) :
    (∃ n ds, read .sign text.magnitudeChars = .ok n ∧ n.Stands ds text.power ∧
      ds.Keep text.digits text.fractionDigits.length) ∨
      read .sign text.magnitudeChars = .error .numberOutOfRange ∧
        greatestExponent < text.power := by
  obtain ⟨first, before, hfirst, hbare, hbefore, hkeep⟩ := read_wholeChars text
  obtain ⟨second, ds, hsecond, hds, hkept⟩ := read_fractionChars hbare hbefore hkeep text
  rw [← Nat.ofDigitChars_append] at hkept
  have hread : read .sign text.magnitudeChars = second.read text.exponentChars := by
    rw [Json.NumeralText.magnitudeChars, read_append, hfirst]
    show first.read (text.fractionChars ++ text.exponentChars) = _
    rw [read_append, hsecond]
    rfl
  rw [hread]
  rcases read_exponentChars hds text with ⟨last, hlast, hstands⟩ | hover
  · exact .inl ⟨last, ds, hlast, hstands, hkept⟩
  · exact .inr hover

theorem exists_float_iff {negative : Bool} {significand : Nat} {power : Int} :
    (∃ amount, float negative significand power = .ok amount) ↔
      ∃ f, Binary64.scaled? negative significand power = some f := by
  unfold float
  cases Binary64.scaled? negative significand power with
  | none => simp
  | some f => simp

/-- A whole number of which no digit is dropped always has a value, as an integer or as a double. -/
theorem exists_value_whole (hvacant : ds.full = false) (hroom : ds.significand < 2 ^ 64)
    (negative : Bool) : ∃ amount, (whole ds).value negative = .ok amount := by
  rw [value, hvacant, if_neg Bool.false_ne_true]
  cases negative with
  | false => exact ⟨_, if_pos rfl⟩
  | true =>
    rw [if_neg (Ne.symm Bool.false_ne_true)]
    by_cases hdeep : ds.significand ≤ deepest
    · exact ⟨_, if_pos hdeep⟩
    · rw [if_neg hdeep]
      exact exists_float_iff.mpr (Binary64.exists_scaled?_whole true hroom)

/-- A numeral has a value if its digits can be scaled to a double: whole numbers, which are not scaled,
could be. -/
theorem exists_value_iff {power : Int} (h : n.Stands ds power) (hroom : ds.significand < 2 ^ 64)
    (negative : Bool) : (∃ amount, n.value negative = .ok amount) ↔
      ∃ f, Binary64.scaled? negative ds.significand (ds.shift + power) = some f := by
  cases h with
  | down size =>
    rw [value, if_pos rfl, Int.sub_eq_add_neg]
    exact exists_float_iff
  | up size => exact exists_float_iff
  | bare h =>
    rw [Int.add_zero]
    cases h with
    | zero =>
      refine iff_of_true ?_ (Binary64.exists_scaled?_zero negative 0)
      cases negative with
      | false => exact ⟨_, rfl⟩
      | true => exact exists_float_iff.mpr (Binary64.exists_scaled?_zero true 0)
    | fraction => exact exists_float_iff
    | whole hshift =>
      by_cases hfull : ds.full = true
      · rw [value, if_pos hfull]
        exact exists_float_iff
      · have hvacant : ds.full = false := by simpa using hfull
        rw [hshift hvacant]
        exact iff_of_true (exists_value_whole hvacant hroom negative)
          (Binary64.exists_scaled?_whole negative hroom)

end

end Numeral

namespace Json.NumeralText

variable {n : NumeralText}

theorem convertible_iff {m : Numeral} (h : Numeral.read .sign n.magnitudeChars = .ok m) :
    n.Convertible ↔ ∃ amount, m.value n.negative = .ok amount := by
  simp only [Convertible, number?, h]
  cases m.value n.negative with
  | error cause => simp [Except.toOption]
  | ok amount => simp [Except.toOption]

/-- A numeral is converted when its magnitude lies below `2 ^ 1024` by more than four times the distance
between the greatest doubles, and its exponent has 31 bits. -/
theorem convertible_of_lt (hpower : n.power ≤ 2147483647) (hx : n.magnitude < 2 ^ 1024 - 2 ^ 973) :
    n.Convertible := by
  rcases Numeral.read_magnitudeChars n with ⟨m, ds, hread, hstands, hkeep⟩ | ⟨_, hgreat⟩
  · rw [convertible_iff hread, Numeral.exists_value_iff hstands hkeep.fits]
    exact Binary64.exists_scaled?_of_lt n.negative hkeep.fits (hkeep.drift n.power) hx
  · have hlimit : (Numeral.greatestExponent : Int) = 2147483647 := rfl
    omega

/-- No numeral is converted whose magnitude lies above `2 ^ 1024` by four times this distance. -/
theorem lt_of_convertible (h : n.Convertible) : n.magnitude < 2 ^ 1024 + 2 ^ 973 := by
  by_contra hx
  rw [not_lt] at hx
  rcases Numeral.read_magnitudeChars n with ⟨m, ds, hread, hstands, hkeep⟩ | ⟨hover, _⟩
  · obtain ⟨f, hf⟩ := (Numeral.exists_value_iff hstands hkeep.fits n.negative).mp
      ((convertible_iff hread).mp h)
    have hnone := Binary64.scaled?_eq_none n.negative hkeep.fits (hkeep.drift n.power) hx
    cases hnone.symm.trans hf
  · obtain ⟨amount, hamount⟩ := h
    simp only [number?, hover] at hamount
    cases hamount

/-- The numeral `179769313486231571e291`, above the greatest double. -/
def aboveGreatest : NumeralText :=
  ⟨false, ⟨'1', "79769313486231571".toList, by simp⟩, nofun, none,
    some ⟨false, none, ⟨'2', ['9', '1'], by simp⟩⟩⟩

-- The greatest double, `2 ^ 1024 - 2 ^ 971`, lies between the bounds and is no bound itself.
example : aboveGreatest.number?.isSome = true := by decide +kernel

end Json.NumeralText

end MetricUpload
