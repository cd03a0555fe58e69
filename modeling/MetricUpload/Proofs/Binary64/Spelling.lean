import MetricUpload.Binary64.Text
import MetricUpload.Proofs.Binary64.Shortest
import MetricUpload.Proofs.Json.CompactNumeral

namespace MetricUpload

namespace Binary64

/-- The digits of the shortest decimal, as a whole number that ends in no zero. -/
def digits (f : Binary64) : Nat := (stripZeros 17 f.shortest.1).1

/-- The power of ten that the digits are counted in. -/
def scale (f : Binary64) : Int := f.shortest.2 + (stripZeros 17 f.shortest.1).2

/-- The power of ten of the first digit. -/
def power (f : Binary64) : Int := f.scale + ((Nat.toDigits 10 f.digits).length - 1)

/-- The text of a double without the sign. -/
def magnitudeChars (f : Binary64) : List Char :=
  if f.isZero then ['0', '.', '0']
  else if -5 ≤ f.power ∧ f.power ≤ 15 then positional (Nat.toDigits 10 f.digits) f.power
  else scientific (Nat.toDigits 10 f.digits) f.power

theorem chars_eq (f : Binary64) :
    f.chars = if f.negative then '-' :: f.magnitudeChars else f.magnitudeChars := by
  unfold chars magnitudeChars power scale digits
  obtain ⟨n, grid⟩ := f.shortest
  dsimp only

end Binary64

theorem stripZeros_mul (steps n : Nat) :
    (stripZeros steps n).1 * 10 ^ (stripZeros steps n).2 = n := by
  induction steps generalizing n with
  | zero => exact Nat.mul_one n
  | succ steps ih =>
    simp only [stripZeros]
    split
    next hzero =>
      have hrest := ih (n / 10)
      rw [Nat.pow_succ, ← Nat.mul_assoc, hrest]
      omega
    next => exact Nat.mul_one n

theorem stripZeros_pos (steps : Nat) {n : Nat} (h : 0 < n) : 0 < (stripZeros steps n).1 := by
  refine Nat.pos_of_ne_zero fun hzero => ?_
  have hn := stripZeros_mul steps n
  rw [hzero, Nat.zero_mul] at hn
  omega

theorem Binary64.digits_pos {f : Binary64} (h : f.isZero = false) : 0 < f.digits :=
  stripZeros_pos 17 (shortest_pos h)

/-- Digits of which the first is not zero. -/
def Leading (digits : List Char) : Prop :=
  (∀ c ∈ digits, c.isDigit = true) ∧ ∃ first rest, digits = first :: rest ∧ first ≠ '0'

theorem leading_toDigits {n : Nat} (h : 0 < n) : Leading (Nat.toDigits 10 n) :=
  ⟨fun _ hc => Nat.isDigit_of_mem_toDigits (by decide) (by decide) hc, Json.toDigits_head h⟩

namespace Json

/-- The magnitude of a numeral. -/
def IsMagnitude (text : List Char) : Prop :=
  ∀ negative, ∃ n : NumeralText, n.negative = negative ∧ n.magnitudeChars = text

theorem isMagnitude_pointed (whole fraction : List Char) (hfirst : whole = ['0'] ∨ Leading whole)
    (hfraction : ∀ c ∈ fraction, c.isDigit = true) (hne : fraction ≠ []) :
    IsMagnitude (whole ++ '.' :: fraction) := by
  intro negative
  obtain ⟨d, ds, rfl⟩ := List.exists_cons_of_ne_nil hne
  rcases hfirst with rfl | ⟨hwhole, c, cs, rfl, hc⟩
  · refine ⟨⟨negative, ⟨'0', [], by simp⟩, fun _ => rfl, some ⟨d, ds, hfraction⟩, none⟩, rfl, ?_⟩
    simp [NumeralText.magnitudeChars, NumeralText.fractionChars, NumeralText.exponentChars,
      DigitRun.chars]
  · refine ⟨⟨negative, ⟨c, cs, hwhole⟩, fun h => absurd h hc, some ⟨d, ds, hfraction⟩, none⟩, rfl, ?_⟩
    simp [NumeralText.magnitudeChars, NumeralText.fractionChars, NumeralText.exponentChars,
      DigitRun.chars]

theorem isDigit_replicate (count : Nat) : ∀ c ∈ List.replicate count '0', c.isDigit = true := by
  intro c hc
  rw [List.eq_of_mem_replicate hc]
  rfl

theorem isMagnitude_positional {digits : List Char} (h : Leading digits) (power : Int) :
    IsMagnitude (Binary64.positional digits power) := by
  obtain ⟨hdigits, c, cs, hcs, hc⟩ := h
  have hne : digits ≠ [] := by
    rw [hcs]
    exact List.cons_ne_nil c cs
  unfold Binary64.positional
  split
  · have hfraction : ∀ e ∈ List.replicate (power.natAbs - 1) '0' ++ digits, e.isDigit = true :=
      List.forall_mem_append.mpr ⟨isDigit_replicate _, hdigits⟩
    exact isMagnitude_pointed ['0'] _ (.inl rfl) hfraction
      (List.append_ne_nil_of_right_ne_nil _ hne)
  · dsimp only
    split
    next hshort =>
      have htake : Leading (digits.take (power.toNat + 1)) := by
        refine ⟨fun e he => hdigits e (List.mem_of_mem_take he), c, cs.take power.toNat, ?_, hc⟩
        rw [hcs, List.take_succ_cons]
      refine isMagnitude_pointed _ _ (.inr htake)
        (fun e he => hdigits e (List.mem_of_mem_drop he)) ?_
      intro hnil
      rw [List.drop_eq_nil_iff] at hnil
      omega
    next =>
      have hpadded : Leading (digits ++ List.replicate (power.toNat + 1 - digits.length) '0') := by
        refine ⟨List.forall_mem_append.mpr ⟨hdigits, isDigit_replicate _⟩, c,
          cs ++ List.replicate (power.toNat + 1 - digits.length) '0', ?_, hc⟩
        rw [hcs, List.cons_append]
      exact isMagnitude_pointed _ ['0'] (.inr hpadded) (by simp) (List.cons_ne_nil '0' [])

theorem isMagnitude_scientific {digits : List Char} (h : Leading digits) (power : Int) :
    IsMagnitude (Binary64.scientific digits power) := by
  intro negative
  obtain ⟨hdigits, c, cs, rfl, hc⟩ := h
  obtain ⟨run, hrun, _⟩ := exists_digitRun power.natAbs
  let exponent : ExponentPart := ⟨false, some (decide (power < 0)), run⟩
  have hexponent : exponent.chars =
      'e' :: (if power < 0 then '-' else '+') :: Nat.toDigits 10 power.natAbs := by
    by_cases hdown : power < 0 <;>
      simp [exponent, ExponentPart.chars, ExponentPart.mark, ExponentPart.signChars, hdown, hrun]
  have hfirst : ∀ e ∈ [c], e.isDigit = true := fun e he => hdigits e (by simp_all)
  cases cs with
  | nil =>
    refine ⟨⟨negative, ⟨c, [], hfirst⟩, fun _ => rfl, none, some exponent⟩, rfl, ?_⟩
    simp [Binary64.scientific, NumeralText.magnitudeChars, NumeralText.fractionChars,
      NumeralText.exponentChars, DigitRun.chars, hexponent]
  | cons d ds =>
    have hrest : ∀ e ∈ d :: ds, e.isDigit = true := fun e he => hdigits e (List.mem_cons_of_mem c he)
    refine ⟨⟨negative, ⟨c, [], hfirst⟩, fun _ => rfl, some ⟨d, ds, hrest⟩, some exponent⟩, rfl, ?_⟩
    simp [Binary64.scientific, NumeralText.magnitudeChars, NumeralText.fractionChars,
      NumeralText.exponentChars, DigitRun.chars, hexponent]

theorem isMagnitude_magnitudeChars (f : Binary64) : IsMagnitude f.magnitudeChars := by
  unfold Binary64.magnitudeChars
  by_cases hzero : f.isZero = true
  · simp only [hzero, ↓reduceIte]
    exact isMagnitude_pointed ['0'] ['0'] (.inl rfl) (by simp) (List.cons_ne_nil '0' [])
  · have hdigits := leading_toDigits (Binary64.digits_pos (Bool.not_eq_true _ ▸ hzero))
    simp only [hzero, Bool.false_eq_true, ↓reduceIte]
    split
    · exact isMagnitude_positional hdigits _
    · exact isMagnitude_scientific hdigits _

/-- A double is written as a numeral. -/
theorem exists_numeralText_of_float (f : Binary64) :
    ∃ n : NumeralText, n.negative = f.negative ∧ n.chars = f.chars ∧
      n.magnitudeChars = f.magnitudeChars := by
  obtain ⟨n, hsign, hn⟩ := isMagnitude_magnitudeChars f f.negative
  exact ⟨n, hsign, by rw [f.chars_eq, NumeralText.chars, hsign, hn], hn⟩

/-- Every number is written as a numeral. -/
theorem exists_numeralText_of_number (n : Number) : ∃ t : NumeralText, t.chars = n.chars := by
  cases n with
  | float f =>
    obtain ⟨t, _, ht, _⟩ := exists_numeralText_of_float f
    exact ⟨t, ht⟩
  | int i =>
    cases i with
    | ofNat n =>
      obtain ⟨run, hrun, hz⟩ := exists_digitRun n
      exact ⟨.integer false run hz, NumeralText.integer_magnitudeChars.trans hrun⟩
    | negSucc n =>
      obtain ⟨run, hrun, hz⟩ := exists_digitRun (n + 1)
      have hchars : (NumeralText.integer true run hz).magnitudeChars = Nat.toDigits 10 (n + 1) :=
        NumeralText.integer_magnitudeChars.trans hrun
      exact ⟨.integer true run hz, congrArg ('-' :: ·) hchars⟩

end Json

end MetricUpload
