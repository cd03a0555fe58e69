import MetricUpload.Json.Writer
import MetricUpload.Proofs.Json.NumeralReading
import MetricUpload.Proofs.Json.Shape

namespace MetricUpload

namespace Numeral

theorem next_sign_digitChar {d : Nat} (hd : d < 10) (hp : 0 < d) :
    next .sign d.digitChar = .more (.whole ⟨d, 0, false⟩) := by
  have hdigit : d.digitChar.isDigit = true := by simpa [Nat.isDigit_digitChar] using hd
  have hzero : d.digitChar ≠ '0' := by
    intro he
    have := Nat.digitChar_eq_zero.mp he
    omega
  have hval : d.digitChar.toNat - '0'.toNat = d := Nat.toNat_digitChar_sub_48_of_lt_ten hd
  have hroom : ¬Digits.room ≤ d := by
    have : Digits.room = 18446744073709551616 := rfl
    omega
  rw [next_sign hdigit hzero, hval]
  simp [Digits.addWhole, Digits.empty, hroom]

theorem next_whole_digitChar {n d : Nat} (hd : d < 10) (h : n * 10 + d < Digits.room) :
    next (.whole ⟨n, 0, false⟩) d.digitChar = .more (.whole ⟨n * 10 + d, 0, false⟩) := by
  have hdigit : d.digitChar.isDigit = true := by simpa [Nat.isDigit_digitChar] using hd
  have hval : d.digitChar.toNat - '0'.toNat = d := Nat.toNat_digitChar_sub_48_of_lt_ten hd
  have hroom : ¬Digits.room ≤ n * 10 + d := by omega
  rw [next_whole _ hdigit, hval]
  simp [Digits.addWhole, hroom]

/-- The digits of a number that has room are read as that number. -/
theorem read_toDigits (n : Nat) (hp : 0 < n) (hroom : n < Digits.room) :
    read .sign (Nat.toDigits 10 n) = .ok (.whole ⟨n, 0, false⟩) := by
  induction n using Nat.strongRecOn with
  | ind n ih =>
    by_cases hn : n < 10
    · rw [Nat.toDigits_of_lt_base hn]
      simp only [read, next_sign_digitChar hn hp]
    · have hlower := ih (n / 10) (by omega) (by omega) (by omega)
      have hlast := next_whole_digitChar (n := n / 10) (d := n % 10) (by omega) (by omega)
      have hsum : n / 10 * 10 + n % 10 = n := by omega
      rw [Nat.toDigits_of_base_le (by decide) (by omega), read_append, hlower]
      simp only [Except.bind, read, hlast, hsum]

end Numeral

namespace Json

theorem toDigits_head {n : Nat} (h : 0 < n) : ∃ c cs, Nat.toDigits 10 n = c :: cs ∧ c ≠ '0' := by
  induction n using Nat.strongRecOn with
  | ind n ih =>
    by_cases hn : n < 10
    · refine ⟨n.digitChar, [], Nat.toDigits_of_lt_base hn, ?_⟩
      intro he
      have := Nat.digitChar_eq_zero.mp he
      omega
    · obtain ⟨c, cs, hc, hz⟩ := ih (n / 10) (by omega) (by omega)
      refine ⟨c, cs ++ [(n % 10).digitChar], ?_, hz⟩
      rw [Nat.toDigits_of_base_le (by decide) (by omega), hc, List.cons_append]

theorem exists_digitRun (n : Nat) : ∃ run : DigitRun,
    run.chars = Nat.toDigits 10 n ∧ (run.first = '0' → run.more = []) := by
  have hdigits : ∀ c ∈ Nat.toDigits 10 n, c.isDigit = true :=
    fun c hc => Nat.isDigit_of_mem_toDigits (by decide) (by decide) hc
  rcases Nat.eq_zero_or_pos n with rfl | hp
  · exact ⟨⟨'0', [], by simp⟩, by simp [DigitRun.chars], fun _ => rfl⟩
  · obtain ⟨c, cs, hc, hz⟩ := toDigits_head hp
    exact ⟨⟨c, cs, hc ▸ hdigits⟩, hc.symm, fun he => absurd he hz⟩

def NumeralText.integer (negative : Bool) (run : DigitRun)
    (hz : run.first = '0' → run.more = []) : NumeralText :=
  ⟨negative, run, hz, none, none⟩

theorem NumeralText.integer_magnitudeChars {negative : Bool} {run : DigitRun}
    {hz : run.first = '0' → run.more = []} :
    (integer negative run hz).magnitudeChars = run.chars := by
  simp [integer, magnitudeChars, fractionChars, exponentChars]

/-- A whole number in range is written as a numeral of that value. -/
theorem exists_numeralText {i : Int} (h : (Number.int i).InRange) :
    ∃ n : NumeralText, n.chars = Number.intChars i ∧ n.number? = some (.int i) := by
  have hroom : Digits.room = 18446744073709551616 := rfl
  have hdeep : Numeral.deepest = 9223372036854775808 := rfl
  obtain ⟨hlow, hhigh⟩ := Number.inRange_int_iff.mp h
  cases i with
  | ofNat n =>
    obtain ⟨run, hrun, hz⟩ := exists_digitRun n
    have hchars : (NumeralText.integer false run hz).magnitudeChars = Nat.toDigits 10 n :=
      NumeralText.integer_magnitudeChars.trans hrun
    refine ⟨.integer false run hz, hchars, ?_⟩
    rcases Nat.eq_zero_or_pos n with rfl | hp
    · simp only [NumeralText.number?, hchars, Nat.toDigits_zero]
      rfl
    · have hn : n < Digits.room := by
        simp only [Int.ofNat_eq_natCast] at hhigh
        omega
      simp only [NumeralText.number?, hchars, Numeral.read_toDigits n hp hn]
      rfl
  | negSucc n =>
    obtain ⟨run, hrun, hz⟩ := exists_digitRun (n + 1)
    have hchars : (NumeralText.integer true run hz).magnitudeChars = Nat.toDigits 10 (n + 1) :=
      NumeralText.integer_magnitudeChars.trans hrun
    have hn : n + 1 ≤ Numeral.deepest := by omega
    have hread := Numeral.read_toDigits (n + 1) (by omega) (by omega)
    refine ⟨.integer true run hz, congrArg ('-' :: ·) hchars, ?_⟩
    simp only [NumeralText.number?, hchars, hread]
    simp [NumeralText.integer, Numeral.value, hn, Except.toOption, Int.negSucc_eq]

end Json

end MetricUpload
