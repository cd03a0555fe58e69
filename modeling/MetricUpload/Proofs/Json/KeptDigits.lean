import MetricUpload.Proofs.Json.DigitReading

namespace MetricUpload

namespace Digits

/-- What is kept of digits that make the number `n`, so many of them behind the point. It is all of
them, or it begins with the same digits as they do, and these fill the room. -/
inductive Keep (ds : Digits) (n places : Nat) : Prop
  | all (fits : ds.significand < room) (vacant : ds.full = false) (shift : ds.shift = -(places : Int))
      (same : ds.significand = n)
  | most (fits : ds.significand < room) (dropped later : Nat) (shift : ds.shift = (dropped : Int) - places)
      (same : n / 10 ^ (dropped + later) = ds.significand / 10 ^ later)
      (long : room ≤ ds.significand / 10 ^ later * 10 + 9)

theorem div_pow_succ {d : Nat} (hd : d < 10) (n k : Nat) :
    (n * 10 + d) / 10 ^ (k + 1) = n / 10 ^ k := by
  have hlast : (n * 10 + d) / 10 = n := by omega
  rw [Nat.pow_succ', ← Nat.div_div_eq_div_mul, hlast]

section

variable {ds : Digits} {n places places' d : Nat} {shift : Int}

theorem Keep.fits (h : ds.Keep n places) : ds.significand < room := by
  cases h with
  | all fits => exact fits
  | most fits => exact fits

theorem Keep.append (h : ds.Keep n places) (hd : d < 10) (fits : ds.significand * 10 + d < room)
    (hshift : shift + places' = ds.shift + places) :
    Keep ⟨ds.significand * 10 + d, shift, false⟩ (n * 10 + d) places' := by
  cases h with
  | all _ _ hall same => exact .all fits rfl (by simp only; omega) (by simp only [same])
  | most _ dropped later hdropped same long =>
    refine .most fits dropped (later + 1) (by simp only; omega) ?_ ?_
    · rw [← Nat.add_assoc, div_pow_succ hd, div_pow_succ hd, same]
    · rw [div_pow_succ hd]
      exact long

theorem Keep.drop (h : ds.Keep n places) (hd : d < 10)
    (hfull : ds.full = true ∨ room ≤ ds.significand * 10 + d)
    (hshift : shift + places' = ds.shift + places + 1) :
    Keep ⟨ds.significand, shift, true⟩ (n * 10 + d) places' := by
  cases h with
  | all fits vacant hall same =>
    have hover : room ≤ ds.significand * 10 + d := by simpa [vacant] using hfull
    refine .most fits 1 0 (by simp only; omega) ?_ ?_
    · rw [div_pow_succ hd, same]
    · rw [Nat.pow_zero, Nat.div_one]
      show room ≤ ds.significand * 10 + 9
      omega
  | most fits dropped later hdropped same long =>
    refine .most fits (dropped + 1) later (by simp only; omega) ?_ long
    rw [Nat.add_right_comm, div_pow_succ hd, same]

theorem Keep.addWhole (h : ds.Keep n places) (hd : d < 10) :
    (ds.addWhole d).Keep (n * 10 + d) places := by
  unfold Digits.addWhole
  split
  next hfull => exact h.drop hd (by simpa using hfull) (by omega)
  next hvacant =>
    simp only [Bool.or_eq_true, decide_eq_true_eq, not_or, Bool.not_eq_true, not_le] at hvacant
    rw [hvacant.1]
    exact h.append hd hvacant.2 rfl

theorem Keep.addFraction (h : ds.Keep n places) (hd : d < 10) :
    (ds.addFraction d).Keep (n * 10 + d) (places + 1) := by
  unfold Digits.addFraction
  split
  next hfull => exact h.drop hd (by simpa using hfull) (by omega)
  next hvacant =>
    simp only [Bool.or_eq_true, decide_eq_true_eq, not_or, Bool.not_eq_true, not_le] at hvacant
    rw [hvacant.1]
    exact h.append hd hvacant.2 (by omega)

theorem Keep.enterFraction (h : ds.Keep n places) : ds.enterFraction.Keep n places := by
  cases h with
  | all fits _ shift same => exact .all fits rfl shift same
  | most fits dropped later shift same long => exact .most fits dropped later shift same long

theorem keep_empty : empty.Keep 0 0 := .all (by decide) rfl rfl rfl

/-- Before the point a place is counted only for a digit that is dropped. -/
theorem shift_addWhole (h : ds.full = false → ds.shift = 0) (d : Nat) :
    (ds.addWhole d).full = false → (ds.addWhole d).shift = 0 := by
  unfold Digits.addWhole
  split
  next => exact nofun
  next => exact fun hfull => h hfull

end

end Digits

namespace Numeral

/-- The digits read so far of a numeral that may end here or go on with an exponent. -/
inductive HasDigits : Numeral → Digits → Prop
  | zero : HasDigits .zero .empty
  | whole {ds : Digits} (h : ds.full = false → ds.shift = 0) : HasDigits (.whole ds) ds
  | fraction (ds : Digits) : HasDigits (.fraction ds) ds

section

variable {ds : Digits} {n places : Nat} {cs : List Char}

theorem digit_lt {c : Char} (h : c.isDigit = true) : c.toNat - '0'.toNat < 10 := by
  simp only [Char.isDigit, Bool.and_eq_true, decide_eq_true_eq] at h
  have hnine : c.toNat ≤ 57 := h.2
  have hzero : '0'.toNat = 48 := rfl
  omega

theorem read_wholeDigits (hdigits : ∀ c ∈ cs, c.isDigit = true) (hkeep : ds.Keep n 0)
    (hshift : ds.full = false → ds.shift = 0) :
    ∃ ds', read (.whole ds) cs = .ok (.whole ds') ∧ (ds'.full = false → ds'.shift = 0) ∧
      ds'.Keep (Nat.ofDigitChars 10 cs n) 0 := by
  induction cs generalizing ds n with
  | nil => exact ⟨ds, rfl, hshift, hkeep⟩
  | cons c cs ih =>
    obtain ⟨hc, hcs⟩ := List.forall_mem_cons.mp hdigits
    rw [ofDigitChars_cons_ten]
    simp only [read, next_whole ds hc]
    exact ih hcs (hkeep.addWhole (digit_lt hc)) (Digits.shift_addWhole hshift _)

theorem read_fractionDigits (hdigits : ∀ c ∈ cs, c.isDigit = true) (hkeep : ds.Keep n places) :
    ∃ ds', read (.fraction ds) cs = .ok (.fraction ds') ∧
      ds'.Keep (Nat.ofDigitChars 10 cs n) (places + cs.length) := by
  induction cs generalizing ds n places with
  | nil => exact ⟨ds, rfl, hkeep⟩
  | cons c cs ih =>
    obtain ⟨hc, hcs⟩ := List.forall_mem_cons.mp hdigits
    rw [ofDigitChars_cons_ten]
    simp only [read, next_fraction ds hc, List.length_cons, Nat.add_comm cs.length, ← Nat.add_assoc]
    exact ih hcs (hkeep.addFraction (digit_lt hc))

end

end Numeral

end MetricUpload
