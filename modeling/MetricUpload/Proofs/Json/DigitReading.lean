import MetricUpload.Proofs.Binary64.Spelling

namespace MetricUpload

namespace Numeral

theorem ofDigitChars_mono (cs : List Char) (n : Nat) : n ≤ Nat.ofDigitChars 10 cs n := by
  rw [Nat.ofDigitChars_eq_ofDigitChars_zero]
  have hpos : 0 < 10 ^ cs.length := Nat.pow_pos (by decide)
  have := Nat.le_mul_of_pos_left n hpos
  omega

theorem ofDigitChars_cons_ten (c : Char) (cs : List Char) (n : Nat) :
    Nat.ofDigitChars 10 (c :: cs) n = Nat.ofDigitChars 10 cs (n * 10 + (c.toNat - '0'.toNat)) := by
  rw [Nat.ofDigitChars_cons, Nat.mul_comm]

/-- Digits that have room are read as their number. -/
theorem read_whole {cs : List Char} (hdigits : ∀ c ∈ cs, c.isDigit = true) {n : Nat}
    (hroom : Nat.ofDigitChars 10 cs n < Digits.room) :
    read (.whole ⟨n, 0, false⟩) cs = .ok (.whole ⟨Nat.ofDigitChars 10 cs n, 0, false⟩) := by
  induction cs generalizing n with
  | nil => rfl
  | cons c cs ih =>
    rw [ofDigitChars_cons_ten] at hroom ⊢
    obtain ⟨hc, hcs⟩ := List.forall_mem_cons.mp hdigits
    have hfits : ¬Digits.room ≤ n * 10 + (c.toNat - '0'.toNat) := by
      have := ofDigitChars_mono cs (n * 10 + (c.toNat - '0'.toNat))
      omega
    have hnext : next (.whole ⟨n, 0, false⟩) c =
        .more (.whole ⟨n * 10 + (c.toNat - '0'.toNat), 0, false⟩) := by
      rw [next_whole _ hc]
      simp only [Digits.addWhole, Bool.false_or, decide_eq_true_eq, hfits, ↓reduceIte]
    rw [read, hnext]
    exact ih hcs hroom

theorem read_fraction {cs : List Char} (hdigits : ∀ c ∈ cs, c.isDigit = true) {n : Nat} (shift : Int)
    (hroom : Nat.ofDigitChars 10 cs n < Digits.room) :
    read (.fraction ⟨n, shift, false⟩) cs =
      .ok (.fraction ⟨Nat.ofDigitChars 10 cs n, shift - cs.length, false⟩) := by
  induction cs generalizing n shift with
  | nil =>
    rw [List.length_nil, Int.natCast_zero, Int.sub_zero]
    rfl
  | cons c cs ih =>
    rw [ofDigitChars_cons_ten] at hroom ⊢
    obtain ⟨hc, hcs⟩ := List.forall_mem_cons.mp hdigits
    have hfits : ¬Digits.room ≤ n * 10 + (c.toNat - '0'.toNat) := by
      have := ofDigitChars_mono cs (n * 10 + (c.toNat - '0'.toNat))
      omega
    have hnext : next (.fraction ⟨n, shift, false⟩) c =
        .more (.fraction ⟨n * 10 + (c.toNat - '0'.toNat), shift - 1, false⟩) := by
      rw [next_fraction _ hc]
      simp only [Digits.addFraction, Bool.false_or, decide_eq_true_eq, hfits, ↓reduceIte]
    have hshift : shift - ((c :: cs).length : Int) = shift - 1 - cs.length := by
      rw [List.length_cons]
      omega
    rw [read, hnext, hshift]
    exact ih hcs (shift - 1) hroom

/-- A point and digits behind it. -/
theorem read_point {c : Char} {cs : List Char} (hdigits : ∀ d ∈ c :: cs, d.isDigit = true) {n : Nat}
    (hroom : Nat.ofDigitChars 10 (c :: cs) n < Digits.room) :
    read (.whole ⟨n, 0, false⟩) ('.' :: c :: cs) =
      .ok (.fraction ⟨Nat.ofDigitChars 10 (c :: cs) n, -((c :: cs).length : Int), false⟩) := by
  have hfraction := read_fraction hdigits 0 hroom
  rw [Int.zero_sub] at hfraction
  rw [← hfraction]
  have hc := hdigits c List.mem_cons_self
  have hpoint : next (.whole ⟨n, 0, false⟩) '.' = .more (.point ⟨n, 0, false⟩) := rfl
  simp only [read, hpoint, next_point _ hc, next_fraction _ hc]

theorem read_zero_point {c : Char} {cs : List Char} (hdigits : ∀ d ∈ c :: cs, d.isDigit = true)
    (hroom : Nat.ofDigitChars 10 (c :: cs) 0 < Digits.room) :
    read .sign ('0' :: '.' :: c :: cs) =
      .ok (.fraction ⟨Nat.ofDigitChars 10 (c :: cs) 0, -((c :: cs).length : Int), false⟩) := by
  have hzero : next .sign '0' = .more .zero := rfl
  have hpoint : next .zero '.' = .more (.point .empty) := rfl
  have hc := hdigits c List.mem_cons_self
  have hfraction := read_fraction hdigits 0 hroom
  rw [Int.zero_sub] at hfraction
  rw [← hfraction]
  simp only [read, hzero, hpoint, next_point _ hc, next_fraction _ hc]
  rfl

/-- Digits in front of everything else, the first of them not zero. -/
theorem read_leading {cs : List Char} (h : Leading cs)
    (hroom : Nat.ofDigitChars 10 cs 0 < Digits.room) :
    read .sign cs = .ok (.whole ⟨Nat.ofDigitChars 10 cs 0, 0, false⟩) := by
  obtain ⟨hdigits, c, rest, rfl, hc⟩ := h
  obtain ⟨hfirst, hrest⟩ := List.forall_mem_cons.mp hdigits
  rw [ofDigitChars_cons_ten, Nat.zero_mul, Nat.zero_add] at hroom ⊢
  have hfits : ¬Digits.room ≤ c.toNat - '0'.toNat := by
    have := ofDigitChars_mono rest (c.toNat - '0'.toNat)
    omega
  have hnext : next .sign c = .more (.whole ⟨c.toNat - '0'.toNat, 0, false⟩) := by
    rw [next_sign hfirst hc]
    simp only [Digits.addWhole, Digits.empty, Nat.zero_mul, Nat.zero_add, Bool.false_or,
      decide_eq_true_eq, hfits, ↓reduceIte]
  rw [read, hnext]
  exact read_whole hrest hroom

/-- An exponent is read to its end, unless it raises the number and is out of range. -/
theorem read_exponentDigits {cs : List Char} (hdigits : ∀ c ∈ cs, c.isDigit = true) (ds : Digits)
    (down : Bool) (power : Nat) :
    read (.exponent ds down power) cs = .ok (.exponent ds down (Nat.ofDigitChars 10 cs power)) ∨
      read (.exponent ds down power) cs = .error .numberOutOfRange ∧ down = false ∧
        greatestExponent < Nat.ofDigitChars 10 cs power := by
  induction cs generalizing power with
  | nil => exact .inl rfl
  | cons c cs ih =>
    obtain ⟨hc, hcs⟩ := List.forall_mem_cons.mp hdigits
    rw [ofDigitChars_cons_ten]
    by_cases hover : greatestExponent < power * 10 + (c.toNat - '0'.toNat) ∧ down = false ∧
        ds.significand ≠ 0
    · have hnext : next (.exponent ds down power) c = .wrong .numberOutOfRange := by
        simp only [next, digit?_of_isDigit hc, addExponent, if_pos hover]
      have hmono := ofDigitChars_mono cs (power * 10 + (c.toNat - '0'.toNat))
      exact .inr ⟨by simp only [read, hnext], hover.2.1, by omega⟩
    · have hnext : next (.exponent ds down power) c =
          .more (.exponent ds down (power * 10 + (c.toNat - '0'.toNat))) := by
        simp only [next, digit?_of_isDigit hc, addExponent, if_neg hover]
      simp only [read, hnext]
      exact ih hcs _

theorem read_power {cs : List Char} (hdigits : ∀ c ∈ cs, c.isDigit = true) (ds : Digits) (down : Bool)
    {power : Nat} (hroom : Nat.ofDigitChars 10 cs power ≤ greatestExponent) :
    read (.exponent ds down power) cs = .ok (.exponent ds down (Nat.ofDigitChars 10 cs power)) := by
  rcases read_exponentDigits hdigits ds down power with hread | ⟨_, _, hover⟩
  · exact hread
  · omega

/-- A power of ten behind digits. -/
theorem read_exponent {n : Numeral} {ds : Digits} (hn : n = .whole ds ∨ n = .fraction ds) {power : Int}
    (hroom : power.natAbs ≤ greatestExponent) :
    read n ('e' :: (if power < 0 then '-' else '+') :: Nat.toDigits 10 power.natAbs) =
      .ok (.exponent ds (power < 0) power.natAbs) := by
  have hmark : next n 'e' = .more (.mark ds) := by
    rcases hn with rfl | rfl <;> rfl
  have hsign : next (.mark ds) (if power < 0 then '-' else '+') = .more (.markSign ds (power < 0)) := by
    by_cases hdown : power < 0
    · simp only [hdown, ↓reduceIte, decide_true]
      rfl
    · simp only [hdown, ↓reduceIte, decide_false]
      rfl
  have hdigits : ∀ c ∈ Nat.toDigits 10 power.natAbs, c.isDigit = true :=
    fun c hc => Nat.isDigit_of_mem_toDigits (by decide) (by decide) hc
  have hvalue : Nat.ofDigitChars 10 (Nat.toDigits 10 power.natAbs) 0 = power.natAbs :=
    Nat.ofDigitChars_toDigits (by decide) (by decide)
  have hroom' : Nat.ofDigitChars 10 (Nat.toDigits 10 power.natAbs) 0 ≤ greatestExponent := by
    rw [hvalue]
    exact hroom
  have hpower := read_power hdigits ds (decide (power < 0)) hroom'
  rw [hvalue] at hpower
  obtain ⟨c, cs, hcs⟩ : ∃ c cs, Nat.toDigits 10 power.natAbs = c :: cs :=
    List.exists_cons_of_ne_nil Nat.toDigits_ne_nil
  rw [hcs] at hdigits hpower ⊢
  have hc := digit?_of_isDigit (hdigits c List.mem_cons_self)
  rw [read, hmark]
  simp only [read, hsign]
  rw [← hpower]
  simp only [read, next, hc]

/-- The text is read as this whole number and this power of ten, whatever the sign. -/
def ReadsAs (text : List Char) (significand : Nat) (power : Int) : Prop :=
  ∃ n, read .sign text = .ok n ∧ ∀ negative, n.value negative = float negative significand power

section

variable {digits : List Char} {m : Nat} {power : Int}

theorem readsAs_scientific (h : Leading digits) (hm : Nat.ofDigitChars 10 digits 0 = m)
    (hroom : m < Digits.room) (hpower : power.natAbs ≤ greatestExponent) :
    ReadsAs (Binary64.scientific digits power) m (power - (digits.length - 1)) := by
  subst hm
  -- The digits are read up to the mark, and the power of ten is added to theirs.
  have hread : ∀ {text : List Char} {n : Numeral} {ds : Digits}, read .sign text = .ok n →
      n = .whole ds ∨ n = .fraction ds → ds.significand = Nat.ofDigitChars 10 digits 0 →
      ds.shift = -((digits.length : Int) - 1) →
      ReadsAs (text ++ 'e' :: (if power < 0 then '-' else '+') :: Nat.toDigits 10 power.natAbs)
        (Nat.ofDigitChars 10 digits 0) (power - (digits.length - 1)) := by
    intro text n ds htext hn hvalue hshift
    refine ⟨.exponent ds (power < 0) power.natAbs, ?_, ?_⟩
    · rw [read_append, htext]
      exact read_exponent hn hpower
    · intro negative
      simp only [value, hvalue, hshift]
      congr 1
      by_cases hdown : power < 0
      · simp only [hdown, decide_true, ↓reduceIte]
        omega
      · simp only [hdown, decide_false, Bool.false_eq_true, ↓reduceIte]
        omega
  obtain ⟨hdigits, c, cs, rfl, hc⟩ := h
  have hfirst : Leading [c] := ⟨fun d hd => hdigits d (by simp_all), c, [], rfl, hc⟩
  have hhead : Nat.ofDigitChars 10 [c] 0 < Digits.room := by
    exact Nat.lt_of_le_of_lt (ofDigitChars_mono cs (Nat.ofDigitChars 10 [c] 0)) hroom
  cases cs with
  | nil => exact hread (read_leading hfirst hhead) (.inl rfl) rfl rfl
  | cons d ds =>
    have hmore : ∀ e ∈ d :: ds, e.isDigit = true := fun e he => hdigits e (List.mem_cons_of_mem c he)
    have hpoint := read_point hmore (n := Nat.ofDigitChars 10 [c] 0) hroom
    have htext : read .sign ([c] ++ '.' :: d :: ds) = .ok (.fraction
        ⟨Nat.ofDigitChars 10 (c :: d :: ds) 0, -((d :: ds).length : Int), false⟩) := by
      rw [read_append, read_leading hfirst hhead]
      exact hpoint
    refine hread htext (.inr rfl) rfl ?_
    simp only [List.length_cons]
    omega

/-- Digits on both sides of a point. -/
theorem readsAs_pointed {whole fraction : List Char} (hwhole : whole = ['0'] ∨ Leading whole)
    (hfraction : ∀ c ∈ fraction, c.isDigit = true) (hne : fraction ≠ [])
    (hroom : Nat.ofDigitChars 10 (whole ++ fraction) 0 < Digits.room) :
    ReadsAs (whole ++ '.' :: fraction) (Nat.ofDigitChars 10 (whole ++ fraction) 0)
      (-(fraction.length : Int)) := by
  obtain ⟨c, cs, rfl⟩ := List.exists_cons_of_ne_nil hne
  rcases hwhole with rfl | hleading
  · exact ⟨_, read_zero_point hfraction hroom, fun _ => rfl⟩
  · rw [Nat.ofDigitChars_append] at hroom ⊢
    have hhead : Nat.ofDigitChars 10 whole 0 < Digits.room :=
      Nat.lt_of_le_of_lt (ofDigitChars_mono (c :: cs) _) hroom
    have hread : read .sign (whole ++ '.' :: c :: cs) = .ok (.fraction
        ⟨Nat.ofDigitChars 10 (c :: cs) (Nat.ofDigitChars 10 whole 0), -((c :: cs).length : Int),
          false⟩) := by
      rw [read_append, read_leading hleading hhead]
      exact read_point hfraction hroom
    exact ⟨_, hread, fun _ => rfl⟩

/-- Some digits stand behind the point. -/
theorem readsAs_positional_fraction (h : Leading digits) (hm : Nat.ofDigitChars 10 digits 0 = m)
    (hroom : m < Digits.room) (hscale : power - (digits.length - 1) < 0) :
    ReadsAs (Binary64.positional digits power) m (power - (digits.length - 1)) := by
  subst hm
  obtain ⟨hdigits, c, cs, hcs, hc⟩ := h
  unfold Binary64.positional
  split
  next hbelow =>
    have hfraction : ∀ e ∈ List.replicate (power.natAbs - 1) '0' ++ digits, e.isDigit = true :=
      List.forall_mem_append.mpr ⟨Json.isDigit_replicate _, hdigits⟩
    have hne : List.replicate (power.natAbs - 1) '0' ++ digits ≠ [] := by
      rw [hcs]
      exact List.append_ne_nil_of_right_ne_nil _ (List.cons_ne_nil c cs)
    have hvalue : Nat.ofDigitChars 10 (['0'] ++ (List.replicate (power.natAbs - 1) '0' ++ digits)) 0 =
        Nat.ofDigitChars 10 digits 0 := by
      rw [Nat.ofDigitChars_append, Nat.ofDigitChars_append, Nat.ofDigitChars_replicate_zero]
      rfl
    have hpoint := readsAs_pointed (.inl rfl) hfraction hne (by rw [hvalue]; exact hroom)
    rw [hvalue, List.length_append, List.length_replicate] at hpoint
    have hscale' : -((power.natAbs - 1 + digits.length : Nat) : Int) = power - (digits.length - 1) := by
      omega
    rwa [hscale'] at hpoint
  next habove =>
    have hshort : power.toNat + 1 < digits.length := by omega
    have hwhole : Leading (digits.take (power.toNat + 1)) := by
      refine ⟨fun e he => hdigits e (List.mem_of_mem_take he), c, cs.take power.toNat, ?_, hc⟩
      rw [hcs, List.take_succ_cons]
    have hne : digits.drop (power.toNat + 1) ≠ [] := by
      intro hnil
      rw [List.drop_eq_nil_iff] at hnil
      omega
    have hsplit := List.take_append_drop (power.toNat + 1) digits
    have hpoint := readsAs_pointed (.inr hwhole) (fun e he => hdigits e (List.mem_of_mem_drop he)) hne
      (by rw [hsplit]; exact hroom)
    rw [hsplit, List.length_drop] at hpoint
    have hscale' : -((digits.length - (power.toNat + 1) : Nat) : Int) =
        power - (digits.length - 1) := by
      omega
    rw [hscale'] at hpoint
    simp only [hshort, ↓reduceIte]
    exact hpoint

/-- Nothing but a zero stands behind the point, and it counts as a digit. -/
theorem readsAs_positional_whole (h : Leading digits) (hm : Nat.ofDigitChars 10 digits 0 = m)
    (hscale : 0 ≤ power - (digits.length - 1))
    (hroom : m * 10 ^ ((power - (digits.length - 1)).toNat + 1) < Digits.room) :
    ReadsAs (Binary64.positional digits power)
      (m * 10 ^ ((power - (digits.length - 1)).toNat + 1)) (-1) := by
  subst hm
  obtain ⟨hdigits, c, cs, hcs, hc⟩ := h
  have hlength : 0 < digits.length := by
    rw [hcs]
    exact Nat.succ_pos _
  have habove : ¬power < 0 := by omega
  have hlong : ¬power.toNat + 1 < digits.length := by omega
  have hzeros : power.toNat + 1 - digits.length = (power - (digits.length - 1)).toNat := by omega
  generalize (power - (digits.length - 1)).toNat = zeros at hzeros hroom
  have hwhole : Leading (digits ++ List.replicate zeros '0') := by
    refine ⟨List.forall_mem_append.mpr ⟨hdigits, Json.isDigit_replicate _⟩, c,
      cs ++ List.replicate zeros '0', ?_, hc⟩
    rw [hcs, List.cons_append]
  have hvalue : Nat.ofDigitChars 10 (digits ++ List.replicate zeros '0' ++ ['0']) 0 =
      Nat.ofDigitChars 10 digits 0 * 10 ^ (zeros + 1) := by
    have hlast : digits ++ List.replicate zeros '0' ++ ['0'] =
        digits ++ List.replicate (zeros + 1) '0' := by
      rw [List.append_assoc, ← List.replicate_succ']
    rw [hlast, Nat.ofDigitChars_append, Nat.ofDigitChars_replicate_zero, Nat.mul_comm]
  have hlast : ∀ e ∈ ['0'], e.isDigit = true := by simp
  have hpoint := readsAs_pointed (.inr hwhole) hlast (by decide) (by rw [hvalue]; exact hroom)
  rw [hvalue] at hpoint
  simp only [Binary64.positional, habove, hlong, ↓reduceIte, hzeros]
  have htext : digits ++ List.replicate zeros '0' ++ ['.', '0'] =
      digits ++ List.replicate zeros '0' ++ '.' :: ['0'] := rfl
  rw [htext]
  exact hpoint

end

end Numeral

end MetricUpload
