import MetricUpload.Proofs.Json.Conclusion
import MetricUpload.Proofs.Json.Syntax

namespace MetricUpload

namespace Numeral

/-- A numeral that may end here. -/
def Complete : Numeral → Prop
  | .zero | .whole _ | .fraction _ | .exponent _ _ _ => True
  | .sign | .point _ | .mark _ | .markSign _ _ => False

/-- A text with which no numeral goes on. -/
def Follows (rest : List Char) : Prop :=
  ∀ c ∈ rest.head?, digit? c = none ∧ (c == '.') = false ∧ isMark c = false

theorem follows_nil : Follows [] := by simp [Follows]

theorem follows_cons {c : Char} (h : digit? c = none ∧ (c == '.') = false ∧ isMark c = false)
    (rest : List Char) : Follows (c :: rest) := by
  intro d hd
  cases Option.some.inj hd
  exact h

theorem next_over {n : Numeral} (hn : n.Complete) {c : Char}
    (h : digit? c = none ∧ (c == '.') = false ∧ isMark c = false) : n.next c = .over := by
  obtain ⟨hd, hp, hm⟩ := h
  cases n <;> simp_all [Complete, next]

theorem float_error {negative : Bool} {significand : Nat} {power : Int} {cause : Json.Cause}
    (h : float negative significand power = .error cause) : cause = .numberOutOfRange := by
  unfold float at h
  split at h
  · cases h
  · cases h
    rfl

theorem value_error {n : Numeral} (hn : n.Complete) {negative : Bool} {cause : Json.Cause}
    (h : n.value negative = .error cause) : cause = .numberOutOfRange := by
  cases n with
  | zero =>
    simp only [value] at h
    split at h
    · exact float_error h
    · cases h
  | whole ds =>
    simp only [value] at h
    split at h
    · exact float_error h
    · split at h
      · cases h
      · split at h
        · cases h
        · exact float_error h
  | fraction ds => exact float_error h
  | exponent ds down power => exact float_error h
  | sign | point | mark | markSign => exact hn.elim

theorem read_append (n : Numeral) (xs ys : List Char) :
    n.read (xs ++ ys) = (n.read xs).bind fun m => m.read ys := by
  induction xs generalizing n with
  | nil => rfl
  | cons c cs ih =>
    cases h : n.next c with
    | more m => simpa only [List.cons_append, read, h] using ih m
    | _ => simp only [List.cons_append, read, h, Except.bind]

/-- Reading these characters leads to such a numeral, or to a written exponent that is out of
range. -/
def Reaches (P : Numeral → Prop) (n : Numeral) (cs : List Char) : Prop :=
  (∃ m, n.read cs = .ok m ∧ P m) ∨ n.read cs = .error .numberOutOfRange

theorem Reaches.append {P Q : Numeral → Prop} {n : Numeral} {xs ys : List Char}
    (hx : Reaches P n xs) (hy : ∀ m, P m → Reaches Q m ys) : Reaches Q n (xs ++ ys) := by
  unfold Reaches
  rw [read_append]
  rcases hx with ⟨m, hm, hp⟩ | he
  · rw [hm]
    exact hy m hp
  · rw [he]
    exact Or.inr rfl

theorem Reaches.digits {P : Numeral → Prop} {cs : List Char} (hc : ∀ c ∈ cs, c.isDigit = true)
    (hp : ∀ n, P n → ∀ c, c.isDigit = true → Reaches P n [c]) {n : Numeral} (hn : P n) :
    Reaches P n cs := by
  induction cs generalizing n with
  | nil => exact Or.inl ⟨n, rfl, hn⟩
  | cons c cs ih =>
    have hd : Reaches P n ([c] ++ cs) := (hp n hn c (hc c (by simp))).append fun m hm =>
      ih (fun d hd => hc d (List.mem_cons_of_mem c hd)) hm
    exact hd

theorem reaches_of_more {P : Numeral → Prop} {n m : Numeral} {c : Char} (h : n.next c = .more m)
    (hm : P m) : Reaches P n [c] := by
  exact Or.inl ⟨m, by simp only [read, h], hm⟩

theorem digit?_of_isDigit {c : Char} (h : c.isDigit = true) :
    digit? c = some (c.toNat - '0'.toNat) := by
  simp [digit?, h]

theorem digit_eq_zero {c : Char} (h : c.isDigit = true) (hz : c.toNat - '0'.toNat = 0) :
    c = '0' := by
  have hb : 48 ≤ c.toNat := by
    simp only [Char.isDigit, Bool.and_eq_true, decide_eq_true_eq] at h
    exact h.1
  have hn : c.toNat = '0'.toNat := by
    have : '0'.toNat = 48 := rfl
    omega
  exact Char.toNat_inj.mp hn

theorem next_sign {c : Char} (h : c.isDigit = true) (hz : c ≠ '0') :
    next .sign c = .more (.whole (Digits.empty.addWhole (c.toNat - '0'.toNat))) := by
  have hd : c.toNat - '0'.toNat ≠ 0 := fun e => hz (digit_eq_zero h e)
  obtain ⟨d, he⟩ := Nat.exists_eq_succ_of_ne_zero hd
  simp only [next, digit?_of_isDigit h, he]

section

variable (ds : Digits) {c : Char} (h : c.isDigit = true)

include h

theorem next_whole :
    next (.whole ds) c = .more (.whole (ds.addWhole (c.toNat - '0'.toNat))) := by
  simp only [next, digit?_of_isDigit h]

theorem next_point :
    next (.point ds) c = .more (.fraction (ds.addFraction (c.toNat - '0'.toNat))) := by
  simp only [next, digit?_of_isDigit h]

theorem next_fraction :
    next (.fraction ds) c = .more (.fraction (ds.addFraction (c.toNat - '0'.toNat))) := by
  simp only [next, digit?_of_isDigit h]

end

def IsWhole : Numeral → Prop
  | .zero | .whole _ => True
  | _ => False

theorem reaches_whole {run : Json.DigitRun} (hz : run.first = '0' → run.more = []) :
    Reaches IsWhole .sign run.chars := by
  by_cases h0 : run.first = '0'
  · have hc : run.chars = ['0'] := by simp [Json.DigitRun.chars, h0, hz h0]
    rw [hc]
    exact reaches_of_more rfl trivial
  · have hfirst : Reaches (fun n => ∃ ds, n = .whole ds) .sign [run.first] :=
      reaches_of_more (next_sign (run.digits _ (by simp)) h0) ⟨_, rfl⟩
    have hrun : Reaches (fun n => ∃ ds, n = .whole ds) .sign ([run.first] ++ run.more) := by
      refine hfirst.append fun m hm => Reaches.digits (fun d hd => run.digits d (by simp [hd])) ?_ hm
      rintro _ ⟨ds, rfl⟩ c hc
      exact reaches_of_more (next_whole ds hc) ⟨_, rfl⟩
    rcases hrun with ⟨m, hm, ds, rfl⟩ | he
    · exact Or.inl ⟨_, hm, trivial⟩
    · exact Or.inr he

/-- A numeral to which an exponent may still be added. -/
def IsMantissa : Numeral → Prop
  | .zero | .whole _ | .fraction _ => True
  | _ => False

theorem IsWhole.mantissa {n : Numeral} (h : n.IsWhole) : n.IsMantissa := by
  cases n <;> trivial

theorem IsMantissa.complete {n : Numeral} (h : n.IsMantissa) : n.Complete := by
  cases n <;> trivial

theorem reaches_fraction {n : Numeral} (h : n.IsWhole) (text : Json.NumeralText) :
    Reaches IsMantissa n text.fractionChars := by
  unfold Json.NumeralText.fractionChars
  cases text.fraction with
  | none => exact Or.inl ⟨n, rfl, h.mantissa⟩
  | some run =>
    have hpoint : Reaches (fun m => ∃ ds, m = .point ds) n ['.'] := by
      cases n with
      | zero => exact reaches_of_more rfl ⟨_, rfl⟩
      | whole ds => exact reaches_of_more rfl ⟨_, rfl⟩
      | _ => exact h.elim
    have hfirst : Reaches (fun m => ∃ ds, m = .fraction ds) n (['.'] ++ [run.first]) := by
      refine hpoint.append ?_
      rintro _ ⟨ds, rfl⟩
      exact reaches_of_more (next_point ds (run.digits run.first (by simp))) ⟨_, rfl⟩
    have hrun : Reaches (fun m => ∃ ds, m = .fraction ds) n ((['.'] ++ [run.first]) ++ run.more) := by
      refine hfirst.append fun m hm => Reaches.digits (fun d hd => run.digits d (by simp [hd])) ?_ hm
      rintro _ ⟨ds, rfl⟩ c hc
      exact reaches_of_more (next_fraction ds hc) ⟨_, rfl⟩
    rcases hrun with ⟨m, hm, ds, rfl⟩ | he
    · exact Or.inl ⟨_, hm, trivial⟩
    · exact Or.inr he

theorem reaches_addExponent {n : Numeral} {c : Char} {ds : Digits} {down : Bool} {power digit : Nat}
    (h : n.next c = addExponent ds down power digit) :
    Reaches (fun m => ∃ ds down power, m = .exponent ds down power) n [c] := by
  unfold addExponent at h
  split at h
  · exact Or.inr (by simp only [read, h])
  · exact reaches_of_more h ⟨_, _, _, rfl⟩

theorem reaches_power {n : Numeral} (h : ∃ ds, n = .mark ds ∨ ∃ down, n = .markSign ds down)
    (run : Json.DigitRun) : Reaches Complete n run.chars := by
  have hd := digit?_of_isDigit (run.digits run.first (by simp))
  have hfirst : Reaches (fun m => ∃ ds down power, m = .exponent ds down power) n [run.first] := by
    obtain ⟨ds, rfl | ⟨down, rfl⟩⟩ := h
    · exact reaches_addExponent (by simp only [next, hd]; rfl)
    · exact reaches_addExponent (by simp only [next, hd]; rfl)
  have hrun : Reaches (fun m => ∃ ds down power, m = .exponent ds down power) n
      ([run.first] ++ run.more) := by
    refine hfirst.append fun m hm => Reaches.digits (fun d hd => run.digits d (by simp [hd])) ?_ hm
    rintro _ ⟨ds, down, power, rfl⟩ c hc
    exact reaches_addExponent (by simp only [next, digit?_of_isDigit hc]; rfl)
  rcases hrun with ⟨m, hm, ds, down, power, rfl⟩ | he
  · exact Or.inl ⟨_, hm, trivial⟩
  · exact Or.inr he

theorem reaches_exponent {n : Numeral} (h : n.IsMantissa) (text : Json.NumeralText) :
    Reaches Complete n text.exponentChars := by
  unfold Json.NumeralText.exponentChars
  cases text.exponent with
  | none => exact Or.inl ⟨n, rfl, h.complete⟩
  | some e =>
    have hmark : Reaches (fun m => ∃ ds, m = .mark ds) n [e.mark] := by
      unfold Json.ExponentPart.mark
      cases n with
      | zero => cases e.upper <;> exact reaches_of_more rfl ⟨_, rfl⟩
      | whole ds => cases e.upper <;> exact reaches_of_more rfl ⟨_, rfl⟩
      | fraction ds => cases e.upper <;> exact reaches_of_more rfl ⟨_, rfl⟩
      | _ => exact h.elim
    have hsign : Reaches (fun m => ∃ ds, m = .mark ds ∨ ∃ down, m = .markSign ds down) n
        ([e.mark] ++ e.signChars) := by
      refine hmark.append ?_
      rintro _ ⟨ds, rfl⟩
      unfold Json.ExponentPart.signChars
      cases e.down with
      | none => exact Or.inl ⟨_, rfl, ds, Or.inl rfl⟩
      | some down => cases down <;> exact reaches_of_more rfl ⟨ds, Or.inr ⟨_, rfl⟩⟩
    have hpower : Reaches Complete n (([e.mark] ++ e.signChars) ++ e.run.chars) :=
      hsign.append fun m hm => reaches_power hm e.run
    simpa [Json.ExponentPart.chars] using hpower

theorem reaches_magnitude (text : Json.NumeralText) :
    Reaches Complete .sign text.magnitudeChars :=
  (reaches_whole text.noLeadingZero).append fun _ hm =>
    (reaches_fraction hm text).append fun _ hm => reaches_exponent hm text

end Numeral

namespace Json

theorem conclude_numeral {n m : Numeral} {chars : List Char} (h : n.read chars = .ok m)
    (frames : List Frame) (negative : Bool) (rest : List Char) :
    conclude (.numeral frames negative n) (chars ++ rest) =
      conclude (.numeral frames negative m) rest := by
  induction chars generalizing n with
  | nil =>
    cases h
    rfl
  | cons c cs ih =>
    cases hn : n.next c with
    | more next =>
      have hs : step (.numeral frames negative n) c = .ok (.numeral frames negative next) := by
        simp only [step, hn]
      rw [List.cons_append, conclude_cons_of_step hs]
      exact ih (by simpa only [Numeral.read, hn] using h)
    | _ => simp [Numeral.read, hn] at h

theorem conclude_numeral_refused {n : Numeral} {chars : List Char}
    (h : n.read chars = .error .numberOutOfRange) (frames : List Frame) (negative : Bool)
    (rest : List Char) :
    conclude (.numeral frames negative n) (chars ++ rest) = .error .numberOutOfRange := by
  induction chars generalizing n with
  | nil => cases h
  | cons c cs ih =>
    cases hn : n.next c with
    | more next =>
      have hs : step (.numeral frames negative n) c = .ok (.numeral frames negative next) := by
        simp only [step, hn]
      rw [List.cons_append, conclude_cons_of_step hs]
      exact ih (by simpa only [Numeral.read, hn] using h)
    | wrong cause =>
      have hc : cause = .numberOutOfRange := by simpa [Numeral.read, hn] using h
      have hs : step (.numeral frames negative n) c = .error ⟨cause, 1⟩ := by
        simp only [step, hn, refuse]
      rw [List.cons_append, conclude_cons_of_refusal hs, hc]
    | _ => simp [Numeral.read, hn] at h

/-- A numeral is valued when a character comes with which it does not go on. -/
theorem conclude_complete {n : Numeral} (hn : n.Complete) (frames : List Frame) (negative : Bool)
    {rest : List Char} (hr : Numeral.Follows rest) :
    conclude (.numeral frames negative n) rest =
      match n.value negative with
      | .ok amount => conclude (.between (deliver (.number amount) frames)) rest
      | .error cause => .error cause := by
  cases rest with
  | nil =>
    simp only [conclude, atEnd]
    cases n.value negative <;> rfl
  | cons c cs =>
    have ho := Numeral.next_over hn (hr c rfl)
    cases hv : n.value negative with
    | ok amount => simp only [conclude, step, ho, hv]
    | error cause =>
      exact conclude_cons_of_refusal (by simp only [step, ho, hv] :
        step (.numeral frames negative n) c = .error ⟨cause, 0⟩) cs

theorem begin_digit {c : Char} (h : c.isDigit = true) (frames : List Frame) :
    begin frames c =
      match Numeral.sign.next c with
      | .more n => .ok (.numeral frames false n)
      | _ => refuse .expectedValue := by
  unfold begin
  split
  case h_8 => rfl
  all_goals exact absurd h (by decide)

theorem isBlank_of_isDigit {c : Char} (h : c.isDigit = true) : isBlank c = false := by
  cases hb : isBlank c with
  | false => rfl
  | true =>
    simp only [isBlank, Bool.or_eq_true, beq_iff_eq] at hb
    rcases hb with ((rfl | rfl) | rfl) | rfl <;> exact absurd h (by decide)

theorem next_sign_more {c : Char} (h : c.isDigit = true) : ∃ n, Numeral.sign.next c = .more n := by
  by_cases hz : c = '0'
  · exact ⟨.zero, by rw [hz]; rfl⟩
  · exact ⟨_, Numeral.next_sign h hz⟩

theorem conclude_numeral_start (n : NumeralText) (frames : List Frame) (rest : List Char) :
    conclude (.between ⟨frames, .value⟩) (n.chars ++ rest) =
      conclude (.numeral frames n.negative .sign) (n.magnitudeChars ++ rest) := by
  unfold NumeralText.chars
  cases hn : n.negative with
  | true => exact conclude_cons_of_step rfl _
  | false =>
    have hd := n.whole.digits n.whole.first (by simp)
    obtain ⟨m, hm⟩ := next_sign_more hd
    have hbegin : atSpot ⟨frames, .value⟩ n.whole.first = .ok (.numeral frames false m) := by
      simp only [atSpot, begin_digit hd, hm]
    have hsign : step (.numeral frames false .sign) n.whole.first = .ok (.numeral frames false m) := by
      simp only [step, hm]
    simp only [NumeralText.magnitudeChars, DigitRun.chars, List.cons_append, Bool.false_eq_true,
      ↓reduceIte]
    rw [conclude_atSpot (isBlank_of_isDigit hd) hbegin, conclude_cons_of_step hsign]

theorem conclude_number {n : NumeralText} {amount : Number} (h : n.number? = some amount)
    (frames : List Frame) {rest : List Char} (hr : Numeral.Follows rest) :
    conclude (.between ⟨frames, .value⟩) (n.chars ++ rest) =
      conclude (.between (deliver (.number amount) frames)) rest := by
  unfold NumeralText.number? at h
  rw [conclude_numeral_start]
  rcases Numeral.reaches_magnitude n with ⟨m, hm, hc⟩ | he
  · rw [hm] at h
    rw [conclude_numeral hm, conclude_complete hc frames n.negative hr]
    cases hv : m.value n.negative with
    | ok a =>
      simp only [hv, Except.toOption, Option.some.injEq] at h
      rw [h]
    | error cause => simp [hv, Except.toOption] at h
  · simp [he] at h

theorem conclude_number_limit {n : NumeralText} (h : n.number? = none) (frames : List Frame)
    {rest : List Char} (hr : Numeral.Follows rest) :
    conclude (.between ⟨frames, .value⟩) (n.chars ++ rest) = .error .numberOutOfRange := by
  unfold NumeralText.number? at h
  rw [conclude_numeral_start]
  rcases Numeral.reaches_magnitude n with ⟨m, hm, hc⟩ | he
  · rw [hm] at h
    rw [conclude_numeral hm, conclude_complete hc frames n.negative hr]
    cases hv : m.value n.negative with
    | ok a => simp [hv, Except.toOption] at h
    | error cause => rw [Numeral.value_error hc hv]
  · exact conclude_numeral_refused he frames n.negative rest

end Json

end MetricUpload
