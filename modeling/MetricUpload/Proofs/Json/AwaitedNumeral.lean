import MetricUpload.Proofs.Json.NumeralReading

namespace MetricUpload

namespace Numeral

/-- What a numeral that has been read so far may still be followed by until it ends. -/
def Awaits : Numeral → List Char → Prop
  | .sign, tail => ∃ n : Json.NumeralText, tail = n.magnitudeChars
  | .zero, tail => ∃ n : Json.NumeralText, tail = n.fractionChars ++ n.exponentChars
  | .whole _, tail => ∃ (ds : List Char) (n : Json.NumeralText), (∀ c ∈ ds, c.isDigit = true) ∧
      tail = ds ++ (n.fractionChars ++ n.exponentChars)
  | .point _, tail => ∃ (run : Json.DigitRun) (n : Json.NumeralText),
      tail = run.chars ++ n.exponentChars
  | .fraction _, tail => ∃ (ds : List Char) (n : Json.NumeralText),
      (∀ c ∈ ds, c.isDigit = true) ∧ tail = ds ++ n.exponentChars
  | .mark _, tail => ∃ e : Json.ExponentPart, tail = e.signChars ++ e.run.chars
  | .markSign _ _, tail => ∃ run : Json.DigitRun, tail = run.chars
  | .exponent _ _ _, tail => ∀ c ∈ tail, c.isDigit = true

/-- The numeral that is only a zero. -/
def bare : Json.NumeralText :=
  ⟨false, ⟨'0', [], List.forall_mem_singleton.mpr rfl⟩, fun _ => rfl, none, none⟩

theorem awaits_nil {n : Numeral} (h : n.Complete) : n.Awaits [] := by
  cases n with
  | zero => exact ⟨bare, rfl⟩
  | whole => exact ⟨[], bare, by simp, rfl⟩
  | fraction => exact ⟨[], bare, by simp, rfl⟩
  | exponent => exact fun c hc => absurd hc List.not_mem_nil
  | sign | point | mark | markSign => exact absurd h id

theorem complete_of_value {n : Numeral} {negative : Bool} {amount : Number}
    (h : n.value negative = .ok amount) : n.Complete := by
  cases n with
  | sign | point | mark | markSign => cases h
  | _ => trivial

theorem isDigit_of_digit? {c : Char} {d : Nat} (h : digit? c = some d) : c.isDigit = true := by
  unfold digit? at h
  split at h
  next hc => exact hc
  next => cases h

/-- An exponent may follow where its mark may. -/
theorem exists_exponentChars {c : Char} (hm : isMark c = true) {ds : Digits} {tail : List Char}
    (h : (Numeral.mark ds).Awaits tail) :
    ∃ e : Json.ExponentPart, c :: tail = e.chars := by
  obtain ⟨e, rfl⟩ := h
  simp only [isMark, Bool.or_eq_true, beq_iff_eq] at hm
  rcases hm with rfl | rfl
  · exact ⟨{ e with upper := false }, rfl⟩
  · exact ⟨{ e with upper := true }, rfl⟩

theorem more_of_addExponent {ds : Digits} {down : Bool} {power digit : Nat} {m : Numeral}
    (h : addExponent ds down power digit = .more m) : ∃ power, m = .exponent ds down power := by
  unfold addExponent at h
  split at h
  next => cases h
  next =>
    cases h
    exact ⟨_, rfl⟩

/-- A digit that belongs to a numeral. -/
theorem awaits_digit {n m : Numeral} {c : Char} {d : Nat} (hd : digit? c = some d)
    (h : n.next c = .more m) {tail : List Char} (ht : m.Awaits tail) : n.Awaits (c :: tail) := by
  have hc := isDigit_of_digit? hd
  have hcons : ∀ ds : List Char, (∀ e ∈ ds, e.isDigit = true) → ∀ e ∈ c :: ds, e.isDigit = true :=
    fun ds hds => List.forall_mem_cons.mpr ⟨hc, hds⟩
  cases n with
  | sign =>
    cases d with
    | zero =>
      simp only [next, hd] at h
      cases h
      rw [digit?_of_isDigit hc, Option.some.injEq] at hd
      cases digit_eq_zero hc hd
      obtain ⟨n, rfl⟩ := ht
      exact ⟨{ bare with fraction := n.fraction, exponent := n.exponent }, rfl⟩
    | succ d =>
      simp only [next, hd] at h
      cases h
      have hz : c ≠ '0' := by
        rintro rfl
        cases hd
      obtain ⟨more, n, hmore, rfl⟩ := ht
      exact ⟨⟨false, ⟨c, more, hcons more hmore⟩, fun h0 => absurd h0 hz, n.fraction, n.exponent⟩,
        rfl⟩
  | zero =>
    simp only [next, hd] at h
    cases h
  | whole ds =>
    simp only [next, hd] at h
    cases h
    obtain ⟨more, n, hmore, rfl⟩ := ht
    exact ⟨c :: more, n, hcons more hmore, rfl⟩
  | point ds =>
    simp only [next, hd] at h
    cases h
    obtain ⟨more, n, hmore, rfl⟩ := ht
    exact ⟨⟨c, more, hcons more hmore⟩, n, rfl⟩
  | fraction ds =>
    simp only [next, hd] at h
    cases h
    obtain ⟨more, n, hmore, rfl⟩ := ht
    exact ⟨c :: more, n, hcons more hmore, rfl⟩
  | mark ds =>
    simp only [next, hd] at h
    obtain ⟨power, rfl⟩ := more_of_addExponent (by simpa using h)
    exact ⟨⟨false, none, c, tail, hcons tail ht⟩, rfl⟩
  | markSign ds down =>
    simp only [next, hd] at h
    obtain ⟨power, rfl⟩ := more_of_addExponent (by simpa using h)
    exact ⟨⟨c, tail, hcons tail ht⟩, rfl⟩
  | exponent ds down power =>
    simp only [next, hd] at h
    obtain ⟨power, rfl⟩ := more_of_addExponent (by simpa using h)
    exact hcons tail ht

theorem awaits_point {c : Char} (hp : (c == '.') = true) {ds : Digits} {tail : List Char}
    (h : (Numeral.point ds).Awaits tail) :
    ∃ n : Json.NumeralText, c :: tail = n.fractionChars ++ n.exponentChars := by
  obtain ⟨run, n, rfl⟩ := h
  cases beq_iff_eq.mp hp
  exact ⟨{ bare with fraction := some run, exponent := n.exponent }, rfl⟩

theorem awaits_mark {c : Char} (hm : isMark c = true) {ds : Digits} {tail : List Char}
    (h : (Numeral.mark ds).Awaits tail) : ∃ n : Json.NumeralText, c :: tail = n.exponentChars ∧
      c :: tail = n.fractionChars ++ n.exponentChars := by
  obtain ⟨e, he⟩ := exists_exponentChars hm h
  exact ⟨{ bare with exponent := some e }, he, he⟩

/-- A point, a mark or a sign that belongs to a numeral. -/
theorem awaits_nonDigit {n m : Numeral} {c : Char} (hd : digit? c = none)
    (h : n.next c = .more m) {tail : List Char} (ht : m.Awaits tail) : n.Awaits (c :: tail) := by
  cases n with
  | zero =>
    simp only [next, hd] at h
    split at h
    next hp =>
      cases h
      exact awaits_point hp ht
    next =>
      split at h
      next hm =>
        cases h
        obtain ⟨n, _, hn⟩ := awaits_mark hm ht
        exact ⟨n, hn⟩
      next => cases h
  | whole ds =>
    simp only [next, hd] at h
    split at h
    next hp =>
      cases h
      obtain ⟨n, hn⟩ := awaits_point hp ht
      exact ⟨[], n, by simp, hn⟩
    next =>
      split at h
      next hm =>
        cases h
        obtain ⟨n, _, hn⟩ := awaits_mark hm ht
        exact ⟨[], n, by simp, hn⟩
      next => cases h
  | fraction ds =>
    simp only [next, hd] at h
    split at h
    next hm =>
      cases h
      obtain ⟨n, hn, _⟩ := awaits_mark hm ht
      exact ⟨[], n, by simp, hn⟩
    next => cases h
  | mark ds =>
    simp only [next, hd, beq_iff_eq] at h
    split at h
    next hc =>
      cases h
      subst hc
      obtain ⟨run, rfl⟩ := ht
      exact ⟨⟨false, some false, run⟩, rfl⟩
    next =>
      split at h
      next hc =>
        cases h
        subst hc
        obtain ⟨run, rfl⟩ := ht
        exact ⟨⟨false, some true, run⟩, rfl⟩
      next => cases h
  | sign | point | markSign | exponent =>
    simp only [next, hd] at h
    cases h

theorem awaits_cons {n m : Numeral} {c : Char} (h : n.next c = .more m) {tail : List Char}
    (ht : m.Awaits tail) : n.Awaits (c :: tail) := by
  cases hd : digit? c with
  | some d => exact awaits_digit hd h ht
  | none => exact awaits_nonDigit hd h ht

end Numeral

end MetricUpload
