import MetricUpload.Proofs.Json.StringReading

namespace MetricUpload

namespace Json

theorem exists_shortEscape {c escaped : Char} (h : shortEscape? c = some escaped) :
    ∃ e : ShortEscape, e.mark = c := by
  unfold shortEscape? at h
  split at h
  case h_1 => exact ⟨.quote, rfl⟩
  case h_2 => exact ⟨.backslash, rfl⟩
  case h_3 => exact ⟨.slash, rfl⟩
  case h_4 => exact ⟨.backspace, rfl⟩
  case h_5 => exact ⟨.formFeed, rfl⟩
  case h_6 => exact ⟨.lineFeed, rfl⟩
  case h_7 => exact ⟨.carriageReturn, rfl⟩
  case h_8 => exact ⟨.tab, rfl⟩
  case h_9 => cases h

theorem exists_hexDigit {c : Char} {d : Nat} (h : hexDigit? c = some d) :
    ∃ digit : HexDigit, digit.char = c := by
  have hall : ∀ n : Fin 103, (hexDigit? (Char.ofNat n)).isSome = true →
      ∃ value upper, (HexDigit.mk value upper).char = Char.ofNat n := by decide
  have hbound : c.toNat < 103 := by
    unfold hexDigit? at h
    split at h
    next hc =>
      have : c.toNat ≤ 57 := hc.2
      omega
    next =>
      split at h
      next hc =>
        have : c.toNat ≤ 102 := hc.2
        omega
      next =>
        split at h
        next hc =>
          have : c.toNat ≤ 70 := hc.2
          omega
        next => cases h
  have hc := hall ⟨c.toNat, hbound⟩
  simp only [Char.ofNat_toNat, h] at hc
  obtain ⟨value, upper, he⟩ := hc rfl
  exact ⟨⟨value, upper⟩, he⟩

/-- The rest of a string, up to its closing quote. -/
def Quote.Awaits : Quote → List Char → Prop
  | .plain, tail | .lowEscape _, tail => ∃ ps, tail = pieceChars ps
  | .escape, tail | .lowMark _, tail => ∃ p ps, '\\' :: tail = pieceChars (p :: ps)
  | .hex _ count _, tail => ∃ (first : HexDigit) (digits : List HexDigit) (ps : List Piece),
      digits.length = 3 - count ∧ tail = first.char :: (digits.map HexDigit.char ++ pieceChars ps)

theorem Quote.awaits_endUnit {high : Option Nat} {unit : Nat} {text : List Char}
    {next : List Char × Quote} (h : endUnit high unit text = .ok next) {tail : List Char}
    (ht : next.2.Awaits tail) : ∃ ps, tail = pieceChars ps := by
  cases high with
  | none =>
    simp only [endUnit] at h
    split at h
    next => cases h
    next =>
      split at h
      · cases h
        exact ht
      · cases h
        exact ht
  | some high =>
    simp only [endUnit] at h
    split at h
    · cases h
      exact ht
    · cases h

/-- A unit behind its mark is a piece. -/
theorem Quote.awaits_unit {high : Option Nat} {tail : List Char}
    (h : (Quote.hex high 0 0).Awaits tail) :
    ∃ p ps, '\\' :: 'u' :: tail = pieceChars (p :: ps) := by
  obtain ⟨a, digits, ps, hlength, rfl⟩ := h
  match digits, hlength with
  | [b, c, d], _ => exact ⟨.unit a b c d, ps, by simp [pieceChars_cons, Piece.chars]⟩

theorem inString_awaits {text : List Char} {quote : Quote} {c : Char} {next : List Char × Quote}
    (hq : quote = .plain → c ≠ '"') (h : inString text quote c = .ok next) {tail : List Char}
    (ht : next.2.Awaits tail) : quote.Awaits (c :: tail) := by
  cases quote with
  | plain =>
    simp only [inString] at h
    split at h
    next hc =>
      cases h
      cases beq_iff_eq.mp hc
      obtain ⟨p, ps, he⟩ := ht
      exact ⟨p :: ps, he⟩
    next hc =>
      split at h
      next => cases h
      next hlow =>
        cases h
        obtain ⟨ps, rfl⟩ := ht
        have hb : c ≠ '\\' := by simpa using hc
        exact ⟨.plain c ⟨hq rfl, hb, by omega⟩ :: ps, by simp [pieceChars_cons, Piece.chars]⟩
  | escape =>
    simp only [inString] at h
    split at h
    next hc =>
      cases h
      cases beq_iff_eq.mp hc
      exact Quote.awaits_unit ht
    next =>
      split at h
      next he =>
        cases h
        obtain ⟨e, rfl⟩ := exists_shortEscape he
        obtain ⟨ps, rfl⟩ := ht
        exact ⟨.short e, ps, by simp [pieceChars_cons, Piece.chars]⟩
      next => cases h
  | hex high count unit =>
    simp only [inString] at h
    split at h
    next => cases h
    next d hd =>
      obtain ⟨digit, rfl⟩ := exists_hexDigit hd
      split at h
      next hcount =>
        cases h
        obtain ⟨first, digits, ps, hlength, rfl⟩ := ht
        exact ⟨digit, first :: digits, ps, by simp only [List.length_cons]; omega, rfl⟩
      next hcount =>
        obtain ⟨ps, rfl⟩ := Quote.awaits_endUnit h ht
        exact ⟨digit, [], ps, by simp only [List.length_nil]; omega, rfl⟩
  | lowEscape high =>
    simp only [inString] at h
    split at h
    next hc =>
      cases h
      cases beq_iff_eq.mp hc
      obtain ⟨p, ps, he⟩ := ht
      exact ⟨p :: ps, he⟩
    next => cases h
  | lowMark high =>
    simp only [inString] at h
    split at h
    next hc =>
      cases h
      cases beq_iff_eq.mp hc
      exact Quote.awaits_unit ht
    next => cases h

end Json

end MetricUpload
