import MetricUpload.Proofs.Json.Conclusion
import MetricUpload.Proofs.Json.Syntax

namespace MetricUpload

namespace Json

/-- The refusals of a text that is spelled correctly but means more than a reader can hold. -/
def Cause.IsLimit (cause : Cause) : Prop :=
  cause = .nestingTooDeep ∨ cause = .numberOutOfRange ∨ cause = .loneSurrogate ∨
    cause = .brokenSurrogatePair

theorem shortEscape?_mark (e : ShortEscape) : shortEscape? e.mark = some e.meaning := by
  cases e <;> rfl

theorem ShortEscape.mark_ne_unit (e : ShortEscape) : (e.mark == 'u') = false := by
  cases e <;> rfl

theorem hexDigit?_char (d : HexDigit) : hexDigit? d.char = some d.value.val := by
  obtain ⟨value, upper⟩ := d
  revert value upper
  decide

theorem endUnit_plain {unit : Nat} (hl : isLowSurrogate unit = false)
    (hh : isHighSurrogate unit = false) (text : List Char) :
    endUnit none unit text = .ok (Char.ofNat unit :: text, .plain) := by
  simp [endUnit, hl, hh]

theorem endUnit_high {unit : Nat} (hl : isLowSurrogate unit = false)
    (hh : isHighSurrogate unit = true) (text : List Char) :
    endUnit none unit text = .ok (text, .lowEscape unit) := by
  simp [endUnit, hl, hh]

theorem endUnit_pair {low : Nat} (h : isLowSurrogate low = true) (high : Nat) (text : List Char) :
    endUnit (some high) low text =
      .ok (Char.ofNat (0x10000 + (high - 0xD800) * 0x400 + (low - 0xDC00)) :: text, .plain) := by
  simp [endUnit, h]

theorem endUnit_lone {unit : Nat} (h : isLowSurrogate unit = true) (text : List Char) :
    endUnit none unit text = .error ⟨.loneSurrogate, 1⟩ := by
  simp [endUnit, h, refuse]

theorem endUnit_unpaired {unit : Nat} (h : isLowSurrogate unit = false) (high : Nat)
    (text : List Char) : endUnit (some high) unit text = .error ⟨.loneSurrogate, 1⟩ := by
  simp [endUnit, h, refuse]

def concludeUnit (frames : List Frame) (role : Role) (rest : List Char) :
    Except Refusal (List Char × Quote) → Except Cause Json
  | .ok (text, quote) => conclude (.string frames role text quote) rest
  | .error refusal => .error refusal.cause

section

variable (frames : List Frame) (role : Role) (text : List Char) (rest : List Char)

theorem conclude_plain {c : Char} (h : c ≠ '"' ∧ c ≠ '\\' ∧ 0x20 ≤ c.toNat) :
    conclude (.string frames role text .plain) (c :: rest) =
      conclude (.string frames role (c :: text) .plain) rest := by
  obtain ⟨hq, hb, hc⟩ := h
  apply conclude_cons_of_step
  have hlow : ¬c.toNat < 0x20 := by omega
  simp [step, inString, hq, hb, hlow, Except.map]

theorem conclude_backslash :
    conclude (.string frames role text .plain) ('\\' :: rest) =
      conclude (.string frames role text .escape) rest :=
  conclude_cons_of_step rfl rest

theorem conclude_short (e : ShortEscape) :
    conclude (.string frames role text .plain) ('\\' :: e.mark :: rest) =
      conclude (.string frames role (e.meaning :: text) .plain) rest := by
  rw [conclude_backslash]
  apply conclude_cons_of_step
  simp [step, inString, e.mark_ne_unit, shortEscape?_mark, Except.map]

theorem conclude_hexDigit (high : Option Nat) {count unit : Nat} (hc : count < 3) (d : HexDigit) :
    conclude (.string frames role text (.hex high count unit)) (d.char :: rest) =
      conclude (.string frames role text (.hex high (count + 1) (unit * 16 + d.value))) rest := by
  apply conclude_cons_of_step
  simp [step, inString, hexDigit?_char, hc, Except.map]

theorem conclude_unit (high : Option Nat) (a b c d : HexDigit) :
    conclude (.string frames role text (.hex high 0 0))
        (a.char :: b.char :: c.char :: d.char :: rest) =
      concludeUnit frames role rest (endUnit high (Piece.unitValue a b c d) text) := by
  rw [conclude_hexDigit _ _ _ _ _ (by omega), conclude_hexDigit _ _ _ _ _ (by omega),
    conclude_hexDigit _ _ _ _ _ (by omega)]
  have hjudged : inString text (.hex high 3 (((0 * 16 + a.value) * 16 + b.value) * 16 + c.value))
      d.char = endUnit high (Piece.unitValue a b c d) text := by
    simp [inString, hexDigit?_char, Piece.unitValue]
  cases he : endUnit high (Piece.unitValue a b c d) text with
  | ok next =>
    apply conclude_cons_of_step
    rw [step, hjudged, he]
    · rfl
    · exact Quote.noConfusion
  | error refusal =>
    apply conclude_cons_of_refusal
    rw [step, hjudged, he]
    · rfl
    · exact Quote.noConfusion

theorem conclude_unit_escape (a b c d : HexDigit) :
    conclude (.string frames role text .plain) ((Piece.unit a b c d).chars ++ rest) =
      concludeUnit frames role rest (endUnit none (Piece.unitValue a b c d) text) := by
  have hu : step (.string frames role text .escape) 'u' =
      .ok (.string frames role text (.hex none 0 0)) := rfl
  simp only [Piece.chars, List.cons_append, List.nil_append]
  rw [conclude_backslash, conclude_cons_of_step hu]
  exact conclude_unit frames role text rest none a b c d

theorem conclude_low_escape (high : Nat) (a b c d : HexDigit) :
    conclude (.string frames role text (.lowEscape high)) ((Piece.unit a b c d).chars ++ rest) =
      concludeUnit frames role rest (endUnit (some high) (Piece.unitValue a b c d) text) := by
  have hb : step (.string frames role text (.lowEscape high)) '\\' =
      .ok (.string frames role text (.lowMark high)) := rfl
  have hu : step (.string frames role text (.lowMark high)) 'u' =
      .ok (.string frames role text (.hex (some high) 0 0)) := rfl
  simp only [Piece.chars, List.cons_append, List.nil_append]
  rw [conclude_cons_of_step hb, conclude_cons_of_step hu]
  exact conclude_unit frames role text rest (some high) a b c d

end

theorem pieceChars_cons (p : Piece) (ps : List Piece) :
    pieceChars (p :: ps) = p.chars ++ pieceChars ps := by
  simp [pieceChars]

/-- A string is read as what its pieces mean. -/
theorem conclude_pieces {pieces : List Piece} {meaning : List Char}
    (h : meaning? pieces = some meaning) (frames : List Frame) (role : Role) (text rest : List Char) :
    conclude (.string frames role text .plain) (pieceChars pieces ++ rest) =
      conclude (.between (endString frames (meaning.reverse ++ text) role)) rest := by
  fun_induction meaning? pieces generalizing meaning text with
  | case1 =>
    cases Option.some.inj h
    exact conclude_cons_of_step rfl rest
  | case2 c hc ps ih =>
    obtain ⟨cs, hm, rfl⟩ := Option.map_eq_some_iff.mp h
    have hi := ih hm (c :: text)
    rw [← conclude_plain _ _ _ _ hc] at hi
    simpa [pieceChars_cons, Piece.chars] using hi
  | case3 e ps ih =>
    obtain ⟨cs, hm, rfl⟩ := Option.map_eq_some_iff.mp h
    have hi := ih hm (e.meaning :: text)
    rw [← conclude_short] at hi
    simpa [pieceChars_cons, Piece.chars] using hi
  | case4 => simp at h
  | case5 a b c d unit hl hh a' b' c' d' ps low hlow =>
    rename_i ih
    obtain ⟨cs, hm, rfl⟩ := Option.map_eq_some_iff.mp h
    rw [Bool.not_eq_true] at hl
    rw [pieceChars_cons, List.append_assoc, conclude_unit_escape, endUnit_high hl hh, concludeUnit,
      pieceChars_cons, List.append_assoc, conclude_low_escape, endUnit_pair hlow, concludeUnit,
      ih hm, List.reverse_cons, List.append_assoc]
    rfl
  | case6 => simp at h
  | case7 => simp at h
  | case8 a b c d ps unit hl hh =>
    rename_i ih
    obtain ⟨cs, hm, rfl⟩ := Option.map_eq_some_iff.mp h
    rw [Bool.not_eq_true] at hl hh
    rw [pieceChars_cons, List.append_assoc, conclude_unit_escape, endUnit_plain hl hh, concludeUnit,
      ih hm, List.reverse_cons, List.append_assoc]
    rfl

/-- What follows the first half of a surrogate pair, if not its second half, is refused. -/
theorem conclude_broken_pair (pieces : List Piece) (frames : List Frame) (role : Role)
    (text rest : List Char) (high : Nat)
    (h : ∀ a b c d ps, pieces = .unit a b c d :: ps →
      isLowSurrogate (Piece.unitValue a b c d) = false) :
    ∃ cause, cause.IsLimit ∧ conclude (.string frames role text (.lowEscape high))
      (pieceChars pieces ++ rest) = .error cause := by
  have refused {c : Char} (hc : (c == '\\') = false) (cs : List Char) :
      conclude (.string frames role text (.lowEscape high)) (c :: cs) =
        .error .brokenSurrogatePair :=
    conclude_cons_of_refusal (by simp [step, inString, hc, refuse, Except.map] :
      step (.string frames role text (.lowEscape high)) c = .error ⟨.brokenSurrogatePair, 1⟩) cs
  cases pieces with
  | nil => exact ⟨_, by simp [Cause.IsLimit], refused rfl rest⟩
  | cons p ps =>
    rw [pieceChars_cons, List.append_assoc]
    cases p with
    | plain c hc => exact ⟨_, by simp [Cause.IsLimit], refused (by simpa using hc.2.1) _⟩
    | short e =>
      have hb : step (.string frames role text (.lowEscape high)) '\\' =
          .ok (.string frames role text (.lowMark high)) := rfl
      have hm : step (.string frames role text (.lowMark high)) e.mark =
          .error ⟨.brokenSurrogatePair, 1⟩ := by
        simp [step, inString, e.mark_ne_unit, refuse, Except.map]
      refine ⟨.brokenSurrogatePair, by simp [Cause.IsLimit], ?_⟩
      exact (conclude_cons_of_step hb _).trans (conclude_cons_of_refusal hm _)
    | unit a b c d =>
      refine ⟨.loneSurrogate, by simp [Cause.IsLimit], ?_⟩
      rw [conclude_low_escape, endUnit_unpaired (h a b c d ps rfl), concludeUnit]

theorem conclude_pieces_limit {pieces : List Piece} (h : meaning? pieces = none)
    (frames : List Frame) (role : Role) (text rest : List Char) :
    ∃ cause, cause.IsLimit ∧
      conclude (.string frames role text .plain) (pieceChars pieces ++ rest) = .error cause := by
  fun_induction meaning? pieces generalizing text with
  | case1 => simp at h
  | case2 c hc ps ih =>
    obtain ⟨cause, hl, hi⟩ := ih (by simpa using h) (c :: text)
    rw [← conclude_plain _ _ _ _ hc] at hi
    exact ⟨cause, hl, by simpa [pieceChars_cons, Piece.chars] using hi⟩
  | case3 e ps ih =>
    obtain ⟨cause, hl, hi⟩ := ih (by simpa using h) (e.meaning :: text)
    rw [← conclude_short] at hi
    exact ⟨cause, hl, by simpa [pieceChars_cons, Piece.chars] using hi⟩
  | case4 a b c d ps unit hlow =>
    refine ⟨.loneSurrogate, by simp [Cause.IsLimit], ?_⟩
    rw [pieceChars_cons, List.append_assoc, conclude_unit_escape, endUnit_lone hlow, concludeUnit]
  | case5 a b c d unit hl hh a' b' c' d' ps low hlow ih =>
    rw [Bool.not_eq_true] at hl
    rw [pieceChars_cons, List.append_assoc, conclude_unit_escape, endUnit_high hl hh, concludeUnit,
      pieceChars_cons, List.append_assoc, conclude_low_escape, endUnit_pair hlow, concludeUnit]
    exact ih (Option.map_eq_none_iff.mp h) _
  | case6 a b c d unit hl hh a' b' c' d' ps low hlow =>
    rw [Bool.not_eq_true] at hl
    rw [pieceChars_cons, List.append_assoc, conclude_unit_escape, endUnit_high hl hh, concludeUnit]
    exact conclude_broken_pair _ frames role text rest unit
      (by rintro _ _ _ _ _ ⟨⟩; simpa using hlow)
  | case7 a b c d ps unit hl hh hne =>
    rw [Bool.not_eq_true] at hl
    rw [pieceChars_cons, List.append_assoc, conclude_unit_escape, endUnit_high hl hh, concludeUnit]
    exact conclude_broken_pair ps frames role text rest unit
      (fun _ _ _ _ _ e => absurd e (by simpa using hne _ _ _ _ _))
  | case8 a b c d ps unit hl hh ih =>
    rw [Bool.not_eq_true] at hl hh
    rw [pieceChars_cons, List.append_assoc, conclude_unit_escape, endUnit_plain hl hh, concludeUnit]
    exact ih (Option.map_eq_none_iff.mp h) _

end Json

end MetricUpload
