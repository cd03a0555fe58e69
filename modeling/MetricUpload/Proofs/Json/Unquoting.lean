import MetricUpload.Proofs.Json.StringReading

namespace MetricUpload

namespace Json

/-- Reads on inside a string, up to its closing quote. -/
def readQuoted (text : List Char) (quote : Quote) (raw : List Char) :
    Except Refusal (List Char × Quote) :=
  raw.foldlM (fun (text, quote) c => inString text quote c) (text, quote)

theorem readQuoted_cons {text text' : List Char} {quote quote' : Quote} {c : Char}
    (h : inString text quote c = .ok (text', quote')) (raw : List Char) :
    readQuoted text quote (c :: raw) = readQuoted text' quote' raw := by
  simp only [readQuoted, List.foldlM_cons, h]
  rfl

theorem unquoted?_of_readQuoted {raw text : List Char}
    (h : readQuoted [] .plain raw = .ok (text, .plain)) :
    unquoted? raw = some (String.ofList text.reverse) := by
  unfold readQuoted at h
  simp only [unquoted?, h]

section

variable (text : List Char) (rest : List Char)

theorem readQuoted_plain {c : Char} (h : c ≠ '"' ∧ c ≠ '\\' ∧ 0x20 ≤ c.toNat) :
    readQuoted text .plain (c :: rest) = readQuoted (c :: text) .plain rest := by
  apply readQuoted_cons
  have hlow : ¬c.toNat < 0x20 := by omega
  simp [inString, h.2.1, hlow]

theorem readQuoted_short (e : ShortEscape) :
    readQuoted text .plain ('\\' :: e.mark :: rest) =
      readQuoted (e.meaning :: text) .plain rest := by
  have hbackslash : inString text .plain '\\' = .ok (text, .escape) := rfl
  rw [readQuoted_cons hbackslash]
  apply readQuoted_cons
  simp [inString, e.mark_ne_unit, shortEscape?_mark]

theorem readQuoted_hexDigit (high : Option Nat) {count unit : Nat} (hc : count < 3) (d : HexDigit) :
    readQuoted text (.hex high count unit) (d.char :: rest) =
      readQuoted text (.hex high (count + 1) (unit * 16 + d.value)) rest := by
  apply readQuoted_cons
  simp [inString, hexDigit?_char, hc]

theorem readQuoted_unit {high : Option Nat} {a b c d : HexDigit} {text' : List Char}
    {quote : Quote} (h : endUnit high (Piece.unitValue a b c d) text = .ok (text', quote)) :
    readQuoted text (.hex high 0 0) (a.char :: b.char :: c.char :: d.char :: rest) =
      readQuoted text' quote rest := by
  rw [readQuoted_hexDigit _ _ _ (by omega), readQuoted_hexDigit _ _ _ (by omega),
    readQuoted_hexDigit _ _ _ (by omega)]
  apply readQuoted_cons
  simpa [inString, hexDigit?_char, Piece.unitValue] using h

theorem readQuoted_unit_escape {a b c d : HexDigit} {text' : List Char} {quote : Quote}
    (h : endUnit none (Piece.unitValue a b c d) text = .ok (text', quote)) :
    readQuoted text .plain ((Piece.unit a b c d).chars ++ rest) = readQuoted text' quote rest := by
  have hbackslash : inString text .plain '\\' = .ok (text, .escape) := rfl
  have hmark : inString text .escape 'u' = .ok (text, .hex none 0 0) := rfl
  simp only [Piece.chars, List.cons_append, List.nil_append]
  rw [readQuoted_cons hbackslash, readQuoted_cons hmark, readQuoted_unit _ _ h]

theorem readQuoted_low_escape {high : Nat} {a b c d : HexDigit} {text' : List Char} {quote : Quote}
    (h : endUnit (some high) (Piece.unitValue a b c d) text = .ok (text', quote)) :
    readQuoted text (.lowEscape high) ((Piece.unit a b c d).chars ++ rest) =
      readQuoted text' quote rest := by
  have hbackslash : inString text (.lowEscape high) '\\' = .ok (text, .lowMark high) := rfl
  have hmark : inString text (.lowMark high) 'u' = .ok (text, .hex (some high) 0 0) := rfl
  simp only [Piece.chars, List.cons_append, List.nil_append]
  rw [readQuoted_cons hbackslash, readQuoted_cons hmark, readQuoted_unit _ _ h]

end

theorem readQuoted_pieces {pieces : List Piece} {meaning : List Char}
    (h : meaning? pieces = some meaning) (text : List Char) :
    readQuoted text .plain (pieces.flatMap Piece.chars) = .ok (meaning.reverse ++ text, .plain) := by
  fun_induction meaning? pieces generalizing meaning text with
  | case1 =>
    cases Option.some.inj h
    rfl
  | case2 c hc ps ih =>
    obtain ⟨cs, hm, rfl⟩ := Option.map_eq_some_iff.mp h
    simp only [List.flatMap_cons, Piece.chars, List.singleton_append]
    rw [readQuoted_plain _ _ hc, ih hm, List.reverse_cons, List.append_assoc]
    rfl
  | case3 e ps ih =>
    obtain ⟨cs, hm, rfl⟩ := Option.map_eq_some_iff.mp h
    simp only [List.flatMap_cons, Piece.chars, List.cons_append, List.nil_append]
    rw [readQuoted_short, ih hm, List.reverse_cons, List.append_assoc]
    rfl
  | case4 => cases h
  | case5 a b c d unit hl hh a' b' c' d' ps low hlow =>
    rename_i ih
    obtain ⟨cs, hm, rfl⟩ := Option.map_eq_some_iff.mp h
    rw [Bool.not_eq_true] at hl
    rw [List.flatMap_cons, readQuoted_unit_escape _ _ (endUnit_high hl hh _), List.flatMap_cons,
      readQuoted_low_escape _ _ (endUnit_pair hlow _ _), ih hm, List.reverse_cons,
      List.append_assoc]
    rfl
  | case6 => cases h
  | case7 => cases h
  | case8 a b c d ps unit hl hh =>
    rename_i ih
    obtain ⟨cs, hm, rfl⟩ := Option.map_eq_some_iff.mp h
    rw [Bool.not_eq_true] at hl hh
    rw [List.flatMap_cons, readQuoted_unit_escape _ _ (endUnit_plain hl hh _), ih hm,
      List.reverse_cons, List.append_assoc]
    rfl

/-- The text between two quotes is what its pieces mean. -/
theorem unquoted?_pieces {pieces : List Piece} {meaning : List Char}
    (h : meaning? pieces = some meaning) :
    unquoted? (pieces.flatMap Piece.chars) = some (String.ofList meaning) := by
  rw [unquoted?_of_readQuoted (readQuoted_pieces h []), List.append_nil, List.reverse_reverse]

end Json

end MetricUpload
