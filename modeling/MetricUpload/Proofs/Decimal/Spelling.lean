import MetricUpload.Decimal
import MetricUpload.Proofs.Json.Syntax

namespace MetricUpload

/-- A run of characters of this kind ends where the text begins. -/
def Stops (p : Char → Bool) (text : List Char) : Prop := ∀ c, text.head? = some c → p c = false

section

variable {p : Char → Bool} {run rest : List Char}

theorem stops_nil : Stops p [] := nofun

theorem stops_cons {c : Char} (h : p c = false) (rest : List Char) : Stops p (c :: rest) := by
  intro first hfirst
  cases hfirst
  exact h

theorem takeWhile_append_of_stops (hrun : ∀ c ∈ run, p c = true) (hrest : Stops p rest) :
    (run ++ rest).takeWhile p = run := by
  rw [List.takeWhile_append_of_pos hrun]
  cases rest with
  | nil => simp
  | cons c rest => simp [hrest c rfl]

theorem dropWhile_append_of_stops (hrun : ∀ c ∈ run, p c = true) (hrest : Stops p rest) :
    (run ++ rest).dropWhile p = rest := by
  rw [List.dropWhile_append_of_pos hrun]
  cases rest with
  | nil => rfl
  | cons c rest => simp [hrest c rfl]

end

namespace Decimal

/-- A numeral as a reply may spell it: zeros may stand in front of other digits, digits on one side
of the point are enough, but a numeral without a minus sign begins with a digit. -/
structure Spelling where
  negative : Bool
  whole : List Char
  fraction : Option (List Char)
  exponent : Option Json.ExponentPart
  wholeDigits : ∀ c ∈ whole, c.isDigit = true
  fractionDigits : ∀ c ∈ fraction.getD [], c.isDigit = true
  counted : whole ≠ [] ∨ fraction.getD [] ≠ []
  begun : negative = false → whole ≠ []

def fractionChars : Option (List Char) → List Char
  | none => []
  | some digits => '.' :: digits

def exponentChars : Option Json.ExponentPart → List Char
  | none => []
  | some e => e.chars

def exponentPower : Option Json.ExponentPart → Int
  | none => 0
  | some e => if e.down = some true then -(natural e.run.chars : Int) else natural e.run.chars

namespace Spelling

def magnitudeChars (s : Spelling) : List Char :=
  s.whole ++ (fractionChars s.fraction ++ exponentChars s.exponent)

def chars (s : Spelling) : List Char :=
  if s.negative then '-' :: s.magnitudeChars else s.magnitudeChars

def decimal (s : Spelling) : Decimal :=
  ⟨s.negative, natural (s.whole ++ s.fraction.getD []),
    exponentPower s.exponent - (s.fraction.getD []).length⟩

end Spelling

theorem natural?_run (run : Json.DigitRun) : natural? run.chars = some (natural run.chars) := by
  have hdigits : run.chars.all Char.isDigit = true := List.all_eq_true.mpr run.digits
  have hempty : run.chars.isEmpty = false := rfl
  simp only [natural?, hdigits, hempty, Bool.not_true, Bool.or_self, Bool.false_eq_true, ↓reduceIte]

theorem exists_run {digits : List Char} {n : Nat} (h : natural? digits = some n) :
    ∃ run : Json.DigitRun, run.chars = digits ∧ natural run.chars = n := by
  unfold natural? at h
  split at h
  next => cases h
  next hdigits =>
    cases Option.some.inj h
    simp only [Bool.or_eq_true, Bool.not_eq_true', not_or, Bool.not_eq_true,
      Bool.not_eq_false] at hdigits
    obtain ⟨hempty, hall⟩ := hdigits
    cases digits with
    | nil => cases hempty
    | cons first more => exact ⟨⟨first, more, List.all_eq_true.mp hall⟩, rfl, rfl⟩

theorem exponent?_unsigned (run : Json.DigitRun) :
    exponent? ('e' :: run.chars) = (natural? run.chars).map Int.ofNat := by
  obtain ⟨first, more, digits⟩ := run
  have hdigit := digits first List.mem_cons_self
  simp only [Json.DigitRun.chars, exponent?, beq_self_eq_true, Bool.true_or, ↓reduceIte]
  split
  next heq =>
    cases heq
    cases hdigit
  next heq =>
    cases heq
    cases hdigit
  next => rfl

theorem exponent?_chars (e : Option Json.ExponentPart) :
    exponent? (exponentChars e) = some (exponentPower e) := by
  cases e with
  | none => rfl
  | some e =>
    have hmark : exponent? e.chars = exponent? ('e' :: (e.signChars ++ e.run.chars)) := by
      obtain ⟨upper, down, run⟩ := e
      cases upper <;> rfl
    have hrun := natural?_run e.run
    rw [exponentChars, hmark, Json.ExponentPart.signChars, exponentPower]
    cases e.down with
    | none =>
      rw [List.nil_append, exponent?_unsigned, hrun]
      rfl
    | some down => cases down <;> simp [exponent?, hrun]

theorem exists_exponent {cs : List Char} {power : Int} (h : exponent? cs = some power) :
    ∃ e, exponentChars e = cs ∧ exponentPower e = power := by
  unfold exponent? at h
  split at h
  next =>
    cases h
    exact ⟨none, rfl, rfl⟩
  next mark cs =>
    split at h
    next hmark =>
      have hspelled : ∃ upper, ∀ down run, (Json.ExponentPart.mk upper down run).mark = mark := by
        rw [Bool.or_eq_true, beq_iff_eq, beq_iff_eq] at hmark
        rcases hmark with rfl | rfl
        · exact ⟨false, fun _ _ => rfl⟩
        · exact ⟨true, fun _ _ => rfl⟩
      obtain ⟨upper, hupper⟩ := hspelled
      have hfound : ∃ down run, (Json.ExponentPart.mk upper down run).signChars ++ run.chars = cs ∧
          exponentPower (some ⟨upper, down, run⟩) = power := by
        split at h
        next digits =>
          obtain ⟨_, hlifted, rfl⟩ := Option.map_eq_some_iff.mp h
          obtain ⟨n, hn, hlift⟩ := Option.bind_eq_some_iff.mp hlifted
          cases hlift
          obtain ⟨run, rfl, rfl⟩ := exists_run hn
          exact ⟨some true, run, rfl, rfl⟩
        next digits =>
          obtain ⟨n, hn, rfl⟩ := Option.map_eq_some_iff.mp h
          obtain ⟨run, rfl, rfl⟩ := exists_run hn
          exact ⟨some false, run, rfl, rfl⟩
        next digits _ _ =>
          obtain ⟨n, hn, rfl⟩ := Option.map_eq_some_iff.mp h
          obtain ⟨run, rfl, rfl⟩ := exists_run hn
          exact ⟨none, run, rfl, rfl⟩
      obtain ⟨down, run, hchars, hpower⟩ := hfound
      refine ⟨some ⟨upper, down, run⟩, ?_, hpower⟩
      rw [exponentChars, Json.ExponentPart.chars, hupper, hchars]
    next => cases h

/-- Neither a point nor a power of ten begins with a digit. -/
theorem stops_exponentChars (e : Option Json.ExponentPart) :
    Stops Char.isDigit (exponentChars e) := by
  cases e with
  | none => exact stops_nil
  | some e =>
    obtain ⟨upper, down, run⟩ := e
    cases upper <;> exact stops_cons rfl _

theorem stops_fractionChars (fraction : Option (List Char)) (e : Option Json.ExponentPart) :
    Stops Char.isDigit (fractionChars fraction ++ exponentChars e) := by
  cases fraction with
  | none => exact stops_exponentChars e
  | some digits => exact stops_cons rfl _

/-- The digits behind a point at the head of a text, and what follows them. -/
def splitFraction : List Char → List Char × List Char
  | '.' :: cs => (cs.takeWhile Char.isDigit, cs.dropWhile Char.isDigit)
  | cs => ([], cs)

theorem splitFraction_chars {fraction : Option (List Char)}
    (h : ∀ c ∈ fraction.getD [], c.isDigit = true) (e : Option Json.ExponentPart) :
    splitFraction (fractionChars fraction ++ exponentChars e) =
      (fraction.getD [], exponentChars e) := by
  cases fraction with
  | none =>
    cases e with
    | none => rfl
    | some e =>
      obtain ⟨upper, down, run⟩ := e
      cases upper <;> rfl
  | some digits =>
    have hdigits : ∀ c ∈ digits, c.isDigit = true := h
    have hends := stops_exponentChars e
    simp only [fractionChars, List.cons_append, splitFraction, Option.getD_some]
    rw [takeWhile_append_of_stops hdigits hends, dropWhile_append_of_stops hdigits hends]

theorem exists_fraction (cs : List Char) : ∃ fraction,
    fractionChars fraction ++ (splitFraction cs).2 = cs ∧
      fraction.getD [] = (splitFraction cs).1 ∧ ∀ c ∈ fraction.getD [], c.isDigit = true := by
  unfold splitFraction
  split
  next cs =>
    refine ⟨some (cs.takeWhile Char.isDigit), ?_, rfl, ?_⟩
    · simp only [fractionChars, List.cons_append, List.takeWhile_append_dropWhile]
    · exact List.all_eq_true.mp List.all_takeWhile
  next => exact ⟨none, rfl, rfl, nofun⟩

theorem magnitude?_eq (negative : Bool) (cs : List Char) :
    magnitude? negative cs =
      let whole := cs.takeWhile Char.isDigit
      let split := splitFraction (cs.dropWhile Char.isDigit)
      if whole.isEmpty && split.1.isEmpty then none
      else (exponent? split.2).map fun power =>
        ⟨negative, natural (whole ++ split.1), power - split.1.length⟩ := rfl

theorem magnitude?_chars (s : Spelling) :
    magnitude? s.negative s.magnitudeChars = some s.decimal := by
  have hcounted : (s.whole.isEmpty && (s.fraction.getD []).isEmpty) = false := by
    rw [Bool.and_eq_false_iff, List.isEmpty_eq_false_iff, List.isEmpty_eq_false_iff]
    exact s.counted
  have hstops := stops_fractionChars s.fraction s.exponent
  rw [magnitude?_eq, Spelling.magnitudeChars, takeWhile_append_of_stops s.wholeDigits hstops,
    dropWhile_append_of_stops s.wholeDigits hstops, splitFraction_chars s.fractionDigits]
  simp only [hcounted, Bool.false_eq_true, ↓reduceIte, exponent?_chars, Option.map_some]
  rfl

theorem exists_magnitude {negative : Bool} {cs : List Char} {d : Decimal}
    (begun : negative = false → ∃ c rest, cs = c :: rest ∧ c.isDigit = true)
    (h : magnitude? negative cs = some d) :
    ∃ s : Spelling, s.negative = negative ∧ s.magnitudeChars = cs ∧ s.decimal = d := by
  obtain ⟨fraction, hsplit, hfraction, hdigits⟩ := exists_fraction (cs.dropWhile Char.isDigit)
  rw [magnitude?_eq] at h
  simp only [← hfraction] at h
  split at h
  next => cases h
  next hcounted =>
    obtain ⟨_, hpower, rfl⟩ := Option.map_eq_some_iff.mp h
    obtain ⟨e, he, rfl⟩ := exists_exponent hpower
    rw [Bool.and_eq_true, List.isEmpty_iff, List.isEmpty_iff,
      Decidable.not_and_iff_or_not] at hcounted
    have hwhole : negative = false → cs.takeWhile Char.isDigit ≠ [] := by
      intro hnegative
      obtain ⟨c, rest, rfl, hdigit⟩ := begun hnegative
      rw [List.takeWhile_cons_of_pos hdigit]
      exact List.cons_ne_nil _ _
    have hchars : cs.takeWhile Char.isDigit ++ (fractionChars fraction ++ exponentChars e) = cs := by
      rw [he, hsplit, List.takeWhile_append_dropWhile]
    exact ⟨⟨negative, _, fraction, e, List.all_eq_true.mp List.all_takeWhile, hdigits, hcounted,
      hwhole⟩, rfl, hchars, rfl⟩

theorem Spelling.magnitudeChars_head {s : Spelling} (h : s.negative = false) :
    ∃ c rest, s.magnitudeChars = c :: rest ∧ c.isDigit = true := by
  have hdigits := s.wholeDigits
  cases hwhole : s.whole with
  | nil => exact absurd hwhole (s.begun h)
  | cons c rest =>
    rw [hwhole] at hdigits
    exact ⟨c, _, by rw [magnitudeChars, hwhole]; rfl, hdigits c List.mem_cons_self⟩

theorem ofChars?_chars (s : Spelling) : ofChars? s.chars = some s.decimal := by
  have hmagnitude := magnitude?_chars s
  unfold Spelling.chars
  cases hs : s.negative with
  | true =>
    rw [hs] at hmagnitude
    exact hmagnitude
  | false =>
    rw [hs] at hmagnitude
    simp only [Bool.false_eq_true, ↓reduceIte]
    unfold ofChars?
    split
    next cs hcs =>
      obtain ⟨c, rest, hchars, hdigit⟩ := Spelling.magnitudeChars_head hs
      rw [hchars] at hcs
      cases hcs
      cases hdigit
    next => exact hmagnitude

theorem exists_spelling {c : Char} {cs : List Char} {d : Decimal}
    (begun : (c == '-' || c.isDigit) = true) (h : ofChars? (c :: cs) = some d) :
    ∃ s : Spelling, s.chars = c :: cs ∧ s.decimal = d := by
  unfold ofChars? at h
  split at h
  next cs hcs =>
    obtain ⟨s, hsign, hchars, hvalue⟩ := exists_magnitude Bool.noConfusion h
    refine ⟨s, ?_, hvalue⟩
    simp only [Spelling.chars, hsign, hchars, ↓reduceIte]
    exact hcs.symm
  next hsign =>
    have hdigit : c.isDigit = true := by
      rw [Bool.or_eq_true, beq_iff_eq] at begun
      refine begun.resolve_left ?_
      rintro rfl
      exact hsign cs rfl
    obtain ⟨s, hsign, hchars, hvalue⟩ := exists_magnitude (fun _ => ⟨c, cs, rfl, hdigit⟩) h
    exact ⟨s, by simp only [Spelling.chars, hsign, hchars, Bool.false_eq_true, ↓reduceIte], hvalue⟩

end Decimal

/-- The same numeral without the rules that JSON adds. -/
def Json.NumeralText.spelling (n : Json.NumeralText) : Decimal.Spelling where
  negative := n.negative
  whole := n.whole.chars
  fraction := n.fraction.map Json.DigitRun.chars
  exponent := n.exponent
  wholeDigits := n.whole.digits
  fractionDigits := by
    cases n.fraction with
    | none => exact nofun
    | some run => exact run.digits
  counted := .inl (List.cons_ne_nil _ _)
  begun := fun _ => List.cons_ne_nil _ _

/-- The number that a numeral of JSON spells, however great it is. -/
def Json.NumeralText.decimal (n : Json.NumeralText) : Decimal := n.spelling.decimal

theorem Json.NumeralText.chars_spelling (n : Json.NumeralText) : n.spelling.chars = n.chars := by
  obtain ⟨negative, whole, _, fraction, exponent⟩ := n
  cases negative <;> cases fraction <;> cases exponent <;> rfl

end MetricUpload
