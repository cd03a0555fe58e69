import MetricUpload.Proofs.Json.Enclosure
import MetricUpload.Proofs.Upload.Delivery

namespace MetricUpload

namespace Json

theorem byteCount_append (first second : List Char) :
    byteCount (first ++ second) = byteCount first + byteCount second := by
  induction first with
  | nil => simp [byteCount]
  | cons c cs ih =>
    simp only [List.cons_append, byteCount, ih]
    omega

theorem utf8ByteSize_ofList (text : List Char) :
    (String.ofList text).utf8ByteSize = byteCount text := by
  induction text with
  | nil => rfl
  | cons c cs ih =>
    rw [String.ofList_cons, String.utf8ByteSize_append, String.utf8ByteSize_singleton, ih]
    rfl

/-- A place behind the first byte of a character and before its end. -/
def WithinCharacter (text : List Char) (n : Nat) : Prop :=
  ∃ before c after, text = before ++ c :: after ∧ byteCount before < n ∧
    n < byteCount before + c.utf8Size

theorem boundary_or_within {text : List Char} {n : Nat} (h : n ≤ byteCount text) :
    (∃ cut rest, text = cut ++ rest ∧ byteCount cut = n) ∨ WithinCharacter text n := by
  induction text generalizing n with
  | nil =>
    have hn : n = 0 := by simpa [byteCount] using h
    exact .inl ⟨[], [], rfl, hn.symm⟩
  | cons c cs ih =>
    simp only [byteCount] at h
    by_cases hzero : n = 0
    · exact .inl ⟨[], c :: cs, rfl, hzero.symm⟩
    · by_cases hless : n < c.utf8Size
      · exact .inr ⟨[], c, cs, rfl, by simp only [byteCount]; omega, by simpa [byteCount] using hless⟩
      · rcases ih (by omega : n - c.utf8Size ≤ byteCount cs) with
          ⟨cut, rest, rfl, hcut⟩ | ⟨before, d, after, rfl, hlow, hhigh⟩
        · exact .inl ⟨c :: cut, rest, rfl, by simp only [byteCount]; omega⟩
        · refine .inr ⟨c :: before, d, after, rfl, ?_, ?_⟩
          · simp only [byteCount]
            omega
          · simp only [byteCount]
            omega

theorem not_withinCharacter (cut rest : List Char) :
    ¬WithinCharacter (cut ++ rest) (byteCount cut) := by
  rintro ⟨before, c, after, htext, hlow, hhigh⟩
  rcases List.append_eq_append_iff.mp htext with ⟨more, rfl, _⟩ | ⟨more, rfl, hmore⟩
  · rw [byteCount_append] at hlow
    omega
  · rw [byteCount_append] at hlow hhigh
    cases more with
    | nil =>
      simp only [byteCount] at hlow
      omega
    | cons d more =>
      rw [List.cons_append, List.cons.injEq] at hmore
      obtain ⟨rfl, _⟩ := hmore
      simp only [byteCount] at hhigh
      omega

theorem byteCount_lt_of_within {text : List Char} {n : Nat} (h : WithinCharacter text n) :
    n < byteCount text := by
  obtain ⟨before, c, after, rfl, _, hhigh⟩ := h
  simp only [byteCount_append, byteCount]
  omega

/-- Where fewer bytes than the first part has are taken, some of it is missing. -/
theorem exists_missing {whole after cut rest : List Char} (h : whole ++ after = cut ++ rest)
    (hless : byteCount cut < byteCount whole) : ∃ missing, whole = cut ++ missing ∧ missing ≠ [] := by
  rcases List.append_eq_append_iff.mp h with ⟨more, rfl, _⟩ | ⟨missing, rfl, _⟩
  · rw [byteCount_append] at hless
    omega
  · refine ⟨missing, rfl, ?_⟩
    rintro rfl
    rw [List.append_nil] at hless
    omega

theorem extract_toUTF8 (cut rest : List Char) :
    (String.ofList (cut ++ rest)).toUTF8.extract 0 (byteCount cut) = (String.ofList cut).toUTF8 := by
  simp only [String.toUTF8_eq_toByteArray, String.ofList_append, String.toByteArray_append]
  apply ByteArray.extract_append_eq_left
  rw [String.size_toByteArray, utf8ByteSize_ofList]

/-- A text that is cut inside a character is no text. -/
theorem not_isValidUTF8_extract {text : List Char} {n : Nat} (h : WithinCharacter text n) :
    ¬((String.ofList text).toUTF8.extract 0 n).IsValidUTF8 := by
  intro hvalid
  have hless := byteCount_lt_of_within h
  rw [String.toUTF8_eq_toByteArray] at hvalid
  have hpos : String.Pos.Raw.IsValid (String.ofList text) ⟨n⟩ := by
    refine String.Pos.Raw.isValid_iff_isValidUTF8_extract_zero.mpr ⟨?_, hvalid⟩
    rw [String.Pos.Raw.le_iff, String.byteIdx_rawEndPos, utf8ByteSize_ofList]
    show n ≤ byteCount text
    omega
  obtain ⟨cut, rest, htext, hn⟩ := String.Pos.Raw.isValid_iff_exists_append.mp hpos
  have hcount : n = byteCount cut.toList := by
    rw [← utf8ByteSize_ofList, String.ofList_toList]
    exact congrArg String.Pos.Raw.byteIdx hn
  have hchars := congrArg String.toList htext
  rw [String.toList_ofList, String.toList_append] at hchars
  rw [hchars, hcount] at h
  exact not_withinCharacter _ _ h

end Json

namespace Disk

variable {disk : Disk} {path : String}

theorem readText_cut {cut rest : List Char}
    (h : disk path = .ok ((String.ofList (cut ++ rest)).toUTF8.extract 0 (Json.byteCount cut))) :
    disk.readText path = .ok (String.ofList cut) := by
  rw [Json.extract_toUTF8] at h
  exact readText_of_utf8 h

theorem readText_within {text : List Char} {n : Nat} (hn : Json.WithinCharacter text n)
    (h : disk path = .ok ((String.ofList text).toUTF8.extract 0 n)) :
    disk.readText path = .error .notUtf8 := by
  exact readText_of_not_utf8 h (Json.not_isValidUTF8_extract hn)

end Disk

namespace RecordSet

variable {d : Json.Document} {disk : Disk} {path : String}

theorem load_of_conclude {text : String} {cause : Json.Cause}
    (htext : disk.readText path = .ok text)
    (h : Json.conclude Json.start text.toList = .error cause) :
    ∃ fault, load disk path = .error (.badFile path fault) := by
  obtain ⟨fault, hread⟩ := Json.read_fault_of_conclude h
  exact ⟨fault, by simp only [load, htext, hread]⟩

theorem load_cut (container : d.tree.IsContainer) {cut rest : List Char}
    (hchars : d.chars = cut ++ rest)
    (hless : Json.byteCount cut < Json.byteCount (d.before.chars ++ d.tree.chars))
    (hdisk : disk path = .ok (d.text.toUTF8.extract 0 (Json.byteCount cut))) :
    ∃ fault, load disk path = .error (.badFile path fault) := by
  rw [Json.Document.text, hchars] at hdisk
  rw [Json.Document.chars, ← List.append_assoc] at hchars
  obtain ⟨missing, hmissing, hne⟩ := Json.exists_missing hchars hless
  obtain ⟨cause, hcause⟩ := Json.Document.conclude_cut container hmissing hne
  have htext : (String.ofList cut).toList = cut := String.toList_ofList
  rw [← htext] at hcause
  exact load_of_conclude (Disk.readText_cut hdisk) hcause

theorem load_extended (container : d.tree.IsContainer) {extra : String}
    (hextra : ∃ c ∈ extra.toList, Json.isBlank c = false)
    (hdisk : disk path = .ok (d.text ++ extra).toUTF8) :
    ∃ fault, load disk path = .error (.badFile path fault) := by
  obtain ⟨cause, hcause⟩ := Json.Document.conclude_extended container hextra
  have htext : (d.text ++ extra).toList = d.chars ++ extra.toList := by
    rw [String.toList_append, Json.Document.text, String.toList_ofList]
  rw [← htext] at hcause
  exact load_of_conclude (Disk.readText_of_utf8 hdisk) hcause

end RecordSet

namespace Upload

/-- A file that was cut short before its closing bracket, or to which more was joined, is refused as a
whole: before the clock is read and without a call. -/
theorem run_refuses_part {d : Json.Document} (container : d.tree.IsContainer) {disk : Disk}
    {path : String} :
    (∀ n, n < Json.byteCount (d.before.chars ++ d.tree.chars) →
      disk path = .ok (d.text.toUTF8.extract 0 n) →
      ∃ e, RecordSet.load disk path = .error e ∧
        (Json.WithinCharacter d.chars n → e = .unreadable path .notUtf8) ∧
        (¬Json.WithinCharacter d.chars n → ∃ fault, e = .badFile path fault) ∧
        ∀ target sink clock, run disk path target sink clock = ⟨.error e, [], clock⟩) ∧
    ∀ extra : String, (∃ c ∈ extra.toList, c ≠ ' ' ∧ c ≠ '\t' ∧ c ≠ '\n' ∧ c ≠ '\r') →
      disk path = .ok (d.text ++ extra).toUTF8 →
      ∃ fault, RecordSet.load disk path = .error (.badFile path fault) ∧
        ∀ target sink clock,
          run disk path target sink clock = ⟨.error (.badFile path fault), [], clock⟩ := by
  constructor
  · intro n hn hdisk
    have hlength : n ≤ Json.byteCount d.chars := by
      rw [Json.Document.chars, ← List.append_assoc, Json.byteCount_append]
      omega
    rcases Json.boundary_or_within hlength with ⟨cut, rest, hchars, rfl⟩ | hwithin
    · obtain ⟨fault, hload⟩ := RecordSet.load_cut container hchars hn hdisk
      refine ⟨_, hload, ?_, fun _ => ⟨fault, rfl⟩, run_of_load_error hload⟩
      intro hwithin
      rw [hchars] at hwithin
      exact absurd hwithin (Json.not_withinCharacter cut rest)
    · have hread := Disk.readText_within hwithin hdisk
      have hload : RecordSet.load disk path = .error (.unreadable path .notUtf8) := by
        simp only [RecordSet.load, hread]
      exact ⟨_, hload, fun _ => rfl, fun hno => absurd hwithin hno, run_of_load_error hload⟩
  · intro extra hextra hdisk
    have hnot : ∃ c ∈ extra.toList, Json.isBlank c = false := by
      obtain ⟨c, hc, hspace, htab, hline, hreturn⟩ := hextra
      exact ⟨c, hc, by simp [Json.isBlank, hspace, htab, hline, hreturn]⟩
    obtain ⟨fault, hload⟩ := RecordSet.load_extended container hnot hdisk
    exact ⟨fault, hload, run_of_load_error hload⟩

/-- An object with one member, whose key has two bytes. -/
def small : Json.Document :=
  ⟨.none, .object (.last (Json.literalName "é") .none .null .none), .none⟩

theorem run_refuses_part_small :
    small.text = "\x7b\"é\":null\x7d" ∧
      RecordSet.load (fun _ => .ok (small.text.toUTF8.extract 0 3)) "small.json" =
        .error (.unreadable "small.json" .notUtf8) ∧
      (∃ fault, RecordSet.load (fun _ => .ok (small.text.toUTF8.extract 0 2)) "small.json" =
        .error (.badFile "small.json" fault)) ∧
      ∃ fault, RecordSet.load (fun _ => .ok (small.text ++ "[]").toUTF8) "small.json" =
        .error (.badFile "small.json" fault) := by
  have container : small.tree.IsContainer := trivial
  have hlength : Json.byteCount (small.before.chars ++ small.tree.chars) = 11 := by decide
  refine ⟨by decide, ?_, ?_, ?_⟩
  · have hwithin : Json.WithinCharacter small.chars 3 :=
      ⟨['{', '"'], 'é', _, rfl, by decide, by decide⟩
    obtain ⟨e, hload, he, _⟩ := (@run_refuses_part small container
      (fun _ => .ok (small.text.toUTF8.extract 0 3)) "small.json").1 3 (by omega) rfl
    rw [hload, he hwithin]
  · have hboundary : ¬Json.WithinCharacter small.chars 2 :=
      Json.not_withinCharacter ['{', '"'] _
    obtain ⟨e, hload, _, he, _⟩ := (@run_refuses_part small container
      (fun _ => .ok (small.text.toUTF8.extract 0 2)) "small.json").1 2 (by omega) rfl
    obtain ⟨fault, he⟩ := he hboundary
    exact ⟨fault, by rw [hload, he]⟩
  · obtain ⟨fault, hload, _⟩ := (@run_refuses_part small container
      (fun _ => .ok (small.text ++ "[]").toUTF8) "small.json").2 "[]"
      ⟨'[', by decide, by decide⟩ rfl
    exact ⟨fault, hload⟩

end Upload

end MetricUpload
