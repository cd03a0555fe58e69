import MetricUpload.CommandLine

namespace MetricUpload

namespace Parameter

theorem ofName?_eq_some_iff {name : String} {p : Parameter} :
    ofName? name = some p ↔ name = p.name := by
  constructor
  · intro h
    have hname := List.find?_some h
    exact (of_decide_eq_true hname).symm
  · rintro rfl
    cases p <;> decide

theorem mem_all (p : Parameter) : p ∈ all := by
  cases p <;> decide

theorem name_not_assigned (p : Parameter) : ∀ c ∈ p.name.toList, (c != '=') = true := by
  have hall : p.name.toList.all (· != '=') = true := by cases p <;> decide
  exact List.all_eq_true.mp hall

theorem name_ne_empty (p : Parameter) : p.name ≠ "" := by
  cases p <;> simp [name]

theorem flag_toList (p : Parameter) : p.flag.toList = '-' :: '-' :: p.name.toList := by
  simp [flag, String.toList_append]

end Parameter

namespace Argument

/-- A text that can stand for itself: it begins with a dash only when it is a lone one. -/
def IsWord (text : String) : Prop := text = "-" ∨ text.toList.head? ≠ some '-'

/-- A name, and what is assigned to it. -/
def assigned : Option String → List Char
  | none => []
  | some value => '=' :: value.toList

theorem attached?_assigned {name : List Char} (h : ∀ c ∈ name, (c != '=') = true)
    (value : Option String) : attached? (name ++ assigned value) = value := by
  induction name with
  | nil =>
    cases value with
    | none => rfl
    | some value => simp [assigned, attached?]
  | cons c cs ih =>
    obtain ⟨hc, hcs⟩ := List.forall_mem_cons.mp h
    have hne : (c == '=') = false := by simpa using hc
    simp only [List.cons_append, attached?, hne, Bool.false_eq_true, ↓reduceIte, ih hcs]

theorem takeWhile_assigned {name : List Char} (h : ∀ c ∈ name, (c != '=') = true)
    (value : Option String) : (name ++ assigned value).takeWhile (· != '=') = name := by
  rw [List.takeWhile_append_of_pos h]
  cases value <;> simp [assigned]

/-- A text is what stands before its first sign of assignment and what that sign assigns. -/
theorem takeWhile_append_attached? (text : List Char) :
    text.takeWhile (· != '=') ++ assigned (attached? text) = text := by
  induction text with
  | nil => rfl
  | cons c cs ih =>
    by_cases hc : c = '='
    · simp [attached?, assigned, hc]
    · have hne : (c == '=') = false := by simpa using hc
      simp only [List.takeWhile_cons, attached?, bne, hne, Bool.not_false, Bool.false_eq_true,
        ↓reduceIte, List.cons_append] at ih ⊢
      rw [ih]

theorem ofString_long {name : String} (hname : ∀ c ∈ name.toList, (c != '=') = true)
    (hne : name ≠ "") {text : String} {value : Option String}
    (h : text.toList = '-' :: '-' :: (name.toList ++ assigned value)) :
    ofString text = .long name value := by
  obtain ⟨c, cs, hcs⟩ : ∃ c cs, name.toList = c :: cs := by
    cases hchars : name.toList with
    | nil => exact absurd (String.toList_eq_nil_iff.mp hchars) hne
    | cons c cs => exact ⟨c, cs, rfl⟩
  have hattached := attached?_assigned hname value
  have htake := takeWhile_assigned hname value
  rw [hcs, List.cons_append] at h hattached htake
  simp only [ofString, h, hattached, htake, ← hcs, String.ofList_toList]

theorem ofString_word {text : String} (h : IsWord text) : ofString text = .word text := by
  rcases h with rfl | hhead
  · decide
  · unfold ofString
    split
    next hchars => simp [hchars] at hhead
    next hchars => simp [hchars] at hhead
    next hchars => simp [hchars] at hhead
    next => rfl

/-- All forms of an argument. -/
theorem ofString_cases (text : String) :
    (text = "--" ∧ ofString text = .separator) ∨
    (∃ name value, text.toList = '-' :: '-' :: (name.toList ++ assigned value) ∧
      ofString text = .long name value) ∨
    (∃ letter, ofString text = .short letter) ∨
    (IsWord text ∧ ofString text = .word text) := by
  unfold ofString
  split
  next hchars => exact .inl ⟨String.toList_inj.mp hchars, rfl⟩
  next cs _ hchars =>
    refine .inr (.inl ⟨_, _, ?_, rfl⟩)
    rw [String.toList_ofList, takeWhile_append_attached?, hchars]
  next => exact .inr (.inr (.inl ⟨_, rfl⟩))
  next hseparator hlong hshort =>
    refine .inr (.inr (.inr ⟨?_, rfl⟩))
    cases hchars : text.toList with
    | nil => exact .inr (by simp [hchars])
    | cons c cs =>
      by_cases hc : c = '-'
      · subst hc
        cases cs with
        | nil => exact .inl (String.toList_inj.mp hchars)
        | cons letter rest => exact absurd hchars (hshort letter rest)
      · exact .inr (by simpa [hchars] using hc)

end Argument

namespace CommandLine

/-- A part of a command line: a parameter with its value in one argument or in two, or the file. -/
inductive Part where
  | attached (p : Parameter) (value : String)
  | separate (p : Parameter) (value : String) (word : Argument.IsWord value)
  | file (path : String) (word : Argument.IsWord path)

namespace Part

def arguments : Part → List String
  | .attached p value => [p.flag ++ "=" ++ value]
  | .separate p value _ => [p.flag, value]
  | .file path _ => [path]

/-- What a part gives. -/
def content : Part → Slot × String
  | .attached p value | .separate p value _ => (.parameter p, value)
  | .file path _ => (.file, path)

theorem arguments_ne_nil (part : Part) : part.arguments ≠ [] := by
  cases part <;> simp [arguments]

end Part

/-- The end of a command line: nothing, or a separator with nothing but the file behind it, if the
file has not been given before. -/
inductive Ending where
  | plain
  | separator
  | separated (path : String)

namespace Ending

def arguments : Ending → List String
  | .plain => []
  | .separator => ["--"]
  | .separated path => ["--", path]

def content : Ending → List (Slot × String)
  | .plain | .separator => []
  | .separated path => [(.file, path)]

end Ending

/-- A command line as a row of parts. -/
structure Spelling where
  parts : List Part
  ending : Ending

namespace Spelling

def arguments (s : Spelling) : List String := s.parts.flatMap Part.arguments ++ s.ending.arguments

def contents (s : Spelling) : List (Slot × String) := s.parts.map Part.content ++ s.ending.content

end Spelling

end CommandLine

/-- All that settings hold, each under what it was given as. -/
def Settings.contents (s : Settings) : List (Slot × String) :=
  [(.parameter .logGroup, s.target.logGroup), (.parameter .logStream, s.target.logStream),
    (.file, s.file)] ++ (s.region.map fun region => (.parameter .region, region)).toList

namespace Argument

theorem ofString_attached (p : Parameter) (value : String) :
    ofString (p.flag ++ "=" ++ value) = .long p.name (some value) := by
  refine ofString_long p.name_not_assigned p.name_ne_empty ?_
  simp [String.toList_append, Parameter.flag_toList, assigned]

theorem ofString_flag (p : Parameter) : ofString p.flag = .long p.name none := by
  refine ofString_long p.name_not_assigned p.name_ne_empty ?_
  simp [Parameter.flag_toList, assigned]

theorem eq_flag {p : Parameter} {text : String} {value : Option String}
    (h : text.toList = '-' :: '-' :: (p.name.toList ++ assigned value)) :
    text = match value with
      | none => p.flag
      | some value => p.flag ++ "=" ++ value := by
  apply String.toList_inj.mp
  cases value <;> simp [h, String.toList_append, Parameter.flag_toList, assigned]

end Argument

end MetricUpload
