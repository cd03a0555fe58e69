import MetricUpload.Proofs.Binary64.Spelling
import MetricUpload.WhiteSpace

namespace MetricUpload

namespace Json

inductive Bracket where
  | square
  | curly
  deriving DecidableEq

namespace Bracket

def opening : Bracket → Char
  | .square => '['
  | .curly => '{'

def closing : Bracket → Char
  | .square => ']'
  | .curly => '}'

end Bracket

/-- Behind a backslash a quote does not close a string. -/
inductive Quoting where
  | outside
  | inside
  | escaped
  deriving DecidableEq

/-- A scan that knows only of quotes and of the brackets that are open, innermost first. -/
structure Scan where
  quoting : Quoting
  opened : List Bracket
  deriving DecidableEq

namespace Scan

def start : Scan := ⟨.outside, []⟩

/-- A closing bracket outside strings belongs to the innermost open one. -/
def close (b : Bracket) : List Bracket → Option Scan
  | [] => none
  | top :: rest => if top = b then some ⟨.outside, rest⟩ else none

def step (s : Scan) (c : Char) : Option Scan :=
  match s.quoting with
  | .escaped => some ⟨.inside, s.opened⟩
  | .inside =>
    if c = '\\' then some ⟨.escaped, s.opened⟩
    else if c = '"' then some ⟨.outside, s.opened⟩
    else some s
  | .outside =>
    if c = '"' then some ⟨.inside, s.opened⟩
    else if c = '[' then some ⟨.outside, .square :: s.opened⟩
    else if c = '{' then some ⟨.outside, .curly :: s.opened⟩
    else if c = ']' then close .square s.opened
    else if c = '}' then close .curly s.opened
    else some s

def run (s : Scan) (text : List Char) : Option Scan := text.foldlM step s

theorem run_cons {s t : Scan} {c : Char} (h : s.step c = some t) (text : List Char) :
    s.run (c :: text) = t.run text := by
  simp only [run, List.foldlM_cons, h]
  rfl

/-- A character that may stand there: no control character, and outside strings no space. -/
def Admits (s : Scan) (c : Char) : Prop :=
  0x20 ≤ c.toNat ∧ (s.quoting = .outside → isSpace c = false)

/-- The scan goes over the text from one state to another, closes none of the brackets in `base` and
meets only characters that may stand where they do. -/
inductive Passes (base : List Bracket) : Scan → List Char → Scan → Prop
  | nil {s : Scan} (h : base <:+ s.opened) : Passes base s [] s
  | cons {s t u : Scan} {c : Char} {text : List Char} (h : base <:+ s.opened) (hc : s.Admits c)
      (hs : s.step c = some t) (rest : Passes base t text u) : Passes base s (c :: text) u

namespace Passes

variable {base : List Bracket} {s t u : Scan} {text more : List Char}

theorem append (h : Passes base s text t) (hm : Passes base t more u) :
    Passes base s (text ++ more) u := by
  induction h with
  | nil => exact hm
  | cons hb hc hs _ ih => exact .cons hb hc hs (ih hm)

theorem weaken {lower : List Bracket} (hl : lower <:+ base) (h : Passes base s text t) :
    Passes lower s text t := by
  induction h with
  | nil hb => exact .nil (hl.trans hb)
  | cons hb hc hs _ ih => exact .cons (hl.trans hb) hc hs ih

theorem run_eq (h : Passes base s text t) : s.run text = some t := by
  induction h with
  | nil => rfl
  | cons _ _ hs _ ih => rw [run_cons hs, ih]

/-- Wherever the text is cut, the brackets in `base` are open there. -/
theorem cut (h : Passes base s (text ++ more) u) :
    ∃ t, s.run text = some t ∧ base <:+ t.opened ∧ Passes base t more u := by
  induction text generalizing s with
  | nil =>
    refine ⟨s, rfl, ?_, h⟩
    cases h with
    | nil hb => exact hb
    | cons hb => exact hb
  | cons c text ih =>
    cases h with
    | cons hb hc hs rest =>
      obtain ⟨t, ht, hopen, hmore⟩ := ih rest
      exact ⟨t, (run_cons hs text).trans ht, hopen, hmore⟩

theorem admits {c : Char} (h : Passes base s (text ++ c :: more) u) :
    ∃ t, s.run text = some t ∧ t.Admits c := by
  obtain ⟨t, ht, _, hrest⟩ := h.cut
  cases hrest with
  | cons _ hc => exact ⟨t, ht, hc⟩

theorem visible (h : Passes base s text u) : ∀ c ∈ text, 0x20 ≤ c.toNat := by
  intro c hc
  obtain ⟨before, after, rfl⟩ := List.append_of_mem hc
  obtain ⟨_, _, ha⟩ := h.admits
  exact ha.1

end Passes

/-- A character that means nothing to a scan outside strings. -/
def Inert (c : Char) : Prop :=
  (∀ opened, step ⟨.outside, opened⟩ c = some ⟨.outside, opened⟩) ∧ 0x20 ≤ c.toNat ∧
    isSpace c = false

theorem inert_of_isDigit {c : Char} (h : c.isDigit = true) : Inert c := by
  simp only [Char.isDigit, Bool.and_eq_true, decide_eq_true_eq] at h
  have hlow : 48 ≤ c.toNat := h.1
  have hhigh : c.toNat ≤ 57 := h.2
  refine ⟨fun opened => ?_, by omega, ?_⟩
  · have hne : ∀ d : Char, ¬(48 ≤ d.toNat ∧ d.toNat ≤ 57) → c ≠ d := by
      rintro d hd rfl
      exact hd ⟨hlow, hhigh⟩
    simp [step, hne '"' (by decide), hne '[' (by decide), hne '{' (by decide),
      hne ']' (by decide), hne '}' (by decide)]
  · have : ¬c.toNat = 32 ∧ ¬c.toNat = 133 ∧ ¬c.toNat = 160 := by omega
    simp only [isSpace, Bool.or_eq_false_iff, Bool.and_eq_false_iff, decide_eq_false_iff_not,
      beq_eq_false_iff_ne]
    omega

/-- The marks of numerals, the separators, and the letters of the three literals. -/
def marks : List Char :=
  ['-', '+', '.', 'e', 'E', ',', ':', 'n', 'u', 'l', 't', 'r', 'f', 'a', 's']

theorem inert_of_mem {c : Char} (h : c ∈ marks) : Inert c := by
  have hvisible : ∀ d ∈ marks, 0x20 ≤ d.toNat ∧ isSpace d = false := by
    simp [marks, isSpace]
  have hplain : ∀ d ∈ marks, d ≠ '"' ∧ d ≠ '[' ∧ d ≠ '{' ∧ d ≠ ']' ∧ d ≠ '}' := by
    simp [marks]
  obtain ⟨h1, h2, h3, h4, h5⟩ := hplain c h
  refine ⟨fun opened => ?_, hvisible c h⟩
  simp only [step, h1, h2, h3, h4, h5, ↓reduceIte]

section

variable {opened : List Bracket}

theorem passes_inert {text : List Char} (h : ∀ c ∈ text, Inert c) :
    Passes opened ⟨.outside, opened⟩ text ⟨.outside, opened⟩ := by
  induction text with
  | nil => exact .nil List.suffix_rfl
  | cons c text ih =>
    obtain ⟨⟨hs, hlow, hspace⟩, hrest⟩ := List.forall_mem_cons.mp h
    exact .cons List.suffix_rfl ⟨hlow, fun _ => hspace⟩ (hs opened) (ih hrest)

theorem passes_marks {text : List Char} (h : ∀ c ∈ text, c ∈ marks) :
    Passes opened ⟨.outside, opened⟩ text ⟨.outside, opened⟩ :=
  passes_inert fun c hc => inert_of_mem (h c hc)

/-- A character inside a string that neither escapes nor closes. -/
theorem passes_plain {c : Char} (hback : c ≠ '\\') (hquote : c ≠ '"') (hlow : 0x20 ≤ c.toNat) :
    Passes opened ⟨.inside, opened⟩ [c] ⟨.inside, opened⟩ := by
  have hs : step ⟨.inside, opened⟩ c = some ⟨.inside, opened⟩ := by
    simp only [step, hback, hquote, ↓reduceIte]
  exact .cons List.suffix_rfl ⟨hlow, nofun⟩ hs (.nil List.suffix_rfl)

/-- Whatever stands behind a backslash does not close the string. -/
theorem passes_escape {c : Char} (hlow : 0x20 ≤ c.toNat) :
    Passes opened ⟨.inside, opened⟩ ['\\', c] ⟨.inside, opened⟩ := by
  have hback : step ⟨.inside, opened⟩ '\\' = some ⟨.escaped, opened⟩ := rfl
  have hc : step ⟨.escaped, opened⟩ c = some ⟨.inside, opened⟩ := rfl
  exact .cons List.suffix_rfl ⟨by decide, nofun⟩ hback
    (.cons List.suffix_rfl ⟨hlow, nofun⟩ hc (.nil List.suffix_rfl))

theorem passes_digitChar (n : Nat) (h : n < 16) :
    Passes opened ⟨.inside, opened⟩ [n.digitChar] ⟨.inside, opened⟩ := by
  have hplain : ∀ m : Fin 16, m.val.digitChar ≠ '\\' ∧ m.val.digitChar ≠ '"' ∧
      0x20 ≤ m.val.digitChar.toNat := by decide
  obtain ⟨hback, hquote, hlow⟩ := hplain ⟨n, h⟩
  exact passes_plain hback hquote hlow

theorem passes_escaped (c : Char) :
    Passes opened ⟨.inside, opened⟩ (escaped c) ⟨.inside, opened⟩ := by
  unfold escaped
  split
  · exact passes_escape (by decide)
  · exact passes_escape (by decide)
  · exact passes_escape (by decide)
  · exact passes_escape (by decide)
  · exact passes_escape (by decide)
  · exact passes_escape (by decide)
  · exact passes_escape (by decide)
  · next hquote hback _ _ _ _ _ =>
    split
    next hlow =>
      have hmark : Passes opened ⟨.inside, opened⟩ ['\\', 'u'] ⟨.inside, opened⟩ :=
        passes_escape (by decide)
      have hdigit : ∀ n < 16, Passes opened ⟨.inside, opened⟩ [n.digitChar] ⟨.inside, opened⟩ :=
        passes_digitChar
      have hzero := hdigit 0 (by decide)
      have hhigh := hdigit (c.toNat / 16) (by omega)
      have hlast := hdigit (c.toNat % 16) (by omega)
      exact hmark.append (hzero.append (hzero.append (hhigh.append hlast)))
    next hvisible => exact passes_plain hback hquote (by omega)

theorem passes_quoted (s : String) :
    Passes opened ⟨.outside, opened⟩ (quoted s) ⟨.outside, opened⟩ := by
  have hinside : ∀ text : List Char,
      Passes opened ⟨.inside, opened⟩ (text.flatMap escaped) ⟨.inside, opened⟩ := by
    intro text
    induction text with
    | nil => exact .nil List.suffix_rfl
    | cons c text ih => exact (passes_escaped c).append ih
  have hopen : step ⟨.outside, opened⟩ '"' = some ⟨.inside, opened⟩ := rfl
  have hclose : step ⟨.inside, opened⟩ '"' = some ⟨.outside, opened⟩ := rfl
  refine .cons List.suffix_rfl ⟨by decide, fun _ => by decide⟩ hopen ((hinside s.toList).append ?_)
  exact .cons List.suffix_rfl ⟨by decide, nofun⟩ hclose (.nil List.suffix_rfl)

/-- A bracket is closed by its own counterpart. -/
theorem passes_enclosed (b : Bracket) {inner : List Char}
    (h : Passes (b :: opened) ⟨.outside, b :: opened⟩ inner ⟨.outside, b :: opened⟩) :
    Passes opened ⟨.outside, opened⟩ (b.opening :: (inner ++ [b.closing])) ⟨.outside, opened⟩ := by
  have hopen : step ⟨.outside, opened⟩ b.opening = some ⟨.outside, b :: opened⟩ := by
    cases b <;> rfl
  have hclose : step ⟨.outside, b :: opened⟩ b.closing = some ⟨.outside, opened⟩ := by
    cases b <;> rfl
  have hadmits : ∀ c ∈ [b.opening, b.closing], 0x20 ≤ c.toNat ∧ isSpace c = false := by
    cases b <;> simp [isSpace, Bracket.opening, Bracket.closing]
  obtain ⟨hfirst, hlast⟩ : (0x20 ≤ b.opening.toNat ∧ isSpace b.opening = false) ∧
      0x20 ≤ b.closing.toNat ∧ isSpace b.closing = false := by simpa using hadmits
  refine .cons List.suffix_rfl ⟨hfirst.1, fun _ => hfirst.2⟩ hopen ?_
  refine (h.weaken (List.suffix_cons b opened)).append ?_
  exact .cons (List.suffix_cons b opened) ⟨hlast.1, fun _ => hlast.2⟩ hclose (.nil List.suffix_rfl)

end

end Scan

theorem NumeralText.inert (n : NumeralText) : ∀ c ∈ n.chars, Scan.Inert c := by
  have hrun : ∀ run : DigitRun, ∀ c ∈ run.chars, Scan.Inert c :=
    fun run c hc => Scan.inert_of_isDigit (run.digits c hc)
  have hfraction : ∀ c ∈ n.fractionChars, Scan.Inert c := by
    unfold fractionChars
    cases n.fraction with
    | none => simp
    | some run => exact List.forall_mem_cons.mpr ⟨Scan.inert_of_mem (by decide), hrun run⟩
  have hexponent : ∀ c ∈ n.exponentChars, Scan.Inert c := by
    unfold exponentChars
    cases n.exponent with
    | none => simp
    | some e =>
      have hmark : Scan.Inert e.mark := by
        unfold ExponentPart.mark
        split <;> exact Scan.inert_of_mem (by decide)
      have hsign : ∀ c ∈ e.signChars, Scan.Inert c := by
        unfold ExponentPart.signChars
        split
        · simp
        · exact List.forall_mem_singleton.mpr (Scan.inert_of_mem (by decide))
        · exact List.forall_mem_singleton.mpr (Scan.inert_of_mem (by decide))
      exact List.forall_mem_cons.mpr ⟨hmark, List.forall_mem_append.mpr ⟨hsign, hrun e.run⟩⟩
  have hmagnitude : ∀ c ∈ n.magnitudeChars, Scan.Inert c :=
    List.forall_mem_append.mpr ⟨hrun n.whole, List.forall_mem_append.mpr ⟨hfraction, hexponent⟩⟩
  unfold chars
  split
  · exact List.forall_mem_cons.mpr ⟨Scan.inert_of_mem (by decide), hmagnitude⟩
  · exact hmagnitude

namespace Scan

theorem passes_number {opened : List Bracket} (n : Number) :
    Passes opened ⟨.outside, opened⟩ n.chars ⟨.outside, opened⟩ := by
  obtain ⟨t, ht⟩ := exists_numeralText_of_number n
  rw [← ht]
  exact passes_inert t.inert

theorem passes_mark {opened : List Bracket} {c : Char} (h : Inert c) {text : List Char}
    (ht : Passes opened ⟨.outside, opened⟩ text ⟨.outside, opened⟩) :
    Passes opened ⟨.outside, opened⟩ (c :: text) ⟨.outside, opened⟩ :=
  (passes_inert (List.forall_mem_singleton.mpr h)).append ht

mutual

/-- A scan returns from the compact text of a value as it entered it. -/
theorem passes_chars : ∀ (v : Json) (opened : List Bracket),
    Passes opened ⟨.outside, opened⟩ v.chars ⟨.outside, opened⟩
  | .null, _ => passes_marks (by simp [marks] : ∀ c ∈ ['n', 'u', 'l', 'l'], c ∈ marks)
  | .bool true, _ => passes_marks (by simp [marks] : ∀ c ∈ ['t', 'r', 'u', 'e'], c ∈ marks)
  | .bool false, _ => passes_marks (by simp [marks] : ∀ c ∈ ['f', 'a', 'l', 's', 'e'], c ∈ marks)
  | .number n, _ => passes_number n
  | .string s, _ => passes_quoted s
  | .array [], opened => passes_enclosed .square (.nil List.suffix_rfl)
  | .array (item :: items), opened => by
    obtain ⟨inner, hinner, h⟩ := passes_moreItems items (.square :: opened)
    have hchars : (Json.array (item :: items)).chars = '[' :: ((item.chars ++ inner) ++ [']']) := by
      rw [chars, hinner, List.append_assoc]
    rw [hchars]
    exact passes_enclosed .square ((passes_chars item _).append h)
  | .object members, opened => by
    obtain ⟨inner, hinner, h⟩ := passes_object members (.curly :: opened)
    rw [hinner]
    exact passes_enclosed .curly h

theorem passes_moreItems : ∀ (items : List Json) (opened : List Bracket),
    ∃ inner, moreItems items = inner ++ [']'] ∧
      Passes opened ⟨.outside, opened⟩ inner ⟨.outside, opened⟩
  | [], _ => ⟨[], rfl, .nil List.suffix_rfl⟩
  | item :: items, opened => by
    obtain ⟨inner, hinner, h⟩ := passes_moreItems items opened
    refine ⟨',' :: (item.chars ++ inner), ?_, ?_⟩
    · rw [moreItems, hinner, List.cons_append, List.append_assoc]
    · exact passes_mark (inert_of_mem (by decide)) ((passes_chars item opened).append h)

theorem passes_moreMembers : ∀ (members : List (String × Json)) (opened : List Bracket),
    ∃ inner, moreMembers members = inner ++ ['}'] ∧
      Passes opened ⟨.outside, opened⟩ inner ⟨.outside, opened⟩
  | [], _ => ⟨[], rfl, .nil List.suffix_rfl⟩
  | (key, value) :: members, opened => by
    obtain ⟨inner, hinner, h⟩ := passes_moreMembers members opened
    have hcolon : Inert ':' := inert_of_mem (by decide)
    have hvalue := passes_mark hcolon ((passes_chars value opened).append h)
    refine ⟨',' :: (quoted key ++ ':' :: (value.chars ++ inner)), ?_, ?_⟩
    · rw [moreMembers, hinner]
      simp only [List.cons_append, List.append_assoc]
    · exact passes_mark (inert_of_mem (by decide)) ((passes_quoted key).append hvalue)

theorem passes_object : ∀ (members : List (String × Json)) (opened : List Bracket),
    ∃ inner, (Json.object members).chars = '{' :: (inner ++ ['}']) ∧
      Passes opened ⟨.outside, opened⟩ inner ⟨.outside, opened⟩
  | [], _ => ⟨[], rfl, .nil List.suffix_rfl⟩
  | (key, value) :: members, opened => by
    obtain ⟨inner, hinner, h⟩ := passes_moreMembers members opened
    have hcolon : Inert ':' := inert_of_mem (by decide)
    have hvalue := passes_mark hcolon ((passes_chars value opened).append h)
    refine ⟨quoted key ++ ':' :: (value.chars ++ inner), ?_, (passes_quoted key).append hvalue⟩
    rw [chars, hinner]
    simp only [List.cons_append, List.append_assoc]

end

end Scan

end Json

end MetricUpload
