import MetricUpload.Proofs.Decimal.Spelling
import MetricUpload.Reply.Value

namespace MetricUpload

namespace Reply

/-- What may stand between two quotes: a backslash goes with any character behind it, control
characters and quotes only with one. -/
inductive RawText : List Char → Prop
  | nil : RawText []
  | plain {c : Char} {raw : List Char} (h : c ≠ '"' ∧ c ≠ '\\' ∧ 0x20 ≤ c.toNat)
      (more : RawText raw) : RawText (c :: raw)
  | shielded (c : Char) {raw : List Char} (more : RawText raw) : RawText ('\\' :: c :: raw)

def KeyWritten (raw text : List Char) : Prop :=
  RawText raw ∧ ∃ before after : Json.Blanks,
    text = before.chars ++ '"' :: (raw ++ '"' :: after.chars)

mutual

/-- A value and a text of it. This is the notation of JSON with fewer rules for numerals and for
escapes. -/
inductive Written : Value → List Char → Prop
  | null : Written .null ['n', 'u', 'l', 'l']
  | isTrue : Written (.bool true) ['t', 'r', 'u', 'e']
  | isFalse : Written (.bool false) ['f', 'a', 'l', 's', 'e']
  | number (s : Decimal.Spelling) : Written (.number s.decimal) s.chars
  | string {raw : List Char} (h : RawText raw) : Written (.string raw) ('"' :: (raw ++ ['"']))
  | emptyArray (inner : Json.Blanks) : Written (.array []) ('[' :: (inner.chars ++ [']']))
  | array {items : List Value} {inside : List Char} (h : ItemsWritten items inside) :
      Written (.array items) ('[' :: (inside ++ [']']))
  | emptyObject (inner : Json.Blanks) : Written (.object []) ('{' :: (inner.chars ++ ['}']))
  | object {members : List (List Char × Value)} {inside : List Char}
      (h : MembersWritten members inside) : Written (.object members) ('{' :: (inside ++ ['}']))

/-- Items between commas. -/
inductive ItemsWritten : List Value → List Char → Prop
  | last {item : Value} {text : List Char} (before after : Json.Blanks) (h : Written item text) :
      ItemsWritten [item] (before.chars ++ (text ++ after.chars))
  | more {item : Value} {items : List Value} {text rest : List Char} (before after : Json.Blanks)
      (h : Written item text) (hs : ItemsWritten items rest) :
      ItemsWritten (item :: items) (before.chars ++ (text ++ (after.chars ++ ',' :: rest)))

/-- Members between commas. -/
inductive MembersWritten : List (List Char × Value) → List Char → Prop
  | last {raw : List Char} {v : Value} {key text : List Char} (before after : Json.Blanks)
      (hk : KeyWritten raw key) (h : Written v text) :
      MembersWritten [(raw, v)] (key ++ ':' :: (before.chars ++ (text ++ after.chars)))
  | more {raw : List Char} {v : Value} {members : List (List Char × Value)}
      {key text rest : List Char} (before after : Json.Blanks) (hk : KeyWritten raw key)
      (h : Written v text) (hs : MembersWritten members rest) :
      MembersWritten ((raw, v) :: members)
        (key ++ ':' :: (before.chars ++ (text ++ (after.chars ++ ',' :: rest))))

end

theorem rawString?_of_rawText {raw : List Char} (h : RawText raw) (rest : List Char) :
    rawString? (raw ++ '"' :: rest) = some (raw, rest) := by
  induction h with
  | nil => rfl
  | @plain c raw h more ih =>
    obtain ⟨hquote, hbackslash, hlow⟩ := h
    have hvisible : ¬c.toNat < 0x20 := by omega
    rw [List.cons_append, rawString?.eq_def]
    simp [hbackslash, hvisible, ih]
  | shielded c more ih => simp only [List.cons_append, rawString?, ih, Option.map_some]

theorem rawText_of_rawString? {cs raw rest : List Char} (h : rawString? cs = some (raw, rest)) :
    RawText raw ∧ cs = raw ++ '"' :: rest := by
  fun_induction rawString? cs generalizing raw with
  | case1 => cases h
  | case2 cs =>
    cases h
    exact ⟨.nil, rfl⟩
  | case3 c cs ih =>
    obtain ⟨⟨raw, rest⟩, hraw, heq⟩ := Option.map_eq_some_iff.mp h
    cases heq
    obtain ⟨htext, rfl⟩ := ih hraw
    exact ⟨.shielded c htext, rfl⟩
  | case4 c cs hlow => cases h
  | case5 c cs hquote hshield hlow ih =>
    obtain ⟨⟨raw, rest⟩, hraw, heq⟩ := Option.map_eq_some_iff.mp h
    cases heq
    have hbackslash : c ≠ '\\' := by
      rintro rfl
      cases cs with
      | nil => cases hraw
      | cons c cs => exact hshield c cs rfl rfl
    obtain ⟨htext, rfl⟩ := ih hraw
    exact ⟨.plain ⟨hquote, hbackslash, by omega⟩ htext, rfl⟩

theorem exists_blanks (cs : List Char) :
    ∃ before : Json.Blanks, cs = before.chars ++ skipBlanks cs :=
  ⟨⟨cs.takeWhile Json.isBlank, List.all_eq_true.mp List.all_takeWhile⟩,
    List.takeWhile_append_dropWhile.symm⟩

theorem exists_spelling_of_number? {cs rest : List Char} {v : Value}
    (h : number? cs = some (v, rest)) :
    ∃ s : Decimal.Spelling, v = .number s.decimal ∧ cs = s.chars ++ rest := by
  unfold number? at h
  split at h
  next => cases h
  next c cs =>
    split at h
    next begun =>
      obtain ⟨d, hd, heq⟩ := Option.map_eq_some_iff.mp h
      cases heq
      have hnumeral : isNumeralChar c = true := by
        rw [Bool.or_eq_true, beq_iff_eq] at begun
        rcases begun with rfl | hdigit
        · rfl
        · simp only [isNumeralChar, hdigit, Bool.true_or]
      rw [List.takeWhile_cons_of_pos hnumeral] at hd
      obtain ⟨s, hchars, rfl⟩ := Decimal.exists_spelling begun hd
      refine ⟨s, rfl, ?_⟩
      rw [hchars, ← List.takeWhile_cons_of_pos hnumeral, List.takeWhile_append_dropWhile]
    next => cases h

mutual

-- By recursion on the fuel, a case for each character that a value can begin with.
/-- What is read as a value is one, behind blanks. -/
theorem written_of_value? : ∀ (fuel : Nat) {cs rest : List Char} {v : Value},
    value? fuel cs = some (v, rest) →
      ∃ (before : Json.Blanks) (text : List Char),
        cs = before.chars ++ (text ++ rest) ∧ Written v text
  | 0, _, _, _, h => by cases h
  | fuel + 1, cs, rest, v, h => by
    obtain ⟨before, hbefore⟩ := exists_blanks cs
    unfold value? at h
    refine ⟨before, ?_⟩
    split at h
    next hcs =>
      cases h
      exact ⟨_, by rw [hbefore, hcs]; rfl, .null⟩
    next hcs =>
      cases h
      exact ⟨_, by rw [hbefore, hcs]; rfl, .isTrue⟩
    next hcs =>
      cases h
      exact ⟨_, by rw [hbefore, hcs]; rfl, .isFalse⟩
    next inside hcs =>
      obtain ⟨⟨raw, rest⟩, hraw, heq⟩ := Option.map_eq_some_iff.mp h
      cases heq
      obtain ⟨htext, rfl⟩ := rawText_of_rawString? hraw
      exact ⟨_, by rw [hbefore, hcs]; simp, .string htext⟩
    next inside hcs =>
      split at h
      next hinside =>
        cases h
        obtain ⟨inner, hinner⟩ := exists_blanks inside
        exact ⟨_, by rw [hbefore, hcs, hinner, hinside]; simp, .emptyArray inner⟩
      next =>
        obtain ⟨⟨items, rest⟩, hitems, heq⟩ := Option.map_eq_some_iff.mp h
        cases heq
        obtain ⟨inside, rfl, hwritten⟩ := written_of_items? fuel hitems
        exact ⟨_, by rw [hbefore, hcs]; simp, .array hwritten⟩
    next inside hcs =>
      split at h
      next hinside =>
        cases h
        obtain ⟨inner, hinner⟩ := exists_blanks inside
        exact ⟨_, by rw [hbefore, hcs, hinner, hinside]; simp, .emptyObject inner⟩
      next =>
        obtain ⟨⟨members, rest⟩, hmembers, heq⟩ := Option.map_eq_some_iff.mp h
        cases heq
        obtain ⟨inside, rfl, hwritten⟩ := written_of_members? fuel hmembers
        exact ⟨_, by rw [hbefore, hcs]; simp, .object hwritten⟩
    next =>
      obtain ⟨s, rfl, hcs⟩ := exists_spelling_of_number? h
      exact ⟨_, by rw [hbefore, hcs], .number s⟩

theorem written_of_items? : ∀ (fuel : Nat) {cs rest : List Char} {items : List Value},
    items? fuel cs = some (items, rest) →
      ∃ inside, cs = inside ++ ']' :: rest ∧ ItemsWritten items inside
  | 0, _, _, _, h => by cases h
  | fuel + 1, cs, rest, items, h => by
    unfold items? at h
    obtain ⟨⟨v, behind⟩, hv, hnext⟩ := Option.bind_eq_some_iff.mp h
    obtain ⟨before, text, rfl, hwritten⟩ := written_of_value? fuel hv
    obtain ⟨after, hafter⟩ := exists_blanks behind
    dsimp only at hnext
    split at hnext
    next hbehind =>
      cases hnext
      exact ⟨_, by rw [hafter, hbehind]; simp, .last before after hwritten⟩
    next hbehind =>
      obtain ⟨⟨items, rest⟩, hitems, heq⟩ := Option.bind_eq_some_iff.mp hnext
      cases heq
      obtain ⟨inside, rfl, hmore⟩ := written_of_items? fuel hitems
      exact ⟨_, by rw [hafter, hbehind]; simp, .more before after hwritten hmore⟩
    next => cases hnext

theorem written_of_members? : ∀ (fuel : Nat) {cs rest : List Char}
    {members : List (List Char × Value)}, members? fuel cs = some (members, rest) →
      ∃ inside, cs = inside ++ '}' :: rest ∧ MembersWritten members inside
  | 0, _, _, _, h => by cases h
  | fuel + 1, cs, rest, members, h => by
    obtain ⟨outside, houtside⟩ := exists_blanks cs
    unfold members? at h
    split at h
    next inside hcs =>
      obtain ⟨⟨raw, behindKey⟩, hraw, hcolon⟩ := Option.bind_eq_some_iff.mp h
      obtain ⟨hrawText, rfl⟩ := rawText_of_rawString? hraw
      obtain ⟨gap, hgap⟩ := exists_blanks behindKey
      have hk : KeyWritten raw (outside.chars ++ '"' :: (raw ++ '"' :: gap.chars)) :=
        ⟨hrawText, outside, gap, rfl⟩
      dsimp only at hcolon
      split at hcolon
      next hbehindKey =>
        obtain ⟨⟨v, behind⟩, hv, hnext⟩ := Option.bind_eq_some_iff.mp hcolon
        obtain ⟨before, text, rfl, hwritten⟩ := written_of_value? fuel hv
        obtain ⟨after, hafter⟩ := exists_blanks behind
        dsimp only at hnext
        split at hnext
        next hbehind =>
          cases hnext
          refine ⟨_, ?_, .last before after hk hwritten⟩
          rw [houtside, hcs, hgap, hbehindKey, hafter, hbehind]
          simp
        next hbehind =>
          obtain ⟨⟨members, rest⟩, hmembers, heq⟩ := Option.bind_eq_some_iff.mp hnext
          cases heq
          obtain ⟨inside, rfl, hmore⟩ := written_of_members? fuel hmembers
          refine ⟨_, ?_, .more before after hk hwritten hmore⟩
          rw [houtside, hcs, hgap, hbehindKey, hafter, hbehind]
          simp
        next => cases hnext
      next => cases hcolon
    next => cases h

end

end Reply

end MetricUpload
