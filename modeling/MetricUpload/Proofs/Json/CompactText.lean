import MetricUpload.Proofs.Json.Spelling

namespace MetricUpload

namespace Json

theorem charSpelled_escaped (c : Char) : CharSpelled c (escaped c) := by
  unfold escaped
  split
  · exact .short .quote
  · exact .short .backslash
  · exact .short .backspace
  · exact .short .formFeed
  · exact .short .lineFeed
  · exact .short .carriageReturn
  · exact .short .tab
  · next hquote hback _ _ _ _ _ =>
    split
    next hlow =>
      let zero : HexDigit := ⟨0, false⟩
      let high : HexDigit := ⟨⟨c.toNat / 16, by omega⟩, false⟩
      let low : HexDigit := ⟨⟨c.toNat % 16, by omega⟩, false⟩
      have hvalue : Piece.unitValue zero zero high low = c.toNat := by
        simp only [Piece.unitValue, zero, high, low]
        omega
      exact .unit hvalue
    next hhigh => exact .plain ⟨hquote, hback, by omega⟩

theorem textSpelled_escaped (text : List Char) : TextSpelled text (text.flatMap escaped) := by
  induction text with
  | nil => exact .nil
  | cons c cs ih => exact .cons (charSpelled_escaped c) ih

theorem keySpelled_quoted (key : String) : KeySpelled key (quoted key) :=
  ⟨.none, .none, _, textSpelled_escaped key.toList, by simp [quoted, Blanks.none]⟩

mutual

/-- The compact text of a value without doubles is one of its spellings. -/
theorem spelled_chars : ∀ {v : Json}, v.WithoutFloats → Spelled v v.chars
  | .null, _ => .null
  | .bool true, _ => .isTrue
  | .bool false, _ => .isFalse
  | .number n, hf => by
    obtain ⟨i, rfl⟩ := hf n (by simp [numbers])
    exact .integer i
  | .string s, _ => .string (textSpelled_escaped s.toList)
  | .array [], _ => .emptyArray .none
  | .array (item :: items), hf => by
    obtain ⟨inside, hinside, h⟩ := itemsSpelled_chars (by simp) (withoutFloats_array.mp hf)
    have hchars : (Json.array (item :: items)).chars = '[' :: (inside ++ [']']) := by
      rw [chars, ← (List.cons.inj hinside).2]
    rw [hchars]
    exact .array h
  | .object [], _ => .emptyObject .none
  | .object ((key, value) :: members), hf => by
    obtain ⟨inside, hinside, h⟩ := membersSpelled_chars (by simp) (withoutFloats_object.mp hf)
    have hchars : (Json.object ((key, value) :: members)).chars = '{' :: (inside ++ ['}']) := by
      rw [chars, ← (List.cons.inj hinside).2]
    rw [hchars]
    exact .object h

theorem itemsSpelled_chars : ∀ {items : List Json}, items ≠ [] →
    (∀ item ∈ items, item.WithoutFloats) →
    ∃ inside, moreItems items = ',' :: (inside ++ [']']) ∧ ItemsSpelled items inside
  | [], hne, _ => absurd rfl hne
  | [item], _, hf => by
    have hitem := spelled_chars (hf item (by simp))
    refine ⟨_, ?_, .last .none .none hitem⟩
    simp [moreItems, Blanks.none]
  | item :: next :: items, _, hf => by
    obtain ⟨hitem, hrest⟩ := List.forall_mem_cons.mp hf
    obtain ⟨inside, hinside, h⟩ := itemsSpelled_chars (by simp : next :: items ≠ []) hrest
    refine ⟨_, ?_, .more .none .none (spelled_chars hitem) h⟩
    rw [moreItems, hinside]
    simp [Blanks.none]

theorem membersSpelled_chars : ∀ {members : List (String × Json)}, members ≠ [] →
    (∀ member ∈ members, member.2.WithoutFloats) →
    ∃ inside, moreMembers members = ',' :: (inside ++ ['}']) ∧ MembersSpelled members inside
  | [], hne, _ => absurd rfl hne
  | [(key, value)], _, hf => by
    have hvalue := spelled_chars (hf (key, value) (by simp))
    refine ⟨_, ?_, .last .none .none (keySpelled_quoted key) hvalue⟩
    simp [moreMembers, Blanks.none]
  | (key, value) :: next :: members, _, hf => by
    obtain ⟨hvalue, hrest⟩ := List.forall_mem_cons.mp hf
    obtain ⟨inside, hinside, h⟩ := membersSpelled_chars (by simp : next :: members ≠ []) hrest
    refine ⟨_, ?_, .more .none .none (keySpelled_quoted key) (spelled_chars hvalue) h⟩
    rw [moreMembers, hinside]
    simp [Blanks.none]

end

/-- The compact text of a value without doubles is read as that value. -/
theorem read_text {v : Json} (hv : v.Fits 0) (hf : v.WithoutFloats) : read v.text = .ok v := by
  refine read_of_spelled hv (spelled_chars hf) .none .none ?_
  simp [text, Blanks.none]

end Json

end MetricUpload
