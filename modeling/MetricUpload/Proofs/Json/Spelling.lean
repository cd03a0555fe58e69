import MetricUpload.Proofs.Json.CompactNumeral
import MetricUpload.Proofs.Json.TreeReading

namespace MetricUpload

namespace Fields

theorem putAll_of_nodup {α : Type} {members : List (String × α)} {fields : Fields α}
    (h : (keys (fields ++ members)).Nodup) : putAll fields members = fields ++ members := by
  induction members generalizing fields with
  | nil => simp [putAll]
  | cons member members ih =>
    obtain ⟨key, value⟩ := member
    have hnew : key ∉ keys fields := by
      intro hk
      simp only [keys, List.map_append, List.map_cons] at h hk
      exact (List.nodup_append.mp h).2.2 key hk key (by simp) rfl
    have hput : put key value fields = fields ++ [(key, value)] := put_of_not_mem hnew value
    have hrest : putAll (fields ++ [(key, value)]) members =
        (fields ++ [(key, value)]) ++ members := ih (by simpa using h)
    simp only [putAll, List.foldl_cons, hput] at hrest ⊢
    simpa using hrest

end Fields

namespace Json

/-- A character as it may stand between quotes: as itself, as a short escape, as the escape of its
code point in four hexadecimal digits, or beyond the first plane as the escapes of a surrogate
pair. -/
inductive CharSpelled : Char → List Char → Prop
  | plain {c : Char} (h : c ≠ '"' ∧ c ≠ '\\' ∧ 0x20 ≤ c.toNat) : CharSpelled c [c]
  | short (e : ShortEscape) : CharSpelled e.meaning ['\\', e.mark]
  | unit {c : Char} {first second third fourth : HexDigit}
      (h : Piece.unitValue first second third fourth = c.toNat) :
      CharSpelled c (Piece.unit first second third fourth).chars
  | pair {c : Char} {a b d e a' b' d' e' : HexDigit} (beyond : 0x10000 ≤ c.toNat)
      (high : Piece.unitValue a b d e = 0xD800 + (c.toNat - 0x10000) / 0x400)
      (low : Piece.unitValue a' b' d' e' = 0xDC00 + (c.toNat - 0x10000) % 0x400) :
      CharSpelled c ((Piece.unit a b d e).chars ++ (Piece.unit a' b' d' e').chars)

/-- A text between quotes, each character spelled in any way. -/
inductive TextSpelled : List Char → List Char → Prop
  | nil : TextSpelled [] []
  | cons {c : Char} {text spelling rest : List Char} (first : CharSpelled c spelling)
      (more : TextSpelled text rest) : TextSpelled (c :: text) (spelling ++ rest)

def KeySpelled (key : String) (spelling : List Char) : Prop :=
  ∃ (before after : Blanks) (content : List Char), TextSpelled key.toList content ∧
    spelling = before.chars ++ '"' :: (content ++ '"' :: after.chars)

mutual

/-- A value as it may be written: any blanks around its tokens, any spelling of its texts, and the
members of its objects in their order. Doubles are not written. -/
inductive Spelled : Json → List Char → Prop
  | null : Spelled .null ['n', 'u', 'l', 'l']
  | isTrue : Spelled (.bool true) ['t', 'r', 'u', 'e']
  | isFalse : Spelled (.bool false) ['f', 'a', 'l', 's', 'e']
  | integer (i : Int) : Spelled (.number (.int i)) (Number.intChars i)
  | string {s : String} {content : List Char} (h : TextSpelled s.toList content) :
      Spelled (.string s) ('"' :: (content ++ ['"']))
  | emptyArray (inner : Blanks) : Spelled (.array []) ('[' :: (inner.chars ++ [']']))
  | array {items : List Json} {inside : List Char} (h : ItemsSpelled items inside) :
      Spelled (.array items) ('[' :: (inside ++ [']']))
  | emptyObject (inner : Blanks) : Spelled (.object []) ('{' :: (inner.chars ++ ['}']))
  | object {members : List (String × Json)} {inside : List Char}
      (h : MembersSpelled members inside) : Spelled (.object members) ('{' :: (inside ++ ['}']))

/-- Items between commas. -/
inductive ItemsSpelled : List Json → List Char → Prop
  | last {item : Json} {spelling : List Char} (before after : Blanks) (h : Spelled item spelling) :
      ItemsSpelled [item] (before.chars ++ (spelling ++ after.chars))
  | more {item : Json} {items : List Json} {spelling rest : List Char} (before after : Blanks)
      (h : Spelled item spelling) (hs : ItemsSpelled items rest) :
      ItemsSpelled (item :: items) (before.chars ++ (spelling ++ (after.chars ++ ',' :: rest)))

/-- Members between commas. -/
inductive MembersSpelled : List (String × Json) → List Char → Prop
  | last {key : String} {value : Json} {name spelling : List Char} (before after : Blanks)
      (hk : KeySpelled key name) (h : Spelled value spelling) :
      MembersSpelled [(key, value)] (name ++ ':' :: (before.chars ++ (spelling ++ after.chars)))
  | more {key : String} {value : Json} {members : List (String × Json)}
      {name spelling rest : List Char} (before after : Blanks) (hk : KeySpelled key name)
      (h : Spelled value spelling) (hs : MembersSpelled members rest) :
      MembersSpelled ((key, value) :: members)
        (name ++ ':' :: (before.chars ++ (spelling ++ (after.chars ++ ',' :: rest))))

end

theorem not_surrogate (c : Char) :
    isLowSurrogate c.toNat = false ∧ isHighSurrogate c.toNat = false := by
  have hvalid : c.toNat < 0xD800 ∨ 0xDFFF < c.toNat ∧ c.toNat < 0x110000 := c.valid
  simp only [isLowSurrogate, isHighSurrogate, Bool.and_eq_false_iff, decide_eq_false_iff_not]
  omega

theorem meaning?_pair {a b c d a' b' c' d' : HexDigit}
    (high : isHighSurrogate (Piece.unitValue a b c d) = true)
    (low : isLowSurrogate (Piece.unitValue a' b' c' d') = true) (ps : List Piece) :
    meaning? (.unit a b c d :: .unit a' b' c' d' :: ps) =
      (meaning? ps).map (Char.ofNat (0x10000 + (Piece.unitValue a b c d - 0xD800) * 0x400 +
        (Piece.unitValue a' b' c' d' - 0xDC00)) :: ·) := by
  have hlow : isLowSurrogate (Piece.unitValue a b c d) = false := by
    simp only [isHighSurrogate, isLowSurrogate, Bool.and_eq_true, decide_eq_true_eq,
      Bool.and_eq_false_iff, decide_eq_false_iff_not] at high ⊢
    omega
  rw [meaning?.eq_def]
  simp only [hlow, high, low, Bool.false_eq_true, ↓reduceIte]

/-- However a character is spelled, the pieces of it mean it. -/
theorem exists_pieces_of_char {c : Char} {spelling : List Char} (h : CharSpelled c spelling) :
    ∃ first : List Piece, first.flatMap Piece.chars = spelling ∧
      ∀ ps, meaning? (first ++ ps) = (meaning? ps).map (c :: ·) := by
  cases h with
  | plain h => exact ⟨[.plain c h], by simp [Piece.chars], fun ps => rfl⟩
  | short e => exact ⟨[.short e], by simp [Piece.chars], fun ps => rfl⟩
  | @unit _ first second third fourth h =>
    obtain ⟨hlow, hhigh⟩ := not_surrogate c
    rw [← h] at hlow hhigh
    refine ⟨[.unit first second third fourth], by simp, fun ps => ?_⟩
    rw [List.singleton_append, meaning?_unit hlow hhigh, h, Char.ofNat_toNat]
  | @pair _ a b d e a' b' d' e' beyond high low =>
    have hless : c.toNat < 0x110000 := by
      have hvalid : c.toNat < 0xD800 ∨ 0xDFFF < c.toNat ∧ c.toNat < 0x110000 := c.valid
      omega
    have hhigh : isHighSurrogate (Piece.unitValue a b d e) = true := by
      simp only [isHighSurrogate, Bool.and_eq_true, decide_eq_true_eq]
      omega
    have hlow : isLowSurrogate (Piece.unitValue a' b' d' e') = true := by
      simp only [isLowSurrogate, Bool.and_eq_true, decide_eq_true_eq]
      omega
    have hpoint : 0x10000 + (Piece.unitValue a b d e - 0xD800) * 0x400 +
        (Piece.unitValue a' b' d' e' - 0xDC00) = c.toNat := by omega
    refine ⟨[.unit a b d e, .unit a' b' d' e'], by simp, fun ps => ?_⟩
    rw [List.cons_append, List.singleton_append, meaning?_pair hhigh hlow, hpoint,
      Char.ofNat_toNat]

theorem exists_pieces_of_text {text content : List Char} (h : TextSpelled text content) :
    ∃ ps : List Piece, pieceChars ps = content ++ ['"'] ∧ meaning? ps = some text := by
  induction h with
  | nil => exact ⟨[], rfl, rfl⟩
  | cons first more ih =>
    obtain ⟨qs, hchars, hmeaning⟩ := exists_pieces_of_char first
    obtain ⟨ps, hps, hm⟩ := ih
    refine ⟨qs ++ ps, ?_, ?_⟩
    · rw [pieceChars] at hps ⊢
      rw [List.flatMap_append, hchars, List.append_assoc, hps, List.append_assoc]
    · rw [hmeaning, hm, Option.map_some]

theorem exists_name_of_key {key : String} {spelling : List Char} (h : KeySpelled key spelling) :
    ∃ name : Name, name.chars = spelling ∧ meaning? name.pieces = some key.toList := by
  obtain ⟨before, after, content, htext, rfl⟩ := h
  obtain ⟨ps, hps, hm⟩ := exists_pieces_of_text htext
  exact ⟨⟨before, ps, after⟩, by simp [Name.chars, hps], hm⟩

mutual

/-- A spelling of a value that a reader can hold is a tree of that value. -/
theorem exists_tree_of_spelled : ∀ {v : Json} {text : List Char}, Spelled v text →
    ∀ {outside : Nat}, v.Fits outside →
      ∃ t : Tree, t.chars = text ∧ t.value? = some v ∧ t.depth = v.depth
  | _, _, .null, _, _ => ⟨.null, rfl, rfl, rfl⟩
  | _, _, .isTrue, _, _ => ⟨.bool true, rfl, rfl, rfl⟩
  | _, _, .isFalse, _, _ => ⟨.bool false, rfl, rfl, rfl⟩
  | _, _, .integer i, _, hv => by
    obtain ⟨text, hchars, hvalue⟩ := exists_numeralText (hv.inRange (.int i) (by simp [numbers]))
    exact ⟨.number text, hchars, by simp only [Tree.value?, hvalue, Option.map_some], rfl⟩
  | _, _, .string h, _, _ => by
    obtain ⟨ps, hps, hm⟩ := exists_pieces_of_text h
    refine ⟨.string ps, by rw [Tree.chars, hps], ?_, rfl⟩
    simp only [Tree.value?, hm, Option.map_some, String.ofList_toList]
  | _, _, .emptyArray inner, _, _ => ⟨.emptyArray inner, rfl, rfl, rfl⟩
  | _, _, .array h, _, hv => by
    obtain ⟨items, hchars, hvalues, hdepth⟩ := exists_items_of_spelled h (fits_array.mp hv).2
    refine ⟨.array items, by rw [Tree.chars, hchars], ?_, ?_⟩
    · simp only [Tree.value?, hvalues, Option.map_some]
    · simp only [Tree.depth, hdepth, depth]
  | _, _, .emptyObject inner, _, _ => ⟨.emptyObject inner, rfl, rfl, rfl⟩
  | _, _, .object h, _, hv => by
    obtain ⟨_, distinct, hvalues⟩ := fits_object.mp hv
    obtain ⟨members, hchars, hread, hdepth⟩ := exists_members_of_spelled h hvalues
    have hkept : Fields.putAll [] _ = [] ++ _ := Fields.putAll_of_nodup distinct
    refine ⟨.object members, by rw [Tree.chars, hchars], ?_, ?_⟩
    · simp only [Tree.value?, hread, Option.map_some, hkept, List.nil_append]
    · simp only [Tree.depth, hdepth, depth]

theorem exists_items_of_spelled : ∀ {items : List Json} {text : List Char},
    ItemsSpelled items text → ∀ {outside : Nat}, (∀ item ∈ items, item.Fits outside) →
      ∃ its : Items, its.chars = text ++ [']'] ∧ its.values? = some items ∧
        its.depth = itemsDepth items
  | _, _, .last before after h, _, hv => by
    obtain ⟨t, hchars, hvalue, hdepth⟩ := exists_tree_of_spelled h (hv _ (by simp))
    refine ⟨.last before t after, ?_, ?_, ?_⟩
    · simp [Items.chars, hchars]
    · simp only [Items.values?, hvalue, Option.map_some]
    · simp [Items.depth, itemsDepth, hdepth]
  | _, _, .more before after h hs, _, hv => by
    obtain ⟨hfirst, hrest⟩ := List.forall_mem_cons.mp hv
    obtain ⟨t, hchars, hvalue, hdepth⟩ := exists_tree_of_spelled h hfirst
    obtain ⟨its, hmore, hvalues, hdepths⟩ := exists_items_of_spelled hs hrest
    refine ⟨.more before t after its, ?_, ?_, ?_⟩
    · simp [Items.chars, hchars, hmore]
    · simp only [Items.values?, hvalue, hvalues]
    · simp only [Items.depth, itemsDepth, hdepth, hdepths]

theorem exists_members_of_spelled : ∀ {members : List (String × Json)} {text : List Char},
    MembersSpelled members text → ∀ {outside : Nat}, (∀ member ∈ members, member.2.Fits outside) →
      ∃ ms : Members, ms.chars = text ++ ['}'] ∧ ms.values? = some members ∧
        ms.depth = membersDepth members
  | _, _, .last before after hk h, _, hv => by
    obtain ⟨name, hname, hmeaning⟩ := exists_name_of_key hk
    obtain ⟨t, hchars, hvalue, hdepth⟩ := exists_tree_of_spelled h (hv _ (List.mem_singleton_self _))
    refine ⟨.last name before t after, ?_, ?_, ?_⟩
    · simp [Members.chars, hname, hchars]
    · simp only [Members.values?, hmeaning, hvalue, String.ofList_toList]
    · simp [Members.depth, membersDepth, hdepth]
  | _, _, .more before after hk h hs, _, hv => by
    obtain ⟨hfirst, hrest⟩ := List.forall_mem_cons.mp hv
    obtain ⟨name, hname, hmeaning⟩ := exists_name_of_key hk
    obtain ⟨t, hchars, hvalue, hdepth⟩ := exists_tree_of_spelled h hfirst
    obtain ⟨ms, hmore, hvalues, hdepths⟩ := exists_members_of_spelled hs hrest
    refine ⟨.more name before t after ms, ?_, ?_, ?_⟩
    · simp [Members.chars, hname, hchars, hmore]
    · simp only [Members.values?, hmeaning, hvalue, hvalues, String.ofList_toList]
    · simp only [Members.depth, membersDepth, hdepth, hdepths]

end

/-- Every spelling of a value is read as that value. -/
theorem read_of_spelled {v : Json} (hv : v.Fits 0) {spelling : List Char} (h : Spelled v spelling)
    (before after : Blanks) {text : String}
    (htext : text.toList = before.chars ++ (spelling ++ after.chars)) : read text = .ok v := by
  obtain ⟨t, hchars, hvalue, hdepth⟩ := exists_tree_of_spelled h hv
  have hdocument : (Document.mk before t after).text = text := by
    rw [Document.text, Document.chars, hchars, ← htext, String.ofList_toList]
  have hroom : t.depth ≤ nestingLimit := by
    have := hv.shallow
    omega
  rw [← hdocument]
  exact Document.read_eq_ok_iff.mpr ⟨hvalue, hroom⟩

end Json

end MetricUpload
