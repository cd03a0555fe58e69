import MetricUpload.Proofs.Json.NumeralReading
import MetricUpload.Proofs.Json.StringReading

namespace MetricUpload

namespace Json

theorem digit?_of_isBlank {c : Char} (h : isBlank c = true) :
    Numeral.digit? c = none ∧ (c == '.') = false ∧ Numeral.isMark c = false := by
  simp only [isBlank, Bool.or_eq_true, beq_iff_eq] at h
  rcases h with ((rfl | rfl) | rfl) | rfl <;> decide

/-- No numeral goes on behind blanks, nor with a character between tokens. -/
theorem follows_blanks (blanks : Blanks) {c : Char}
    (h : Numeral.digit? c = none ∧ (c == '.') = false ∧ Numeral.isMark c = false)
    (rest : List Char) : Numeral.Follows (blanks.chars ++ c :: rest) := by
  obtain ⟨chars, blank⟩ := blanks
  cases chars with
  | nil => exact Numeral.follows_cons h rest
  | cons b bs => exact Numeral.follows_cons (digit?_of_isBlank (blank b (by simp))) _

theorem conclude_congr {s t : State} {c : Char} (h : step s c = step t c) (rest : List Char) :
    conclude s (c :: rest) = conclude t (c :: rest) := by
  simp only [conclude, h]

/-- What may follow a value: anything, unless it is a numeral that would go on. -/
def Tree.EndsBefore (t : Tree) (rest : List Char) : Prop :=
  match t with
  | .number _ => Numeral.Follows rest
  | _ => True

theorem Tree.endsBefore_of_follows (t : Tree) {rest : List Char} (h : Numeral.Follows rest) :
    t.EndsBefore rest := by
  cases t <;> first | exact h | trivial

theorem NumeralText.chars_head (n : NumeralText) :
    ∃ c cs, n.chars = c :: cs ∧ isBlank c = false ∧ c ≠ ']' := by
  unfold NumeralText.chars
  cases n.negative with
  | true => exact ⟨_, _, rfl, rfl, by decide⟩
  | false =>
    have hd := n.whole.digits n.whole.first (by simp)
    refine ⟨n.whole.first, _, rfl, isBlank_of_isDigit hd, ?_⟩
    intro he
    rw [he] at hd
    exact absurd hd (by decide)

theorem Tree.chars_head (t : Tree) : ∃ c cs, t.chars = c :: cs ∧ isBlank c = false ∧ c ≠ ']' := by
  cases t with
  | number n => exact n.chars_head
  | bool b => cases b <;> exact ⟨_, _, by simp only [Tree.chars]; rfl, rfl, by decide⟩
  | _ => exact ⟨_, _, by simp only [Tree.chars]; rfl, rfl, by decide⟩

theorem Items.chars_head (items : Items) : ∃ (blanks : Blanks) (c : Char) (cs : List Char),
    items.chars = blanks.chars ++ c :: cs ∧ isBlank c = false ∧ c ≠ ']' := by
  cases items with
  | last before item after =>
    obtain ⟨c, cs, hc, hb, hne⟩ := item.chars_head
    exact ⟨before, c, _, by simp only [Items.chars, hc, List.cons_append]; rfl, hb, hne⟩
  | more before item after rest =>
    obtain ⟨c, cs, hc, hb, hne⟩ := item.chars_head
    exact ⟨before, c, _, by simp only [Items.chars, hc, List.cons_append]; rfl, hb, hne⟩

theorem conclude_firstItem (items : Items) (frames : List Frame) (rest : List Char) :
    conclude (.between ⟨frames, .firstItem⟩) (items.chars ++ rest) =
      conclude (.between ⟨.item [] :: frames, .value⟩) (items.chars ++ rest) := by
  obtain ⟨blanks, c, cs, hc, hb, hne⟩ := items.chars_head
  rw [hc, List.append_assoc, conclude_blanks blanks.blank, conclude_blanks blanks.blank]
  exact conclude_congr (by simp [step, between, hb, atSpot, hne]) _

theorem conclude_nextItem (items : Items) (frames : List Frame) (before : List Json)
    (rest : List Char) :
    conclude (.between ⟨frames, .nextItem before⟩) (items.chars ++ rest) =
      conclude (.between ⟨.item before :: frames, .value⟩) (items.chars ++ rest) := by
  obtain ⟨blanks, c, cs, hc, hb, hne⟩ := items.chars_head
  rw [hc, List.append_assoc, conclude_blanks blanks.blank, conclude_blanks blanks.blank]
  exact conclude_congr (by simp [step, between, hb, atSpot, hne]) _

theorem conclude_firstKey (members : Members) (frames : List Frame) (rest : List Char) :
    conclude (.between ⟨frames, .firstKey⟩) (members.chars ++ rest) =
      conclude (.between ⟨frames, .nextKey []⟩) (members.chars ++ rest) := by
  have hhead : ∃ (blanks : Blanks) (cs : List Char), members.chars = blanks.chars ++ '"' :: cs := by
    cases members with
    | last name | more name =>
      simp only [Members.chars, Name.chars, List.append_assoc, List.cons_append]
      exact ⟨name.before, _, rfl⟩
  obtain ⟨blanks, cs, hc⟩ := hhead
  rw [hc, List.append_assoc, conclude_blanks blanks.blank, conclude_blanks blanks.blank]
  exact conclude_congr rfl _

section

variable (frames : List Frame) (before : List (String × Json)) (name : Name) (rest : List Char)

theorem conclude_name_start :
    conclude (.between ⟨frames, .nextKey before⟩) (name.chars ++ rest) =
      conclude (.string frames (.key before) [] .plain)
        (pieceChars name.pieces ++ (name.after.chars ++ rest)) := by
  have hq : atSpot ⟨frames, .nextKey before⟩ '"' = .ok (.string frames (.key before) [] .plain) := rfl
  simp only [Name.chars, List.append_assoc, List.cons_append]
  rw [conclude_blanks name.before.blank, conclude_atSpot rfl hq]

theorem conclude_name {key : List Char} (h : meaning? name.pieces = some key) :
    conclude (.between ⟨frames, .nextKey before⟩) (name.chars ++ ':' :: rest) =
      conclude (.between ⟨.member before (String.ofList key) :: frames, .value⟩) rest := by
  rw [conclude_name_start, conclude_pieces h, List.append_nil]
  simp only [endString, List.reverse_reverse]
  rw [conclude_blanks name.after.blank]
  exact conclude_atSpot rfl rfl rest

theorem conclude_name_limit (h : meaning? name.pieces = none) : ∃ cause, cause.IsLimit ∧
    conclude (.between ⟨frames, .nextKey before⟩) (name.chars ++ rest) = .error cause := by
  rw [conclude_name_start]
  exact conclude_pieces_limit h frames (.key before) [] _

end

theorem conclude_string {pieces : List Piece} {meaning : List Char}
    (h : meaning? pieces = some meaning) (frames : List Frame) (rest : List Char) :
    conclude (.between ⟨frames, .value⟩) ('"' :: (pieceChars pieces ++ rest)) =
      conclude (.between (deliver (.string (String.ofList meaning)) frames)) rest := by
  have hq : atSpot ⟨frames, .value⟩ '"' = .ok (.string frames .value [] .plain) := rfl
  rw [conclude_atSpot rfl hq, conclude_pieces h, List.append_nil]
  simp only [endString, List.reverse_reverse]

theorem deliver_item (v : Json) (before : List Json) (frames : List Frame) :
    deliver v (.item before :: frames) = ⟨frames, .afterItem (v :: before)⟩ := rfl

theorem deliver_member (v : Json) (before : List (String × Json)) (key : String)
    (frames : List Frame) :
    deliver v (.member before key :: frames) = ⟨frames, .afterMember (Fields.put key v before)⟩ :=
  rfl

/-- A bracket opens a container where there is room for one more. -/
theorem conclude_opened {frames : List Frame} (h : frames.length < nestingLimit) {c : Char}
    {place : Place} (hb : isBlank c = false) (hc : begin frames c = opened frames place)
    (rest : List Char) :
    conclude (.between ⟨frames, .value⟩) (c :: rest) = conclude (.between ⟨frames, place⟩) rest := by
  have hn : ¬nestingLimit ≤ frames.length := by omega
  exact conclude_atSpot hb (by simp only [atSpot, hc, opened, hn, ↓reduceIte]) rest

/-- What ends a value inside a container ends a numeral. -/
theorem follows_delimiter (blanks : Blanks) {c : Char} (h : c ∈ [',', ']', '}'])
    (rest : List Char) : Numeral.Follows (blanks.chars ++ c :: rest) := by
  simp only [List.mem_cons, List.not_mem_nil, or_false] at h
  rcases h with rfl | rfl | rfl <;> exact follows_blanks blanks (by decide) rest

mutual

/-- A value that means something and has room inside the open containers is read as what it
means. -/
theorem conclude_tree (t : Tree) {v : Json} (hv : t.value? = some v) (frames : List Frame)
    (hd : frames.length + t.depth ≤ nestingLimit) {rest : List Char} (hr : t.EndsBefore rest) :
    conclude (.between ⟨frames, .value⟩) (t.chars ++ rest) =
      conclude (.between (deliver v frames)) rest := by
  cases t with
  | null =>
    cases Option.some.inj hv
    rfl
  | bool b =>
    cases Option.some.inj hv
    cases b <;> rfl
  | number n =>
    obtain ⟨amount, hn, rfl⟩ := Option.map_eq_some_iff.mp hv
    exact conclude_number hn frames hr
  | string pieces =>
    obtain ⟨meaning, hm, rfl⟩ := Option.map_eq_some_iff.mp hv
    exact conclude_string hm frames rest
  | emptyArray inner =>
    cases Option.some.inj hv
    have hroom : frames.length < nestingLimit := by
      simp only [Tree.depth] at hd
      omega
    simp only [Tree.chars, List.cons_append, List.append_assoc]
    rw [conclude_opened hroom rfl rfl, conclude_blanks inner.blank]
    exact conclude_atSpot rfl rfl rest
  | array items =>
    obtain ⟨vs, hvs, rfl⟩ := Option.map_eq_some_iff.mp hv
    have hroom : frames.length + items.depth < nestingLimit := by
      simp only [Tree.depth] at hd
      omega
    simp only [Tree.chars, List.cons_append]
    rw [conclude_opened (by omega) rfl rfl, conclude_firstItem]
    exact conclude_items items hvs frames hroom [] rest
  | emptyObject inner =>
    cases Option.some.inj hv
    have hroom : frames.length < nestingLimit := by
      simp only [Tree.depth] at hd
      omega
    simp only [Tree.chars, List.cons_append, List.append_assoc]
    rw [conclude_opened hroom rfl rfl, conclude_blanks inner.blank]
    exact conclude_atSpot rfl rfl rest
  | object members =>
    obtain ⟨vs, hvs, rfl⟩ := Option.map_eq_some_iff.mp hv
    have hroom : frames.length + members.depth < nestingLimit := by
      simp only [Tree.depth] at hd
      omega
    simp only [Tree.chars, List.cons_append]
    rw [conclude_opened (by omega) rfl rfl, conclude_firstKey]
    exact conclude_members members hvs frames hroom [] rest

theorem conclude_items (items : Items) {vs : List Json} (hv : items.values? = some vs)
    (frames : List Frame) (hd : frames.length + items.depth < nestingLimit) (before : List Json)
    (rest : List Char) :
    conclude (.between ⟨.item before :: frames, .value⟩) (items.chars ++ rest) =
      conclude (.between (deliver (.array (before.reverse ++ vs)) frames)) rest := by
  cases items with
  | last blanks item after =>
    obtain ⟨v, hi, rfl⟩ := Option.map_eq_some_iff.mp hv
    have hroom : (Frame.item before :: frames).length + item.depth ≤ nestingLimit := by
      simp only [Items.depth] at hd
      simp only [List.length_cons]
      omega
    simp only [Items.chars, List.append_assoc, List.cons_append, List.nil_append]
    rw [conclude_blanks blanks.blank, conclude_tree item hi _ hroom
      (item.endsBefore_of_follows (follows_delimiter after (by decide) rest))]
    rw [deliver_item, conclude_blanks after.blank, conclude_atSpot rfl (by simp only [atSpot]; rfl),
      List.reverse_cons]
  | more blanks item after more =>
    simp only [Items.values?] at hv
    split at hv
    next v ws hi hm =>
      cases Option.some.inj hv
      obtain ⟨hitem, hmore⟩ := Items.depth_more_le.mp
        (by omega : Items.depth (.more blanks item after more) ≤ nestingLimit - frames.length - 1)
      have hroom : (Frame.item before :: frames).length + item.depth ≤ nestingLimit := by
        simp only [List.length_cons]
        omega
      simp only [Items.chars, List.append_assoc, List.cons_append]
      rw [conclude_blanks blanks.blank, conclude_tree item hi _ hroom
        (item.endsBefore_of_follows (follows_delimiter after (by decide) _))]
      rw [deliver_item, conclude_blanks after.blank, conclude_atSpot rfl (by simp only [atSpot]; rfl),
        conclude_nextItem, conclude_items more hm frames (by omega) (v :: before) rest]
      simp only [List.reverse_cons, List.append_assoc, List.singleton_append]
    next => cases hv

theorem conclude_members (members : Members) {vs : List (String × Json)}
    (hv : members.values? = some vs) (frames : List Frame)
    (hd : frames.length + members.depth < nestingLimit) (before : List (String × Json))
    (rest : List Char) :
    conclude (.between ⟨frames, .nextKey before⟩) (members.chars ++ rest) =
      conclude (.between (deliver (.object (Fields.putAll before vs)) frames)) rest := by
  cases members with
  | last name blanks value after =>
    simp only [Members.values?] at hv
    split at hv
    next key v hk hi =>
      cases Option.some.inj hv
      have hroom : (Frame.member before (String.ofList key) :: frames).length + value.depth ≤
          nestingLimit := by
        simp only [Members.depth] at hd
        simp only [List.length_cons]
        omega
      simp only [Members.chars, List.append_assoc, List.cons_append, List.nil_append]
      rw [conclude_name _ _ _ _ hk, conclude_blanks blanks.blank, conclude_tree value hi _ hroom
        (value.endsBefore_of_follows (follows_delimiter after (by decide) rest))]
      rw [deliver_member, conclude_blanks after.blank, conclude_atSpot rfl (by simp only [atSpot]; rfl)]
      rfl
    next => cases hv
  | more name blanks value after more =>
    simp only [Members.values?] at hv
    split at hv
    next key v ws hk hi hm =>
      cases Option.some.inj hv
      obtain ⟨hvalue, hmore⟩ := Members.depth_more_le.mp
        (by omega : Members.depth (.more name blanks value after more) ≤
          nestingLimit - frames.length - 1)
      have hroom : (Frame.member before (String.ofList key) :: frames).length + value.depth ≤
          nestingLimit := by
        simp only [List.length_cons]
        omega
      simp only [Members.chars, List.append_assoc, List.cons_append]
      rw [conclude_name _ _ _ _ hk, conclude_blanks blanks.blank, conclude_tree value hi _ hroom
        (value.endsBefore_of_follows (follows_delimiter after (by decide) _))]
      rw [deliver_member, conclude_blanks after.blank, conclude_atSpot rfl (by simp only [atSpot]; rfl),
        conclude_members more hm frames (by omega) _ rest]
      rfl
    next => cases hv

end

theorem conclude_nestingTooDeep {frames : List Frame} (h : nestingLimit ≤ frames.length) {c : Char}
    {place : Place} (hb : isBlank c = false) (hc : begin frames c = opened frames place)
    (rest : List Char) :
    conclude (.between ⟨frames, .value⟩) (c :: rest) = .error .nestingTooDeep := by
  have hs : step (.between ⟨frames, .value⟩) c = .error ⟨.nestingTooDeep, 1⟩ := by
    simp only [step, between, hb, Bool.false_eq_true, ↓reduceIte, atSpot, hc, opened, h, refuse]
  exact conclude_cons_of_refusal hs rest

mutual

/-- A value that means nothing, or has no room, is refused for that reason only. -/
theorem conclude_tree_limit (t : Tree) (frames : List Frame)
    (h : ∀ v, t.value? = some v → nestingLimit < frames.length + t.depth)
    (hf : frames.length ≤ nestingLimit) {rest : List Char} (hr : t.EndsBefore rest) :
    ∃ cause, cause.IsLimit ∧
      conclude (.between ⟨frames, .value⟩) (t.chars ++ rest) = .error cause := by
  cases t with
  | null =>
    have := h .null rfl
    simp only [Tree.depth] at this
    omega
  | bool b =>
    have := h (.bool b) rfl
    simp only [Tree.depth] at this
    omega
  | number n =>
    have hn : n.number? = none := by
      cases hn : n.number? with
      | none => rfl
      | some amount =>
        have := h (.number amount) (by simp only [Tree.value?, hn, Option.map_some])
        simp only [Tree.depth] at this
        omega
    exact ⟨_, by simp [Cause.IsLimit], conclude_number_limit hn frames hr⟩
  | string pieces =>
    have hm : meaning? pieces = none := by
      cases hm : meaning? pieces with
      | none => rfl
      | some text =>
        have := h (.string (String.ofList text)) (by simp only [Tree.value?, hm, Option.map_some])
        simp only [Tree.depth] at this
        omega
    have hq : atSpot ⟨frames, .value⟩ '"' = .ok (.string frames .value [] .plain) := rfl
    obtain ⟨cause, hl, hc⟩ := conclude_pieces_limit hm frames .value [] rest
    exact ⟨cause, hl, (conclude_atSpot rfl hq _).trans hc⟩
  | emptyArray inner =>
    have := h (.array []) rfl
    simp only [Tree.depth] at this
    exact ⟨_, by simp [Cause.IsLimit], conclude_nestingTooDeep (by omega) rfl rfl _⟩
  | array items =>
    by_cases hroom : nestingLimit ≤ frames.length
    · exact ⟨_, by simp [Cause.IsLimit], conclude_nestingTooDeep hroom rfl rfl _⟩
    · simp only [Tree.chars, List.cons_append]
      rw [conclude_opened (by omega) rfl rfl, conclude_firstItem]
      refine conclude_items_limit items frames ?_ (by omega) [] rest
      intro vs hvs
      have := h (.array vs) (by simp only [Tree.value?, hvs, Option.map_some])
      simp only [Tree.depth] at this
      omega
  | emptyObject inner =>
    have := h (.object []) rfl
    simp only [Tree.depth] at this
    exact ⟨_, by simp [Cause.IsLimit], conclude_nestingTooDeep (by omega) rfl rfl _⟩
  | object members =>
    by_cases hroom : nestingLimit ≤ frames.length
    · exact ⟨_, by simp [Cause.IsLimit], conclude_nestingTooDeep hroom rfl rfl _⟩
    · simp only [Tree.chars, List.cons_append]
      rw [conclude_opened (by omega) rfl rfl, conclude_firstKey]
      refine conclude_members_limit members frames ?_ (by omega) [] rest
      intro vs hvs
      have := h _ (by simp only [Tree.value?, hvs, Option.map_some]; rfl)
      simp only [Tree.depth] at this
      omega

theorem conclude_items_limit (items : Items) (frames : List Frame)
    (h : ∀ vs, items.values? = some vs → nestingLimit ≤ frames.length + items.depth)
    (hf : frames.length < nestingLimit) (before : List Json) (rest : List Char) :
    ∃ cause, cause.IsLimit ∧
      conclude (.between ⟨.item before :: frames, .value⟩) (items.chars ++ rest) = .error cause := by
  cases items with
  | last blanks item after =>
    simp only [Items.chars, List.append_assoc, List.cons_append, List.nil_append]
    rw [conclude_blanks blanks.blank]
    refine conclude_tree_limit item (.item before :: frames) ?_ hf
      (item.endsBefore_of_follows (follows_delimiter after (by decide) rest))
    intro v hv
    have := h [v] (by simp only [Items.values?, hv, Option.map_some])
    simp only [Items.depth] at this
    simp only [List.length_cons]
    omega
  | more blanks item after more =>
    simp only [Items.chars, List.append_assoc, List.cons_append]
    rw [conclude_blanks blanks.blank]
    have hends := item.endsBefore_of_follows
      (follows_delimiter (c := ',') after (by decide) (more.chars ++ rest))
    -- Either this item is beyond the limits, or it is read and a later one is.
    by_cases hfits : ∃ v, item.value? = some v ∧ frames.length + 1 + item.depth ≤ nestingLimit
    · obtain ⟨v, hi, hroom⟩ := hfits
      rw [conclude_tree item hi _ (by simpa only [List.length_cons] using hroom) hends,
        deliver_item, conclude_blanks after.blank,
        conclude_atSpot rfl (by simp only [atSpot]; rfl), conclude_nextItem]
      refine conclude_items_limit more frames ?_ hf (v :: before) rest
      intro ws hws
      have hdeep := h (v :: ws) (by simp only [Items.values?, hi, hws])
      refine Decidable.byContradiction fun hshallow => ?_
      have : Items.depth (.more blanks item after more) ≤ nestingLimit - frames.length - 1 :=
        Items.depth_more_le.mpr ⟨by omega, by omega⟩
      omega
    · refine conclude_tree_limit item (.item before :: frames) ?_ hf hends
      intro v hv
      have hroom : ¬frames.length + 1 + item.depth ≤ nestingLimit :=
        fun hroom => hfits ⟨v, hv, hroom⟩
      simp only [List.length_cons]
      omega

theorem conclude_members_limit (members : Members) (frames : List Frame)
    (h : ∀ vs, members.values? = some vs → nestingLimit ≤ frames.length + members.depth)
    (hf : frames.length < nestingLimit) (before : List (String × Json)) (rest : List Char) :
    ∃ cause, cause.IsLimit ∧
      conclude (.between ⟨frames, .nextKey before⟩) (members.chars ++ rest) = .error cause := by
  cases members with
  | last name blanks value after =>
    simp only [Members.chars, List.append_assoc, List.cons_append, List.nil_append]
    cases hk : meaning? name.pieces with
    | none => exact conclude_name_limit frames before name _ hk
    | some key =>
      rw [conclude_name _ _ _ _ hk, conclude_blanks blanks.blank]
      refine conclude_tree_limit value (.member before (String.ofList key) :: frames) ?_ hf
        (value.endsBefore_of_follows (follows_delimiter after (by decide) rest))
      intro v hv
      have := h _ (by simp only [Members.values?, hk, hv]; rfl)
      simp only [Members.depth] at this
      simp only [List.length_cons]
      omega
  | more name blanks value after more =>
    simp only [Members.chars, List.append_assoc, List.cons_append]
    cases hk : meaning? name.pieces with
    | none => exact conclude_name_limit frames before name _ hk
    | some key =>
      rw [conclude_name _ _ _ _ hk, conclude_blanks blanks.blank]
      have hends := value.endsBefore_of_follows
        (follows_delimiter (c := ',') after (by decide) (more.chars ++ rest))
      by_cases hfits : ∃ v, value.value? = some v ∧ frames.length + 1 + value.depth ≤ nestingLimit
      · obtain ⟨v, hi, hroom⟩ := hfits
        rw [conclude_tree value hi _ (by simpa only [List.length_cons] using hroom) hends,
          deliver_member, conclude_blanks after.blank,
          conclude_atSpot rfl (by simp only [atSpot]; rfl)]
        refine conclude_members_limit more frames ?_ hf _ rest
        intro ws hws
        have hdeep := h _ (by simp only [Members.values?, hk, hi, hws]; rfl)
        refine Decidable.byContradiction fun hshallow => ?_
        have : Members.depth (.more name blanks value after more) ≤
            nestingLimit - frames.length - 1 := Members.depth_more_le.mpr ⟨by omega, by omega⟩
        omega
      · refine conclude_tree_limit value (.member before (String.ofList key) :: frames) ?_ hf hends
        intro v hv
        have hroom : ¬frames.length + 1 + value.depth ≤ nestingLimit :=
          fun hroom => hfits ⟨v, hv, hroom⟩
        simp only [List.length_cons]
        omega

end

/-- A value that stands alone is either read as what it means, or beyond the limits. -/
theorem conclude_whole (t : Tree) {rest : List Char} (hr : t.EndsBefore rest) :
    (∃ v, t.value? = some v ∧ t.depth ≤ nestingLimit ∧
      conclude (.between ⟨[], .value⟩) (t.chars ++ rest) =
        conclude (.between ⟨[], .finished v⟩) rest) ∨
    ((∀ v, t.value? = some v → nestingLimit < t.depth) ∧
      ∃ cause, cause.IsLimit ∧
        conclude (.between ⟨[], .value⟩) (t.chars ++ rest) = .error cause) := by
  by_cases h : ∃ v, t.value? = some v ∧ t.depth ≤ nestingLimit
  · obtain ⟨v, hv, hd⟩ := h
    have hroom : ([] : List Frame).length + t.depth ≤ nestingLimit := by
      simpa using hd
    exact .inl ⟨v, hv, hd, conclude_tree t hv [] hroom hr⟩
  · have hdeep : ∀ v, t.value? = some v → nestingLimit < t.depth := by
      intro v hv
      have hnot : ¬t.depth ≤ nestingLimit := fun hd => h ⟨v, hv, hd⟩
      omega
    have hlimit : ∀ v, t.value? = some v → nestingLimit < ([] : List Frame).length + t.depth := by
      simpa using hdeep
    exact .inr ⟨hdeep, conclude_tree_limit t [] hlimit (Nat.zero_le _) hr⟩

theorem Blanks.follows (blanks : Blanks) : Numeral.Follows blanks.chars := by
  obtain ⟨chars, blank⟩ := blanks
  cases chars with
  | nil => exact Numeral.follows_nil
  | cons b bs => exact Numeral.follows_cons (digit?_of_isBlank (blank b (by simp))) bs

/-- A text of the grammar is read as what it means, and only for want of a meaning or of room it is
refused. -/
theorem Document.read_eq_ok_iff {d : Document} {v : Json} :
    read d.text = .ok v ↔ d.tree.value? = some v ∧ d.tree.depth ≤ nestingLimit := by
  rw [Json.read_eq_ok_iff, text, String.toList_ofList, chars, start, conclude_blanks d.before.blank]
  have hends := d.tree.endsBefore_of_follows d.after.follows
  rcases conclude_whole d.tree hends with ⟨w, hw, hd, hread⟩ | ⟨hdeep, cause, _, hread⟩
  · have hblanks := conclude_blanks d.after.blank ⟨[], .finished w⟩ []
    rw [List.append_nil] at hblanks
    rw [hread, hblanks, hw]
    constructor
    · intro h
      cases h
      exact ⟨rfl, hd⟩
    · rintro ⟨h, _⟩
      cases h
      rfl
  · rw [hread]
    constructor
    · intro h
      cases h
    · rintro ⟨hv, hd⟩
      have := hdeep v hv
      omega

/-- A text of the grammar is refused only for what it means. -/
theorem Document.isLimit_of_conclude {d : Document} {cause : Cause}
    (h : conclude start d.chars = .error cause) : cause.IsLimit := by
  rw [chars, start, conclude_blanks d.before.blank] at h
  have hends := d.tree.endsBefore_of_follows d.after.follows
  rcases conclude_whole d.tree hends with ⟨w, _, _, hread⟩ | ⟨_, other, hlimit, hread⟩
  · have hblanks := conclude_blanks d.after.blank ⟨[], .finished w⟩ []
    rw [List.append_nil] at hblanks
    rw [hread, hblanks] at h
    cases h
  · rw [hread] at h
    cases h
    exact hlimit

/-- A text that is refused for its spelling is not of the grammar. -/
theorem Document.text_ne_of_conclude {text : String} {cause : Cause}
    (h : conclude start text.toList = .error cause) (hc : ¬cause.IsLimit) (d : Document) :
    d.text ≠ text := by
  rintro rfl
  rw [Document.text, String.toList_ofList] at h
  exact hc (isLimit_of_conclude h)

end Json

end MetricUpload
