import MetricUpload.Proofs.Json.Transitions
import MetricUpload.Proofs.Json.TreeReading

namespace MetricUpload

namespace Json

def Spot.Enclosed (spot : Spot) : Prop :=
  match spot.place with
  | .value => spot.frames ≠ []
  | .finished _ => False
  | _ => True

/-- The outermost bracket is open. -/
def State.Enclosed : State → Prop
  | .between spot => spot.Enclosed
  | .literal frames _ _ _ => frames ≠ []
  | .string frames .value _ _ => frames ≠ []
  | .string _ (.key _) _ _ => True
  | .numeral frames _ _ => frames ≠ []

/-- The outermost bracket is open or has just been closed. -/
def State.Settled (s : State) : Prop := s.Enclosed ∨ ∃ v, s = .between ⟨[], .finished v⟩

theorem deliver_enclosed {frames : List Frame} (h : frames ≠ []) (v : Json) :
    (deliver v frames).Enclosed := by
  cases frames with
  | nil => exact absurd rfl h
  | cons frame frames => cases frame <;> trivial

theorem deliver_settled (frames : List Frame) (v : Json) :
    (State.between (deliver v frames)).Settled := by
  by_cases h : frames = []
  · subst h
    exact .inr ⟨v, rfl⟩
  · exact .inl (deliver_enclosed h v)

theorem begins_enclosed {frames : List Frame} {c : Char} {s : State} (hf : frames ≠ [])
    (h : Begins frames c s) : s.Enclosed := by
  cases h with
  | array | object => trivial
  | _ => exact hf

theorem moves_settled {spot : Spot} {c : Char} {s : State} (hs : spot.Enclosed)
    (h : spot.Moves c s) : s.Settled := by
  cases h with
  | blank => exact .inl hs
  | value h => exact .inl (begins_enclosed hs h)
  | firstItem h => exact .inl (begins_enclosed (List.cons_ne_nil _ _) h)
  | nextItem h => exact .inl (begins_enclosed (List.cons_ne_nil _ _) h)
  | colon => exact .inl (List.cons_ne_nil _ _)
  | noItem | lastItem | noMember | lastMember => exact deliver_settled _ _
  | afterItem | afterMember | firstKey | nextKey => exact .inl trivial

/-- Only the closing of the outermost bracket leads out of it. -/
theorem step_settled {s next : State} {c : Char} (hs : s.Enclosed) (h : step s c = .ok next) :
    next.Settled := by
  cases moves_of_step h with
  | between hm => exact moves_settled hs hm
  | literal => exact .inl hs
  | literalEnd => exact deliver_settled _ _
  | @string _ role => cases role <;> exact .inl hs
  | @stringEnd _ role =>
    cases role with
    | value => exact deliver_settled _ _
    | key => exact .inl trivial
  | numeral => exact .inl hs
  | numeralEnd _ hm => exact moves_settled (deliver_enclosed hs _) hm

theorem Spot.Enclosed.atEnd {spot : Spot} (h : spot.Enclosed) :
    ∃ cause, spot.place.atEnd = .error cause := by
  obtain ⟨frames, place⟩ := spot
  cases place with
  | finished v => exact absurd h id
  | _ => exact ⟨_, rfl⟩

theorem State.Enclosed.atEnd {s : State} (h : s.Enclosed) : ∃ cause, atEnd s = .error cause := by
  cases s with
  | between spot => exact Spot.Enclosed.atEnd h
  | literal | string => exact ⟨_, rfl⟩
  | numeral frames negative n =>
    simp only [Json.atEnd]
    cases n.value negative with
    | error cause => exact ⟨cause, rfl⟩
    | ok amount => exact Spot.Enclosed.atEnd (deliver_enclosed h (.number amount))

theorem blank_of_conclude {frames : List Frame} {v w : Json} {text : List Char}
    (h : conclude (.between ⟨frames, .finished w⟩) text = .ok v) :
    w = v ∧ ∀ c ∈ text, isBlank c = true := by
  have hblank : ∀ c ∈ text, isBlank c = true := by
    intro c hc
    cases hb : isBlank c with
    | true => rfl
    | false =>
      rw [conclude_finished ⟨c, hc, hb⟩ frames w] at h
      cases h
  rw [← List.append_nil text, conclude_blanks hblank] at h
  cases h
  exact ⟨rfl, hblank⟩

/-- A text that ends a value inside an open bracket has closed the bracket, so all that is behind it
stands behind the value. -/
theorem conclude_append {s : State} (hs : s.Enclosed) {text : List Char} {v : Json}
    (h : conclude s text = .ok v) (rest : List Char) :
    conclude s (text ++ rest) = conclude (.between ⟨[], .finished v⟩) rest := by
  induction text generalizing s with
  | nil =>
    obtain ⟨cause, he⟩ := hs.atEnd
    rw [conclude, he] at h
    cases h
  | cons c cs ih =>
    cases hc : step s c with
    | error refusal =>
      rw [conclude_cons_of_refusal hc] at h
      cases h
    | ok next =>
      rw [conclude_cons_of_step hc] at h
      rw [List.cons_append, conclude_cons_of_step hc]
      rcases step_settled hs hc with hn | ⟨w, rfl⟩
      · exact ih hn h
      · obtain ⟨rfl, hblank⟩ := blank_of_conclude h
        exact conclude_blanks hblank _ rest

def Tree.IsContainer : Tree → Prop
  | .emptyArray _ | .array _ | .emptyObject _ | .object _ => True
  | _ => False

theorem Items.chars_last (items : Items) : ∃ front, items.chars = front ++ [']'] := by
  cases items with
  | last before item after =>
    exact ⟨before.chars ++ (item.chars ++ after.chars), by simp [Items.chars]⟩
  | more before item after rest =>
    obtain ⟨front, hfront⟩ := rest.chars_last
    exact ⟨before.chars ++ (item.chars ++ (after.chars ++ ',' :: front)),
      by simp [Items.chars, hfront]⟩

theorem Members.chars_last (members : Members) : ∃ front, members.chars = front ++ ['}'] := by
  cases members with
  | last name before value after =>
    exact ⟨name.chars ++ ':' :: (before.chars ++ (value.chars ++ after.chars)),
      by simp [Members.chars]⟩
  | more name before value after rest =>
    obtain ⟨front, hfront⟩ := rest.chars_last
    exact ⟨name.chars ++ ':' :: (before.chars ++ (value.chars ++ (after.chars ++ ',' :: front))),
      by simp [Members.chars, hfront]⟩

namespace Tree.IsContainer

variable {t : Tree}

theorem chars_last (h : t.IsContainer) : ∃ front c, t.chars = front ++ [c] ∧ isBlank c = false := by
  cases t with
  | emptyArray inner => exact ⟨'[' :: inner.chars, ']', by simp [Tree.chars], rfl⟩
  | emptyObject inner => exact ⟨'{' :: inner.chars, '}', by simp [Tree.chars], rfl⟩
  | array items =>
    obtain ⟨front, hfront⟩ := items.chars_last
    exact ⟨'[' :: front, ']', by simp [Tree.chars, hfront], rfl⟩
  | object members =>
    obtain ⟨front, hfront⟩ := members.chars_last
    exact ⟨'{' :: front, '}', by simp [Tree.chars, hfront], rfl⟩
  | null | bool | number | string => exact absurd h id

theorem conclude_open (h : t.IsContainer) : ∃ c body s, t.chars = c :: body ∧ State.Enclosed s ∧
    ∀ rest, conclude (.between ⟨[], .value⟩) (c :: rest) = conclude s rest := by
  have hroom : ([] : List Frame).length < nestingLimit := by decide
  cases t with
  | emptyArray | array =>
    exact ⟨'[', _, .between ⟨[], .firstItem⟩, by simp only [Tree.chars]; rfl, trivial,
      conclude_opened hroom rfl rfl⟩
  | emptyObject | object =>
    exact ⟨'{', _, .between ⟨[], .firstKey⟩, by simp only [Tree.chars]; rfl, trivial,
      conclude_opened hroom rfl rfl⟩
  | null | bool | number | string => exact absurd h id

theorem endsBefore (h : t.IsContainer) (rest : List Char) : t.EndsBefore rest := by
  cases t <;> first | exact absurd h id | trivial

end Tree.IsContainer

namespace Document

variable {d : Document}

/-- Nothing less than the whole container is read as a value. -/
theorem conclude_cut (h : d.tree.IsContainer) {cut rest : List Char}
    (hcut : d.before.chars ++ d.tree.chars = cut ++ rest) (hrest : rest ≠ []) :
    ∃ cause, conclude start cut = .error cause := by
  have hempty : conclude start [] = .error .endInValue := rfl
  rcases List.append_eq_append_iff.mp hcut with ⟨more, rfl, htree⟩ | ⟨more, hbefore, _⟩
  · rw [start, conclude_blanks d.before.blank]
    obtain ⟨c, body, s, hbody, hs, hopen⟩ := h.conclude_open
    cases more with
    | nil => exact ⟨_, hempty⟩
    | cons m more =>
      rw [hbody, List.cons_append, List.cons.injEq] at htree
      obtain ⟨rfl, rfl⟩ := htree
      rw [hopen]
      cases hc : conclude s more with
      | error cause => exact ⟨cause, rfl⟩
      | ok v =>
        have hlast : ∃ e ∈ rest, isBlank e = false := by
          obtain ⟨front, e, hfront, he⟩ := h.chars_last
          have hl := congrArg List.getLast? (hbody.symm.trans hfront)
          rw [← List.cons_append, List.getLast?_append, List.getLast?_eq_some_getLast hrest,
            Option.some_or, List.getLast?_concat] at hl
          rw [← Option.some.inj hl] at he
          exact ⟨_, List.getLast_mem hrest, he⟩
        -- Had the part been read, the rest of the container would stand behind a finished value.
        have hwhole := conclude_whole d.tree (h.endsBefore [])
        rw [List.append_nil, hbody, hopen, conclude_append hs hc rest,
          conclude_finished hlast] at hwhole
        rcases hwhole with ⟨w, _, _, hw⟩ | ⟨_, cause, hlimit, hw⟩
        · cases hw
        · cases hw
          simp [Cause.IsLimit] at hlimit
  · have hblank : ∀ c ∈ cut, isBlank c = true := by
      intro c hc
      exact d.before.blank c (by rw [hbefore]; exact List.mem_append_left more hc)
    rw [← List.append_nil cut, start, conclude_blanks hblank]
    exact ⟨_, hempty⟩

theorem conclude_extended (h : d.tree.IsContainer) {extra : List Char}
    (hextra : ∃ c ∈ extra, isBlank c = false) :
    ∃ cause, conclude start (d.chars ++ extra) = .error cause := by
  obtain ⟨c, hc, hb⟩ := hextra
  have hbehind : ∃ c ∈ d.after.chars ++ extra, isBlank c = false :=
    ⟨c, List.mem_append_right _ hc, hb⟩
  simp only [chars, List.append_assoc]
  rw [start, conclude_blanks d.before.blank]
  rcases conclude_whole d.tree (h.endsBefore (d.after.chars ++ extra)) with
    ⟨v, _, _, hv⟩ | ⟨_, cause, _, hv⟩
  · exact ⟨_, hv.trans (conclude_finished hbehind [] v)⟩
  · exact ⟨cause, hv⟩

end Document

end Json

end MetricUpload
