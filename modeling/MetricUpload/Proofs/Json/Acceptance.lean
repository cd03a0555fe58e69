import MetricUpload.Proofs.Json.AwaitedNumeral
import MetricUpload.Proofs.Json.AwaitedString
import MetricUpload.Proofs.Json.Transitions
import MetricUpload.Proofs.Json.TreeReading

namespace MetricUpload

namespace Json

section

variable {α : Type} {P : List Char → Prop} {text : List Char}

def Padded (P : List Char → Prop) (text : List Char) : Prop :=
  ∃ (blanks : Blanks) (more : List Char), text = blanks.chars ++ more ∧ P more

def Behind (c : Char) (P : List Char → Prop) (text : List Char) : Prop :=
  ∃ rest, text = c :: rest ∧ P rest

/-- Something that is spelled so, and what follows it. -/
def Followed (spelling : α → List Char) (P : List Char → Prop) (text : List Char) : Prop :=
  ∃ x rest, text = spelling x ++ rest ∧ P rest

theorem Padded.of_blank {c : Char} (hc : isBlank c = true) (h : Padded P text) :
    Padded P (c :: text) := by
  obtain ⟨blanks, more, rfl, hmore⟩ := h
  exact ⟨⟨c :: blanks.chars, List.forall_mem_cons.mpr ⟨hc, blanks.blank⟩⟩, more, rfl, hmore⟩

theorem Padded.of_self (h : P text) : Padded P text := ⟨.none, text, rfl, h⟩

end

def AfterItem (closes : List Char → Prop) (text : List Char) : Prop :=
  Behind ']' closes text ∨ Behind ',' (Followed Items.chars closes) text

def AfterMember (closes : List Char → Prop) (text : List Char) : Prop :=
  Behind '}' closes text ∨ Behind ',' (Followed Members.chars closes) text

/-- The rest of a text behind a value in these containers. -/
def Closes : List Frame → List Char → Prop
  | [] => Padded (· = [])
  | .item _ :: frames => Padded (AfterItem (Closes frames))
  | .member _ _ :: frames => Padded (AfterMember (Closes frames))

def Place.Awaits (frames : List Frame) : Place → List Char → Prop
  | .value => Followed Tree.chars (Closes frames)
  | .firstItem => fun text =>
    Behind ']' (Closes frames) text ∨ Followed Items.chars (Closes frames) text
  | .afterItem _ => AfterItem (Closes frames)
  | .nextItem _ => Followed Items.chars (Closes frames)
  | .firstKey => fun text =>
    Behind '}' (Closes frames) text ∨ Followed Members.chars (Closes frames) text
  | .afterMember _ => AfterMember (Closes frames)
  | .nextKey _ => Followed Members.chars (Closes frames)
  | .colon _ _ =>
    Behind ':' (Padded (Followed Tree.chars (Padded (AfterMember (Closes frames)))))
  | .finished _ => (· = [])

def Role.Awaits (frames : List Frame) : Role → List Char → Prop
  | .value => Closes frames
  | .key _ => Padded (Place.Awaits frames (.colon [] ""))

/-- The texts of the grammar that a reader may still find in front of it. -/
def State.Awaits : State → List Char → Prop
  | .between spot => Padded (spot.place.Awaits spot.frames)
  | .literal frames next rest _ => fun text => ∃ more, text = next :: (rest ++ more) ∧
      Closes frames more
  | .string frames role _ quote => fun text => ∃ tail more, text = tail ++ more ∧
      quote.Awaits tail ∧ role.Awaits frames more
  | .numeral frames _ n => fun text => ∃ tail more, text = tail ++ more ∧ n.Awaits tail ∧
      Closes frames more

theorem awaits_deliver {frames : List Frame} {v : Json} {text : List Char} :
    (State.between (deliver v frames)).Awaits text ↔ Closes frames text := by
  cases frames with
  | nil => exact Iff.rfl
  | cons frame frames => cases frame <;> exact Iff.rfl

def Blanks.append (first second : Blanks) : Blanks :=
  ⟨first.chars ++ second.chars, List.forall_mem_append.mpr ⟨first.blank, second.blank⟩⟩

theorem exists_items_padded (blanks : Blanks) (items : Items) :
    ∃ padded : Items, padded.chars = blanks.chars ++ items.chars := by
  cases items with
  | last before item after =>
    exact ⟨.last (blanks.append before) item after, by simp [Items.chars, Blanks.append]⟩
  | more before item after rest =>
    exact ⟨.more (blanks.append before) item after rest, by simp [Items.chars, Blanks.append]⟩

theorem exists_members_padded (blanks : Blanks) (members : Members) :
    ∃ padded : Members, padded.chars = blanks.chars ++ members.chars := by
  cases members with
  | last name before value after =>
    exact ⟨.last { name with before := blanks.append name.before } before value after,
      by simp [Members.chars, Name.chars, Blanks.append]⟩
  | more name before value after rest =>
    exact ⟨.more { name with before := blanks.append name.before } before value after rest,
      by simp [Members.chars, Name.chars, Blanks.append]⟩

theorem followed_items {frames : List Frame} {before : List Json} {text : List Char}
    (h : Followed Tree.chars (Closes (.item before :: frames)) text) :
    Followed Items.chars (Closes frames) text := by
  obtain ⟨t, _, rfl, after, _, rfl, hend⟩ := h
  rcases hend with ⟨rest, rfl, hc⟩ | ⟨_, rfl, items, rest, rfl, hc⟩
  · exact ⟨.last .none t after, rest, by simp [Items.chars, Blanks.none], hc⟩
  · exact ⟨.more .none t after items, rest, by simp [Items.chars, Blanks.none], hc⟩

theorem followed_members {frames : List Frame} {pieces : List Piece} {text : List Char}
    (h : Padded (Place.Awaits frames (.colon [] "")) text) :
    Followed Members.chars (Closes frames) ('"' :: (pieceChars pieces ++ text)) := by
  obtain ⟨blanks, _, rfl, _, rfl, before, _, rfl, t, _, rfl, after, _, rfl, hend⟩ := h
  rcases hend with ⟨rest, rfl, hc⟩ | ⟨_, rfl, members, rest, rfl, hc⟩
  · exact ⟨.last ⟨.none, pieces, blanks⟩ before t after, rest,
      by simp [Members.chars, Name.chars, Blanks.none], hc⟩
  · exact ⟨.more ⟨.none, pieces, blanks⟩ before t after members, rest,
      by simp [Members.chars, Name.chars, Blanks.none], hc⟩

theorem followed_array {frames : List Frame} {text : List Char}
    (h : Padded (Place.firstItem.Awaits frames) text) :
    Followed Tree.chars (Closes frames) ('[' :: text) := by
  obtain ⟨blanks, _, rfl, ⟨rest, rfl, hc⟩ | ⟨items, rest, rfl, hc⟩⟩ := h
  · exact ⟨.emptyArray blanks, rest, by simp [Tree.chars], hc⟩
  · obtain ⟨padded, hpadded⟩ := exists_items_padded blanks items
    exact ⟨.array padded, rest, by simp [Tree.chars, hpadded], hc⟩

theorem followed_object {frames : List Frame} {text : List Char}
    (h : Padded (Place.firstKey.Awaits frames) text) :
    Followed Tree.chars (Closes frames) ('\x7b' :: text) := by
  obtain ⟨blanks, _, rfl, ⟨rest, rfl, hc⟩ | ⟨members, rest, rfl, hc⟩⟩ := h
  · exact ⟨.emptyObject blanks, rest, by simp [Tree.chars], hc⟩
  · obtain ⟨padded, hpadded⟩ := exists_members_padded blanks members
    exact ⟨.object padded, rest, by simp [Tree.chars, hpadded], hc⟩

theorem begins_awaits {frames : List Frame} {c : Char} {next : State} (h : Begins frames c next)
    {text : List Char} (ht : next.Awaits text) :
    Followed Tree.chars (Closes frames) (c :: text) := by
  cases h with
  | null =>
    obtain ⟨more, rfl, hc⟩ := ht
    exact ⟨.null, more, rfl, hc⟩
  | isTrue =>
    obtain ⟨more, rfl, hc⟩ := ht
    exact ⟨.bool true, more, rfl, hc⟩
  | isFalse =>
    obtain ⟨more, rfl, hc⟩ := ht
    exact ⟨.bool false, more, rfl, hc⟩
  | string =>
    obtain ⟨_, more, rfl, ⟨ps, rfl⟩, hc⟩ := ht
    exact ⟨.string ps, more, rfl, hc⟩
  | minus =>
    obtain ⟨_, more, rfl, ⟨n, rfl⟩, hc⟩ := ht
    exact ⟨.number { n with negative := true }, more, rfl, hc⟩
  | digit hn =>
    obtain ⟨tail, more, rfl, htail, hc⟩ := ht
    obtain ⟨n, he⟩ := Numeral.awaits_cons hn htail
    exact ⟨.number { n with negative := false }, more, congrArg (· ++ more) he, hc⟩
  | array => exact followed_array ht
  | object => exact followed_object ht

theorem behind_items {frames : List Frame} {text : List Char}
    (h : Padded (Followed Items.chars (Closes frames)) text) :
    Behind ',' (Followed Items.chars (Closes frames)) (',' :: text) := by
  obtain ⟨blanks, _, rfl, items, rest, rfl, hc⟩ := h
  obtain ⟨padded, hpadded⟩ := exists_items_padded blanks items
  exact ⟨_, rfl, padded, rest, by simp [hpadded], hc⟩

theorem behind_members {frames : List Frame} {text : List Char}
    (h : Padded (Followed Members.chars (Closes frames)) text) :
    Behind ',' (Followed Members.chars (Closes frames)) (',' :: text) := by
  obtain ⟨blanks, _, rfl, members, rest, rfl, hc⟩ := h
  obtain ⟨padded, hpadded⟩ := exists_members_padded blanks members
  exact ⟨_, rfl, padded, rest, by simp [hpadded], hc⟩

theorem moves_awaits {spot : Spot} {c : Char} {next : State} (h : spot.Moves c next)
    {text : List Char} (ht : next.Awaits text) : (State.between spot).Awaits (c :: text) := by
  cases h with
  | blank hc => exact Padded.of_blank hc ht
  | value h => exact Padded.of_self (begins_awaits h ht)
  | firstItem h => exact Padded.of_self (.inr (followed_items (begins_awaits h ht)))
  | nextItem h => exact Padded.of_self (followed_items (begins_awaits h ht))
  | noItem => exact Padded.of_self (.inl ⟨text, rfl, awaits_deliver.mp ht⟩)
  | lastItem => exact Padded.of_self (.inl ⟨text, rfl, awaits_deliver.mp ht⟩)
  | afterItem => exact Padded.of_self (.inr (behind_items ht))
  | firstKey =>
    obtain ⟨_, more, rfl, ⟨ps, rfl⟩, hcolon⟩ := ht
    exact Padded.of_self (.inr (followed_members hcolon))
  | nextKey =>
    obtain ⟨_, more, rfl, ⟨ps, rfl⟩, hcolon⟩ := ht
    exact Padded.of_self (followed_members hcolon)
  | colon => exact Padded.of_self ⟨text, rfl, ht⟩
  | noMember => exact Padded.of_self (.inl ⟨text, rfl, awaits_deliver.mp ht⟩)
  | lastMember => exact Padded.of_self (.inl ⟨text, rfl, awaits_deliver.mp ht⟩)
  | afterMember => exact Padded.of_self (.inr (behind_members ht))

theorem awaits_endString {frames : List Frame} {role : Role} {content text : List Char} :
    (State.between (endString frames content role)).Awaits text ↔ role.Awaits frames text := by
  cases role with
  | value => exact awaits_deliver
  | key members => exact Iff.rfl

/-- A character that is read belongs to a text of the grammar if what follows it does. -/
theorem step_awaits {s next : State} {c : Char} (h : step s c = .ok next) {text : List Char}
    (ht : next.Awaits text) : s.Awaits (c :: text) := by
  cases moves_of_step h with
  | between hm => exact moves_awaits hm ht
  | literal =>
    obtain ⟨more, rfl, hc⟩ := ht
    exact ⟨more, rfl, hc⟩
  | literalEnd => exact ⟨text, rfl, awaits_deliver.mp ht⟩
  | string hq hs =>
    obtain ⟨tail, more, rfl, htail, hmore⟩ := ht
    exact ⟨c :: tail, more, rfl, inString_awaits hq hs htail, hmore⟩
  | stringEnd => exact ⟨['"'], text, rfl, ⟨[], rfl⟩, awaits_endString.mp ht⟩
  | numeral hn =>
    obtain ⟨tail, more, rfl, htail, hc⟩ := ht
    exact ⟨c :: tail, more, rfl, Numeral.awaits_cons hn htail, hc⟩
  | numeralEnd ha hm =>
    have hc := awaits_deliver.mp (moves_awaits hm ht)
    exact ⟨[], c :: text, rfl, Numeral.awaits_nil (Numeral.complete_of_value ha), hc⟩

theorem padded_of_atEnd {spot : Spot} {v : Json} (h : spot.place.atEnd = .ok v) :
    (State.between spot).Awaits [] := by
  obtain ⟨frames, place⟩ := spot
  cases place with
  | finished w => exact Padded.of_self rfl
  | _ => cases h

theorem atEnd_awaits {s : State} {v : Json} (h : atEnd s = .ok v) : s.Awaits [] := by
  cases s with
  | between spot => exact padded_of_atEnd h
  | literal | string => cases h
  | numeral frames negative n =>
    cases ha : n.value negative with
    | error cause =>
      simp only [atEnd, ha] at h
      cases h
    | ok amount =>
      simp only [atEnd, ha, bind, Except.bind] at h
      exact ⟨[], [], rfl, Numeral.awaits_nil (Numeral.complete_of_value ha),
        awaits_deliver.mp (padded_of_atEnd h)⟩

theorem conclude_awaits {s : State} {text : List Char} {v : Json} (h : conclude s text = .ok v) :
    s.Awaits text := by
  induction text generalizing s with
  | nil => exact atEnd_awaits h
  | cons c cs ih =>
    cases hc : step s c with
    | error refusal =>
      rw [conclude_cons_of_refusal hc] at h
      cases h
    | ok next =>
      rw [conclude_cons_of_step hc] at h
      exact step_awaits hc (ih h)

/-- The texts that are read are those of the grammar that mean something and open no more containers
at once than there is room for. -/
theorem read_eq_ok_iff_exists {text : String} {v : Json} :
    read text = .ok v ↔ ∃ d : Document, d.text = text ∧ d.tree.value? = some v ∧
      d.tree.depth ≤ nestingLimit := by
  constructor
  · intro h
    obtain ⟨before, _, hbefore, t, _, rfl, after, _, rfl, rfl⟩ :=
      conclude_awaits (read_eq_ok_iff.mp h)
    have htext : (Document.mk before t after).text = text := by
      rw [Document.text, Document.chars, ← String.ofList_toList (s := text), hbefore,
        List.append_nil]
    rw [← htext] at h
    exact ⟨_, htext, Document.read_eq_ok_iff.mp h⟩
  · rintro ⟨d, rfl, hd⟩
    exact Document.read_eq_ok_iff.mpr hd

end Json

end MetricUpload
