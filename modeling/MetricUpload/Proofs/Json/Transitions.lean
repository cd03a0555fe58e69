import MetricUpload.Json.Reader

namespace MetricUpload

namespace Json

/-- How a value begins inside these containers. -/
inductive Begins (frames : List Frame) : Char → State → Prop
  | null : Begins frames 'n' (.literal frames 'u' ['l', 'l'] .null)
  | isTrue : Begins frames 't' (.literal frames 'r' ['u', 'e'] (.bool true))
  | isFalse : Begins frames 'f' (.literal frames 'a' ['l', 's', 'e'] (.bool false))
  | string : Begins frames '"' (.string frames .value [] .plain)
  | minus : Begins frames '-' (.numeral frames true .sign)
  | digit {c : Char} {n : Numeral} (next : Numeral.sign.next c = .more n) :
      Begins frames c (.numeral frames false n)
  | array (room : frames.length < nestingLimit) :
      Begins frames '[' (.between ⟨frames, .firstItem⟩)
  | object (room : frames.length < nestingLimit) :
      Begins frames '{' (.between ⟨frames, .firstKey⟩)

/-- All that a character between tokens can do. -/
inductive Spot.Moves : Spot → Char → State → Prop
  | blank {spot : Spot} {c : Char} (h : isBlank c = true) : Moves spot c (.between spot)
  | value {frames : List Frame} {c : Char} {s : State} (h : Begins frames c s) :
      Moves ⟨frames, .value⟩ c s
  | firstItem {frames : List Frame} {c : Char} {s : State} (h : Begins (.item [] :: frames) c s) :
      Moves ⟨frames, .firstItem⟩ c s
  | nextItem {frames : List Frame} {items : List Json} {c : Char} {s : State}
      (h : Begins (.item items :: frames) c s) : Moves ⟨frames, .nextItem items⟩ c s
  | noItem {frames : List Frame} :
      Moves ⟨frames, .firstItem⟩ ']' (.between (deliver (.array []) frames))
  | lastItem {frames : List Frame} {items : List Json} :
      Moves ⟨frames, .afterItem items⟩ ']' (.between (deliver (.array items.reverse) frames))
  | afterItem {frames : List Frame} {items : List Json} :
      Moves ⟨frames, .afterItem items⟩ ',' (.between ⟨frames, .nextItem items⟩)
  | firstKey {frames : List Frame} :
      Moves ⟨frames, .firstKey⟩ '"' (.string frames (.key []) [] .plain)
  | nextKey {frames : List Frame} {members : List (String × Json)} :
      Moves ⟨frames, .nextKey members⟩ '"' (.string frames (.key members) [] .plain)
  | colon {frames : List Frame} {members : List (String × Json)} {key : String} :
      Moves ⟨frames, .colon members key⟩ ':' (.between ⟨.member members key :: frames, .value⟩)
  | noMember {frames : List Frame} :
      Moves ⟨frames, .firstKey⟩ '}' (.between (deliver (.object []) frames))
  | lastMember {frames : List Frame} {members : List (String × Json)} :
      Moves ⟨frames, .afterMember members⟩ '}' (.between (deliver (.object members) frames))
  | afterMember {frames : List Frame} {members : List (String × Json)} :
      Moves ⟨frames, .afterMember members⟩ ',' (.between ⟨frames, .nextKey members⟩)

/-- All that a character can do. -/
inductive State.Moves : State → Char → State → Prop
  | between {spot : Spot} {c : Char} {s : State} (h : spot.Moves c s) : Moves (.between spot) c s
  | literal {frames : List Frame} {c next : Char} {rest : List Char} {v : Json} :
      Moves (.literal frames c (next :: rest) v) c (.literal frames next rest v)
  | literalEnd {frames : List Frame} {c : Char} {v : Json} :
      Moves (.literal frames c [] v) c (.between (deliver v frames))
  | string {frames : List Frame} {role : Role} {text later : List Char} {quote next : Quote}
      {c : Char} (within : quote = .plain → c ≠ '"') (h : inString text quote c = .ok (later, next)) :
      Moves (.string frames role text quote) c (.string frames role later next)
  | stringEnd {frames : List Frame} {role : Role} {text : List Char} :
      Moves (.string frames role text .plain) '"' (.between (endString frames text role))
  | numeral {frames : List Frame} {negative : Bool} {n m : Numeral} {c : Char}
      (h : n.next c = .more m) : Moves (.numeral frames negative n) c (.numeral frames negative m)
  | numeralEnd {frames : List Frame} {negative : Bool} {n : Numeral} {amount : Number} {c : Char}
      {s : State} (value : n.value negative = .ok amount)
      (h : (deliver (.number amount) frames).Moves c s) : Moves (.numeral frames negative n) c s

theorem begins_of_begin {frames : List Frame} {c : Char} {s : State}
    (h : begin frames c = .ok s) : Begins frames c s := by
  unfold begin opened at h
  split at h
  case h_1 => cases h; exact .null
  case h_2 => cases h; exact .isTrue
  case h_3 => cases h; exact .isFalse
  case h_4 => cases h; exact .string
  case h_5 => cases h; exact .minus
  case h_6 =>
    split at h
    · cases h
    · cases h
      exact .array (by omega)
  case h_7 =>
    split at h
    · cases h
    · cases h
      exact .object (by omega)
  case h_8 =>
    split at h
    next n hn =>
      cases h
      exact .digit hn
    next => cases h

theorem moves_of_atSpot {spot : Spot} {c : Char} {s : State} (h : atSpot spot c = .ok s) :
    spot.Moves c s := by
  obtain ⟨frames, place⟩ := spot
  cases place with
  | value => exact .value (begins_of_begin h)
  | firstItem =>
    simp only [atSpot, beq_iff_eq] at h
    split at h
    next hc =>
      subst hc
      cases h
      exact .noItem
    next => exact .firstItem (begins_of_begin h)
  | nextItem items =>
    simp only [atSpot] at h
    split at h
    next => cases h
    next => exact .nextItem (begins_of_begin h)
  | afterItem items =>
    simp only [atSpot, beq_iff_eq] at h
    split at h
    next hc =>
      subst hc
      cases h
      exact .lastItem
    next =>
      split at h
      next hc =>
        subst hc
        cases h
        exact .afterItem
      next => cases h
  | firstKey =>
    simp only [atSpot, beq_iff_eq] at h
    split at h
    next hc =>
      subst hc
      cases h
      exact .noMember
    next =>
      split at h
      next hc =>
        subst hc
        cases h
        exact .firstKey
      next => cases h
  | nextKey members =>
    simp only [atSpot, beq_iff_eq] at h
    split at h
    next => cases h
    next =>
      split at h
      next hc =>
        subst hc
        cases h
        exact .nextKey
      next => cases h
  | afterMember members =>
    simp only [atSpot, beq_iff_eq] at h
    split at h
    next hc =>
      subst hc
      cases h
      exact .lastMember
    next =>
      split at h
      next hc =>
        subst hc
        cases h
        exact .afterMember
      next => cases h
  | colon members key =>
    simp only [atSpot, beq_iff_eq] at h
    split at h
    next hc =>
      subst hc
      cases h
      exact .colon
    next => cases h
  | finished v => cases h

theorem moves_of_between {spot : Spot} {c : Char} {s : State} (h : between spot c = .ok s) :
    spot.Moves c s := by
  unfold between at h
  split at h
  next hc =>
    cases h
    exact .blank hc
  next => exact moves_of_atSpot h

theorem moves_of_inString {frames : List Frame} {role : Role} {text : List Char} {quote : Quote}
    {c : Char} {s : State} (hq : quote = .plain → c ≠ '"')
    (h : (inString text quote c).map (fun (text, quote) => State.string frames role text quote) =
      .ok s) : (State.string frames role text quote).Moves c s := by
  cases hs : inString text quote c with
  | error refusal =>
    rw [hs] at h
    cases h
  | ok next =>
    rw [hs] at h
    cases h
    exact .string hq hs

theorem moves_of_step {s next : State} {c : Char} (h : step s c = .ok next) : s.Moves c next := by
  cases s with
  | between spot => exact .between (moves_of_between h)
  | literal frames expected rest v =>
    simp only [step, beq_iff_eq] at h
    split at h
    next hc =>
      subst hc
      split at h
      · cases h
        exact .literalEnd
      · cases h
        exact .literal
    next => cases h
  | string frames role text quote =>
    cases quote with
    | plain =>
      simp only [step, beq_iff_eq] at h
      split at h
      next hc =>
        subst hc
        cases h
        exact .stringEnd
      next hc => exact moves_of_inString (fun _ => hc) h
    | escape | hex | lowEscape | lowMark =>
      refine moves_of_inString ?_ h
      exact Quote.noConfusion
  | numeral frames negative n =>
    simp only [step] at h
    split at h
    next m hm =>
      cases h
      exact .numeral hm
    next => cases h
    next =>
      split at h
      next amount ha => exact .numeralEnd ha (moves_of_between h)
      next => cases h

end Json

end MetricUpload
