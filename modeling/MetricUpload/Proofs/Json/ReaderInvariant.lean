import MetricUpload.Proofs.Json.Conclusion
import MetricUpload.Proofs.Json.Shape
import MetricUpload.Proofs.Json.Transitions

namespace MetricUpload

namespace Numeral

/-- The significand of a whole number has 64 bits. -/
def Fits : Numeral → Prop
  | .whole ds => ds.significand < Digits.room
  | _ => True

theorem addWhole_significand {ds : Digits} (h : ds.significand < Digits.room) (digit : Nat) :
    (ds.addWhole digit).significand < Digits.room := by
  unfold Digits.addWhole
  split
  next => exact h
  next hs =>
    simp only [Bool.or_eq_true, decide_eq_true_eq, not_or] at hs
    exact Nat.lt_of_not_le hs.2

theorem next_fits {n m : Numeral} {c : Char} (hn : n.Fits) (h : n.next c = .more m) : m.Fits := by
  unfold next at h
  split at h
  case h_2 =>
    cases h
    exact addWhole_significand (by decide) _
  case h_6 =>
    cases h
    exact addWhole_significand hn _
  all_goals
    try unfold addExponent at h
    repeat' split at h
    all_goals cases h
    all_goals trivial

theorem float_inRange {negative : Bool} {significand : Nat} {power : Int} {amount : Number}
    (h : float negative significand power = .ok amount) : amount.InRange := by
  unfold float at h
  split at h
  · cases h
    trivial
  · cases h

/-- Whole numbers that have no 64 bits become doubles. -/
theorem value_inRange {n : Numeral} (hn : n.Fits) {negative : Bool} {amount : Number}
    (h : n.value negative = .ok amount) : amount.InRange := by
  cases n with
  | zero =>
    simp only [value] at h
    split at h
    · exact float_inRange h
    · cases h
      exact Number.inRange_int_iff.mpr ⟨by omega, by omega⟩
  | whole ds =>
    have hroom : ds.significand < 18446744073709551616 := hn
    simp only [value] at h
    split at h
    · exact float_inRange h
    · split at h
      · cases h
        exact Number.inRange_int_iff.mpr ⟨by omega, by omega⟩
      · split at h
        next hdeep =>
          have : ds.significand ≤ 9223372036854775808 := hdeep
          cases h
          exact Number.inRange_int_iff.mpr ⟨by omega, by omega⟩
        next => exact float_inRange h
  | fraction ds => exact float_inRange h
  | exponent ds down power => exact float_inRange h
  | sign | point | mark | markSign => cases h

end Numeral

namespace Json

def FramesFit : List Frame → Prop
  | [] => True
  | .item before :: frames => ItemsFit frames.length before ∧ FramesFit frames
  | .member before _ :: frames => MembersFit frames.length before ∧ FramesFit frames

def Place.Fits (outside : Nat) : Place → Prop
  | .value => True
  | .firstItem => ItemsFit outside []
  | .afterItem items | .nextItem items => ItemsFit outside items
  | .firstKey => MembersFit outside []
  | .afterMember members | .nextKey members | .colon members _ => MembersFit outside members
  | .finished v => Json.Fits 0 v

def Role.Fits (outside : Nat) : Role → Prop
  | .value => True
  | .key before => MembersFit outside before

def Spot.Fits (spot : Spot) : Prop :=
  FramesFit spot.frames ∧ spot.place.Fits spot.frames.length

/-- All that has been read so far can be held. -/
def State.Fits : State → Prop
  | .between spot => spot.Fits
  | .literal frames _ _ v => FramesFit frames ∧ v.Fits frames.length
  | .string frames role _ _ => FramesFit frames ∧ role.Fits frames.length
  | .numeral frames _ n => FramesFit frames ∧ n.Fits

theorem framesFit_length {frames : List Frame} (h : FramesFit frames) :
    frames.length ≤ nestingLimit := by
  cases frames with
  | nil => exact Nat.zero_le _
  | cons frame frames =>
    cases frame with
    | item before => exact h.1.1
    | member before key => exact h.1.1

theorem deliver_fits {frames : List Frame} (hf : FramesFit frames) {v : Json}
    (hv : v.Fits frames.length) : (deliver v frames).Fits := by
  cases frames with
  | nil => exact ⟨trivial, hv⟩
  | cons frame frames =>
    cases frame with
    | item before =>
      refine ⟨hf.2, hf.1.1, ?_⟩
      intro item hi
      rcases List.mem_cons.mp hi with rfl | hi
      · exact hv
      · exact hf.1.2 item hi
    | member before key => exact ⟨hf.2, hf.1.put hv key⟩

theorem fits_leaf {outside : Nat} (h : outside ≤ nestingLimit) {v : Json} (hd : v.depth = 0)
    (hk : v.DistinctKeys) (hn : ∀ n ∈ v.numbers, n.InRange) : v.Fits outside :=
  ⟨hk, by omega, hn⟩

theorem begins_fits {frames : List Frame} {c : Char} {s : State} (hf : FramesFit frames)
    (h : Begins frames c s) : s.Fits := by
  have hlength := framesFit_length hf
  cases h with
  | null => exact ⟨hf, fits_leaf hlength rfl trivial (by simp [numbers])⟩
  | isTrue => exact ⟨hf, fits_leaf hlength rfl trivial (by simp [numbers])⟩
  | isFalse => exact ⟨hf, fits_leaf hlength rfl trivial (by simp [numbers])⟩
  | string => exact ⟨hf, trivial⟩
  | minus => exact ⟨hf, trivial⟩
  | digit hn => exact ⟨hf, Numeral.next_fits (n := .sign) trivial hn⟩
  | array room => exact ⟨hf, room, by simp⟩
  | object room => exact ⟨hf, room, by simp [Fields.keys], by simp⟩

theorem moves_fits {spot : Spot} {c : Char} {s : State} (hs : spot.Fits) (h : spot.Moves c s) :
    s.Fits := by
  obtain ⟨hf, hp⟩ := hs
  cases h with
  | blank => exact ⟨hf, hp⟩
  | value h => exact begins_fits hf h
  | firstItem h =>
    have hitem : FramesFit (.item [] :: _) := ⟨hp, hf⟩
    exact begins_fits hitem h
  | nextItem h =>
    have hitem : FramesFit (.item _ :: _) := ⟨hp, hf⟩
    exact begins_fits hitem h
  | noItem => exact deliver_fits hf (fits_array.mpr hp)
  | lastItem =>
    have hitems : ItemsFit _ (List.reverse _) :=
      ⟨hp.1, fun item hi => hp.2 item (List.mem_reverse.mp hi)⟩
    exact deliver_fits hf (fits_array.mpr hitems)
  | noMember => exact deliver_fits hf (fits_object.mpr hp)
  | lastMember => exact deliver_fits hf (fits_object.mpr hp)
  | colon => exact ⟨⟨hp, hf⟩, trivial⟩
  | afterItem | afterMember | firstKey | nextKey => exact ⟨hf, hp⟩

theorem endString_fits {frames : List Frame} {role : Role} (hf : FramesFit frames)
    (hr : role.Fits frames.length) (text : List Char) : (endString frames text role).Fits := by
  cases role with
  | value =>
    exact deliver_fits hf (fits_leaf (framesFit_length hf) rfl trivial (by simp [numbers]))
  | key members => exact ⟨hf, hr⟩

theorem fits_number {frames : List Frame} {negative : Bool} {n : Numeral} {amount : Number}
    (hs : (State.numeral frames negative n).Fits) (h : n.value negative = .ok amount) :
    (Json.number amount).Fits frames.length := by
  have hv := Numeral.value_inRange hs.2 h
  refine fits_leaf (framesFit_length hs.1) rfl trivial ?_
  intro m hm
  rw [List.mem_singleton.mp hm]
  exact hv

theorem step_fits {s next : State} {c : Char} (hs : s.Fits) (h : step s c = .ok next) :
    next.Fits := by
  cases moves_of_step h with
  | between hm => exact moves_fits hs hm
  | literal => exact hs
  | literalEnd => exact deliver_fits hs.1 hs.2
  | string _ _ => exact hs
  | stringEnd => exact endString_fits hs.1 hs.2 _
  | numeral hn => exact ⟨hs.1, Numeral.next_fits hs.2 hn⟩
  | numeralEnd ha hm => exact moves_fits (deliver_fits hs.1 (fits_number hs ha)) hm

theorem atEnd_fits {s : State} {v : Json} (hs : s.Fits) (h : atEnd s = .ok v) : v.Fits 0 := by
  cases s with
  | between spot =>
    obtain ⟨frames, place⟩ := spot
    cases place <;> cases h
    exact hs.2
  | literal | string => cases h
  | numeral frames negative n =>
    cases ha : n.value negative with
    | error cause =>
      simp only [atEnd, ha] at h
      cases h
    | ok amount =>
      have hd := deliver_fits hs.1 (fits_number hs ha)
      simp only [atEnd, ha, bind, Except.bind] at h
      cases hp : (deliver (.number amount) frames).place with
      | finished w =>
        have hw := hd.2
        rw [hp] at h hw
        cases h
        exact hw
      | _ =>
        rw [hp] at h
        cases h

theorem conclude_fits {s : State} (hs : s.Fits) {text : List Char} {v : Json}
    (h : conclude s text = .ok v) : v.Fits 0 := by
  induction text generalizing s with
  | nil => exact atEnd_fits hs h
  | cons c cs ih =>
    cases hc : step s c with
    | ok next =>
      rw [conclude_cons_of_step hc] at h
      exact ih (step_fits hs hc) h
    | error refusal =>
      rw [conclude_cons_of_refusal hc] at h
      cases h

/-- Every value that is read has distinct keys, opens no more than 127 containers at once and holds
only numbers in range. -/
theorem read_fits {text : String} {v : Json} (h : read text = .ok v) : v.Fits 0 :=
  conclude_fits (s := start) ⟨trivial, trivial⟩ (read_eq_ok_iff.mp h)

end Json

end MetricUpload
