import MetricUpload.Proofs.Fields.Agreement
import MetricUpload.Proofs.Json.Shape

namespace MetricUpload

namespace Json

/-- Equality as a relation. -/
def Same (v w : Json) : Prop := same v w = true

theorem sameItems_iff {as bs : List Json} :
    sameItems as bs = true ↔ List.Forall₂ Same as bs := by
  induction as generalizing bs with
  | nil => cases bs <;> simp [sameItems]
  | cons a as ih => cases bs <;> simp [sameItems, Same, ih]

theorem sameMembers_iff {as bs : List (String × Json)} :
    sameMembers as bs = true ↔
      ∀ member ∈ as, ∃ b, bs.lookup member.1 = some b ∧ Same member.2 b := by
  induction as with
  | nil => simp [sameMembers]
  | cons member as ih =>
    obtain ⟨key, a⟩ := member
    rw [sameMembers, Bool.and_eq_true, ih, List.forall_mem_cons]
    refine and_congr_left fun _ => ?_
    cases bs.lookup key <;> simp [Same]

/-- Objects are equal when they have the same keys, in any order, and equal values under them. -/
theorem same_object_iff {as bs : List (String × Json)} (distinct : (Fields.keys as).Nodup) :
    Same (object as) (object bs) ↔ Fields.Agree Same as bs := by
  simp only [Same, same, Bool.and_eq_true, beq_iff_eq, sameMembers_iff]
  constructor
  · rintro ⟨hlength, hmembers⟩
    have hkeys : Fields.keys as ⊆ Fields.keys bs := by
      intro key hk
      obtain ⟨member, hm, rfl⟩ := List.mem_map.mp hk
      obtain ⟨b, hlookup, _⟩ := hmembers member hm
      exact Fields.exists_lookup_iff.mp ⟨b, hlookup⟩
    refine ⟨Fields.keys_perm distinct hlength hkeys, ?_⟩
    intro key a b hlookup hother
    obtain ⟨c, hc, hsame⟩ := hmembers (key, a) (Fields.mem_of_lookup hlookup)
    obtain rfl : b = c := Option.some.inj (hother.symm.trans hc)
    exact hsame
  · intro h
    refine ⟨?_, ?_⟩
    · have hlength := h.keys.length_eq
      simpa only [Fields.keys, List.length_map] using hlength
    · intro member hm
      exact h.lookup_some ((lookup_eq_some_iff_mem distinct).mpr hm)

theorem kind_of_same {v w : Json} (h : Same v w) : v.kind = w.kind := by
  cases v <;> cases w <;> first | rfl | cases h

theorem exists_object_of_same {as : List (String × Json)} {w : Json} (h : Same (object as) w) :
    ∃ bs, w = object bs := by
  cases w with
  | object bs => exact ⟨bs, rfl⟩
  | _ => cases h

end Json

end MetricUpload
