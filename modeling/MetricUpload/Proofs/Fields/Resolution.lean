import MetricUpload.Proofs.Fields.Lookup
import MetricUpload.Proofs.Json.Shape
import MetricUpload.Proofs.Json.Syntax

namespace MetricUpload

namespace Fields

variable {α : Type} {members : List (String × α)} {fields : Fields α}

/-- These members without repetition: every key once, where it stands first, with the value that
stands last under it. -/
structure Resolves (members : List (String × α)) (fields : Fields α) : Prop where
  keys : Fields.keys fields = (Fields.keys members).eraseDups
  value : ∀ key, fields.lookup key = members.reverse.lookup key

namespace Resolves

theorem nil : Resolves ([] : List (String × α)) [] := ⟨rfl, fun _ => rfl⟩

theorem mem_keys (h : Resolves members fields) {key : String} :
    key ∈ Fields.keys fields ↔ key ∈ Fields.keys members := by
  rw [h.keys, List.mem_eraseDups]

/-- One more member at the end takes effect at the place of its key. -/
theorem put (h : Resolves members fields) (key : String) (value : α) :
    Resolves (members ++ [(key, value)]) (put key value fields) := by
  have hkeys : Fields.keys (members ++ [(key, value)]) = Fields.keys members ++ [key] := by
    simp [Fields.keys]
  refine ⟨?_, ?_⟩
  · rw [keys_put, hkeys, List.eraseDups_append]
    by_cases hk : key ∈ Fields.keys members
    · have hknown : [key].removeAll (Fields.keys members) = [] := by simp [List.removeAll, hk]
      rw [if_pos (h.mem_keys.mpr hk), hknown, List.eraseDups_nil, List.append_nil, h.keys]
    · have hnew : [key].removeAll (Fields.keys members) = [key] := by simp [List.removeAll, hk]
      rw [if_neg (mt h.mem_keys.mp hk), hnew, h.keys]
      rfl
  · intro other
    rw [List.reverse_append, List.reverse_singleton, List.singleton_append, List.lookup_cons]
    by_cases ho : other = key
    · rw [ho, lookup_put_self, beq_self_eq_true]
    · have hne : (other == key) = false := by simpa using ho
      rw [lookup_put_of_ne ho, hne, h.value]

end Resolves

theorem putAll_resolves_append {before : List (String × α)} (h : Resolves before fields)
    (members : List (String × α)) : Resolves (before ++ members) (putAll fields members) := by
  induction members generalizing before fields with
  | nil => simpa [putAll] using h
  | cons member members ih =>
    obtain ⟨key, value⟩ := member
    have hrest := ih (h.put key value)
    rw [List.append_assoc, List.singleton_append] at hrest
    exact hrest

theorem putAll_resolves (members : List (String × α)) : Resolves members (putAll [] members) :=
  putAll_resolves_append Resolves.nil members

theorem nodup_putAll_of_nodup (h : (keys fields).Nodup) (members : List (String × α)) :
    (keys (putAll fields members)).Nodup := by
  induction members generalizing fields with
  | nil => exact h
  | cons member members ih => exact ih (keys_nodup_put h)

theorem nodup_putAll (members : List (String × α)) : (keys (putAll [] members)).Nodup := by
  have hnone : (keys ([] : Fields α)).Nodup := List.nodup_nil
  exact nodup_putAll_of_nodup hnone members

/-- The values under its keys make a list of members, as long as no key is repeated. -/
theorem eq_of_lookup {left right : Fields α} (nodup : (keys left).Nodup)
    (hkeys : keys left = keys right) (hvalue : ∀ key, left.lookup key = right.lookup key) :
    left = right := by
  induction left generalizing right with
  | nil =>
    cases right with
    | nil => rfl
    | cons member right => cases hkeys
  | cons member left ih =>
    cases right with
    | nil => cases hkeys
    | cons other right =>
      obtain ⟨key, value⟩ := member
      obtain ⟨key', value'⟩ := other
      obtain ⟨hk, hrest⟩ := List.cons.inj hkeys
      obtain ⟨hnew, hnodup⟩ := List.nodup_cons.mp nodup
      dsimp only at hk hnew
      subst hk
      have hfirst : value = value' := by simpa using hvalue key
      have hbehind : ∀ other, left.lookup other = right.lookup other := by
        intro other
        by_cases ho : other = key
        · have hleft := lookup_eq_none_iff.mpr hnew
          have habsent : key ∉ keys right := by rwa [keys, ← hrest]
          rw [ho, hleft, lookup_eq_none_iff.mpr habsent]
        · have hne : (other == key) = false := by simpa using ho
          simpa only [List.lookup_cons, hne] using hvalue other
      rw [hfirst, ih hnodup hrest hbehind]

/-- There is one way to resolve repetitions. -/
theorem resolves_iff : Resolves members fields ↔ putAll [] members = fields := by
  constructor
  · intro h
    have hall := putAll_resolves members
    have hkeys := hall.keys.trans h.keys.symm
    have hvalue : ∀ key, (putAll [] members).lookup key = fields.lookup key :=
      fun key => (hall.value key).trans (h.value key).symm
    exact eq_of_lookup (nodup_putAll members) hkeys hvalue
  · rintro rfl
    exact putAll_resolves members

theorem Resolves.nodup (h : Resolves members fields) : (Fields.keys fields).Nodup := by
  rw [← resolves_iff.mp h]
  exact nodup_putAll members

end Fields

end MetricUpload
