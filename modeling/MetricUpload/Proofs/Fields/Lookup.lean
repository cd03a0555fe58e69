import MetricUpload.Fields

namespace MetricUpload

/-- Where no name is repeated, what is found is what is there. -/
theorem lookup_eq_some_iff_mem {α β : Type} [BEq α] [LawfulBEq α] {xs : List (α × β)}
    (h : (xs.map Prod.fst).Nodup) {a : α} {b : β} : xs.lookup a = some b ↔ (a, b) ∈ xs := by
  induction xs with
  | nil => simp
  | cons x xs ih =>
    obtain ⟨k, v⟩ := x
    obtain ⟨hk, hxs⟩ := List.nodup_cons.mp h
    by_cases hak : a = k
    · subst hak
      have hnot : (a, b) ∉ xs := by
        intro hm
        exact hk (List.mem_map.mpr ⟨(a, b), hm, rfl⟩)
      simp [hnot, eq_comm]
    · have hne : (a == k) = false := by simpa using hak
      simp [List.lookup_cons, hne, hak, ih hxs]

namespace Fields

variable {α : Type}

theorem lookup_eq_none_iff {key : String} {fields : Fields α} :
    fields.lookup key = none ↔ key ∉ keys fields := by
  simp only [List.lookup_eq_none_iff, keys, List.mem_map, not_exists, not_and]
  constructor
  · intro h member hm he
    exact absurd he.symm (by simpa using h member hm)
  · intro h member hm
    simpa using fun he : key = member.1 => h member hm he.symm

theorem exists_of_lookup {key : String} {fields : Fields α} {value : α}
    (h : fields.lookup key = some value) :
    ∃ before after, fields = before ++ (key, value) :: after ∧ key ∉ keys before := by
  obtain ⟨before, after, he, hb⟩ := List.lookup_eq_some_iff.mp h
  refine ⟨before, after, he, ?_⟩
  intro hk
  obtain ⟨member, hm, hmk⟩ := List.mem_map.mp hk
  exact absurd hmk.symm (by simpa using hb member hm)

theorem mem_of_lookup {key : String} {fields : Fields α} {value : α}
    (h : fields.lookup key = some value) : (key, value) ∈ fields := by
  obtain ⟨before, after, rfl, _⟩ := exists_of_lookup h
  exact List.mem_append_right before List.mem_cons_self

theorem exists_lookup_iff {key : String} {fields : Fields α} :
    (∃ value, fields.lookup key = some value) ↔ key ∈ keys fields := by
  constructor
  · rintro ⟨value, h⟩
    exact List.mem_map_of_mem (mem_of_lookup h)
  · intro hk
    cases hv : fields.lookup key with
    | none => exact absurd hk (lookup_eq_none_iff.mp hv)
    | some value => exact ⟨value, rfl⟩

end Fields

end MetricUpload
