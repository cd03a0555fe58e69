import Mathlib.Data.List.Perm.Subperm
import MetricUpload.Proofs.Fields.Lookup

namespace MetricUpload

namespace Fields

variable {α : Type} {R : α → α → Prop} {as bs : Fields α}

/-- The same keys, in any order, with related values. -/
structure Agree (R : α → α → Prop) (as bs : Fields α) : Prop where
  keys : (keys as).Perm (keys bs)
  values : ∀ key a b, as.lookup key = some a → bs.lookup key = some b → R a b

namespace Agree

theorem lookup_none (h : Agree R as bs) {key : String} (hn : as.lookup key = none) :
    bs.lookup key = none := by
  rw [lookup_eq_none_iff] at hn ⊢
  exact fun hk => hn (h.keys.mem_iff.mpr hk)

theorem lookup_some (h : Agree R as bs) {key : String} {a : α} (ha : as.lookup key = some a) :
    ∃ b, bs.lookup key = some b ∧ R a b := by
  have hk : key ∈ Fields.keys bs := h.keys.mem_iff.mp (exists_lookup_iff.mp ⟨a, ha⟩)
  obtain ⟨b, hb⟩ := exists_lookup_iff.mpr hk
  exact ⟨b, hb, h.values key a b ha hb⟩

theorem put (h : Agree R as bs) {a b : α} (hab : R a b) (key : String) :
    Agree R (put key a as) (put key b bs) := by
  refine ⟨?_, ?_⟩
  · rw [keys_put, keys_put]
    by_cases hk : key ∈ Fields.keys as
    · rw [if_pos hk, if_pos (h.keys.mem_iff.mp hk)]
      exact h.keys
    · rw [if_neg hk, if_neg fun hb => hk (h.keys.mem_iff.mpr hb)]
      exact h.keys.append_right [key]
  · intro other c d hc hd
    by_cases ho : other = key
    · subst ho
      rw [lookup_put_self] at hc hd
      cases hc
      cases hd
      exact hab
    · rw [lookup_put_of_ne ho] at hc hd
      exact h.values other c d hc hd

end Agree

/-- As many members, and every key of the one list among those of the other: no key is left over. -/
theorem keys_perm (nodup : (keys as).Nodup) (hlength : as.length = bs.length)
    (hkeys : keys as ⊆ keys bs) : (keys as).Perm (keys bs) := by
  have hsub : (keys as).Subperm (keys bs) := List.subperm_of_subset nodup hkeys
  refine hsub.perm_of_length_le ?_
  simp only [keys, List.length_map]
  omega

end Fields

end MetricUpload
