import MetricUpload.Json.Reader

namespace MetricUpload

namespace Fields

variable {α : Type}

theorem keys_nodup_put {key : String} {value : α} {fields : Fields α} (h : (keys fields).Nodup) :
    (keys (put key value fields)).Nodup := by
  rw [keys_put]
  split
  next => exact h
  next hk =>
    refine List.nodup_append.mpr ⟨h, by simp, ?_⟩
    intro k hm other ho
    rw [List.mem_singleton.mp ho]
    rintro rfl
    exact hk hm

theorem put_of_not_mem {key : String} {fields : Fields α} (h : key ∉ keys fields) (value : α) :
    put key value fields = fields ++ [(key, value)] := by
  induction fields with
  | nil => rfl
  | cons member rest ih =>
    obtain ⟨k, v⟩ := member
    simp only [keys, List.map_cons, List.mem_cons, not_or] at h
    have hk : k ≠ key := fun he => h.1 he.symm
    simp only [put, hk, ↓reduceIte, ih h.2, List.cons_append]

theorem mem_put {key : String} {value : α} {fields : Fields α} {member : String × α}
    (h : member ∈ put key value fields) : member = (key, value) ∨ member ∈ fields := by
  induction fields with
  | nil => exact Or.inl (List.mem_singleton.mp h)
  | cons first rest ih =>
    obtain ⟨k, v⟩ := first
    by_cases hk : k = key
    · simp only [put, hk, ↓reduceIte] at h
      rcases List.mem_cons.mp h with he | hm
      · exact Or.inl he
      · exact Or.inr (List.mem_cons_of_mem _ hm)
    · simp only [put, hk, ↓reduceIte] at h
      rcases List.mem_cons.mp h with he | hm
      · exact Or.inr (by simp [he])
      · exact (ih hm).imp_right (List.mem_cons_of_mem _)

theorem forall_put {P : α → Prop} {value : α} {fields : Fields α} (hv : P value)
    (h : ∀ member ∈ fields, P member.2) (key : String) :
    ∀ member ∈ put key value fields, P member.2 := by
  intro member hm
  rcases mem_put hm with rfl | hm
  · exact hv
  · exact h member hm

end Fields

/-- Whole numbers have 64 bits, with a sign or without. -/
def Number.InRange : Number → Prop
  | .int n => Int64.minValue.toInt ≤ n ∧ n < UInt64.size
  | .float _ => True

instance : (n : Number) → Decidable n.InRange
  | .int n => inferInstanceAs (Decidable (Int64.minValue.toInt ≤ n ∧ n < UInt64.size))
  | .float _ => .isTrue trivial

theorem Number.inRange_int_iff {i : Int} :
    (Number.int i).InRange ↔ -9223372036854775808 ≤ i ∧ i ≤ 18446744073709551615 := by
  have hleast : Int64.minValue.toInt = -9223372036854775808 := rfl
  have hsize : UInt64.size = 18446744073709551616 := rfl
  simp only [InRange]
  omega

namespace Json

mutual

/-- How many containers of a value are open at once. -/
def depth : Json → Nat
  | .array items => itemsDepth items + 1
  | .object members => membersDepth members + 1
  | _ => 0

def itemsDepth : List Json → Nat
  | [] => 0
  | item :: items => Nat.max item.depth (itemsDepth items)

def membersDepth : List (String × Json) → Nat
  | [] => 0
  | (_, value) :: members => Nat.max value.depth (membersDepth members)

end

mutual

def numbers : Json → List Number
  | .number n => [n]
  | .array items => itemNumbers items
  | .object members => memberNumbers members
  | _ => []

def itemNumbers : List Json → List Number
  | [] => []
  | item :: items => item.numbers ++ itemNumbers items

def memberNumbers : List (String × Json) → List Number
  | [] => []
  | (_, value) :: members => value.numbers ++ memberNumbers members

end

mutual

/-- No object in the value has two members of one name. -/
def DistinctKeys : Json → Prop
  | .array items => ItemsDistinct items
  | .object members => (Fields.keys members).Nodup ∧ MembersDistinct members
  | _ => True

def ItemsDistinct : List Json → Prop
  | [] => True
  | item :: items => item.DistinctKeys ∧ ItemsDistinct items

def MembersDistinct : List (String × Json) → Prop
  | [] => True
  | (_, value) :: members => value.DistinctKeys ∧ MembersDistinct members

end

mutual

def decideDistinctKeys : (v : Json) → Decidable v.DistinctKeys
  | .array items => decideItemsDistinct items
  | .object members =>
    have := decideMembersDistinct members
    inferInstanceAs (Decidable ((Fields.keys members).Nodup ∧ MembersDistinct members))
  | .null | .bool _ | .number _ | .string _ => .isTrue trivial

def decideItemsDistinct : (items : List Json) → Decidable (ItemsDistinct items)
  | [] => .isTrue trivial
  | item :: items =>
    have := decideDistinctKeys item
    have := decideItemsDistinct items
    inferInstanceAs (Decidable (item.DistinctKeys ∧ ItemsDistinct items))

def decideMembersDistinct : (members : List (String × Json)) → Decidable (MembersDistinct members)
  | [] => .isTrue trivial
  | (_, value) :: members =>
    have := decideDistinctKeys value
    have := decideMembersDistinct members
    inferInstanceAs (Decidable (value.DistinctKeys ∧ MembersDistinct members))

end

instance : DecidablePred DistinctKeys := decideDistinctKeys

def WithoutFloats (v : Json) : Prop := ∀ n ∈ v.numbers, ∃ i, n = .int i

instance : DecidablePred WithoutFloats := fun v =>
  have : DecidablePred fun n => ∃ i, n = Number.int i
    | .int i => .isTrue ⟨i, rfl⟩
    | .float _ => .isFalse nofun
  inferInstanceAs (Decidable (∀ n ∈ v.numbers, ∃ i, n = .int i))

theorem itemsDepth_le {items : List Json} {k : Nat} :
    itemsDepth items ≤ k ↔ ∀ item ∈ items, item.depth ≤ k := by
  induction items with
  | nil => simp [itemsDepth]
  | cons item items ih => exact Nat.max_le.trans (by simp [ih])

theorem membersDepth_le {members : List (String × Json)} {k : Nat} :
    membersDepth members ≤ k ↔ ∀ member ∈ members, member.2.depth ≤ k := by
  induction members with
  | nil => simp [membersDepth]
  | cons member members ih => exact Nat.max_le.trans (by simp [ih])

theorem mem_itemNumbers {items : List Json} {n : Number} :
    n ∈ itemNumbers items ↔ ∃ item ∈ items, n ∈ item.numbers := by
  induction items with
  | nil => simp [itemNumbers]
  | cons item items ih => simp [itemNumbers, ih]

theorem mem_memberNumbers {members : List (String × Json)} {n : Number} :
    n ∈ memberNumbers members ↔ ∃ member ∈ members, n ∈ member.2.numbers := by
  induction members with
  | nil => simp [memberNumbers]
  | cons member members ih =>
    obtain ⟨key, value⟩ := member
    simp [memberNumbers, ih]

theorem itemsDistinct_iff {items : List Json} :
    ItemsDistinct items ↔ ∀ item ∈ items, item.DistinctKeys := by
  induction items with
  | nil => simp [ItemsDistinct]
  | cons item items ih => simp [ItemsDistinct, ih]

theorem membersDistinct_iff {members : List (String × Json)} :
    MembersDistinct members ↔ ∀ member ∈ members, member.2.DistinctKeys := by
  induction members with
  | nil => simp [MembersDistinct]
  | cons member members ih =>
    obtain ⟨key, value⟩ := member
    simp only [MembersDistinct, ih, List.forall_mem_cons]

theorem withoutFloats_array {items : List Json} :
    WithoutFloats (.array items) ↔ ∀ item ∈ items, item.WithoutFloats := by
  simp only [WithoutFloats, numbers, mem_itemNumbers]
  exact ⟨fun h item hi n hn => h n ⟨item, hi, hn⟩, fun h n ⟨item, hi, hn⟩ => h item hi n hn⟩

theorem withoutFloats_object {members : List (String × Json)} :
    WithoutFloats (.object members) ↔ ∀ member ∈ members, member.2.WithoutFloats := by
  simp only [WithoutFloats, numbers, mem_memberNumbers]
  exact ⟨fun h member hi n hn => h n ⟨member, hi, hn⟩,
    fun h n ⟨member, hi, hn⟩ => h member hi n hn⟩

/-- What a reader can hold inside so many open containers. -/
structure Fits (outside : Nat) (v : Json) : Prop where
  distinct : v.DistinctKeys
  shallow : outside + v.depth ≤ nestingLimit
  inRange : ∀ n ∈ v.numbers, n.InRange

instance (outside : Nat) (v : Json) : Decidable (v.Fits outside) :=
  decidable_of_iff
    (v.DistinctKeys ∧ outside + v.depth ≤ nestingLimit ∧ ∀ n ∈ v.numbers, n.InRange)
    ⟨fun ⟨hd, hs, hr⟩ => ⟨hd, hs, hr⟩, fun h => ⟨h.distinct, h.shallow, h.inRange⟩⟩

def ItemsFit (outside : Nat) (items : List Json) : Prop :=
  outside < nestingLimit ∧ ∀ item ∈ items, item.Fits (outside + 1)

def MembersFit (outside : Nat) (members : List (String × Json)) : Prop :=
  outside < nestingLimit ∧ (Fields.keys members).Nodup ∧
    ∀ member ∈ members, member.2.Fits (outside + 1)

theorem fits_array {outside : Nat} {items : List Json} :
    Fits outside (.array items) ↔ ItemsFit outside items := by
  constructor
  · rintro ⟨hdistinct, hshallow, hrange⟩
    simp only [DistinctKeys, itemsDistinct_iff] at hdistinct
    simp only [depth] at hshallow
    simp only [numbers, mem_itemNumbers] at hrange
    have hdepth := itemsDepth_le.mp (by omega : itemsDepth items ≤ nestingLimit - outside - 1)
    refine ⟨by omega, fun item hi => ⟨hdistinct item hi, ?_, fun n hn => hrange n ⟨item, hi, hn⟩⟩⟩
    have := hdepth item hi
    omega
  · rintro ⟨hroom, hitems⟩
    refine ⟨itemsDistinct_iff.mpr fun item hi => (hitems item hi).distinct, ?_, ?_⟩
    · have hdepth : itemsDepth items ≤ nestingLimit - outside - 1 := by
        apply itemsDepth_le.mpr
        intro item hi
        have := (hitems item hi).shallow
        omega
      simp only [depth]
      omega
    · intro n hn
      obtain ⟨item, hi, hm⟩ := mem_itemNumbers.mp hn
      exact (hitems item hi).inRange n hm

theorem fits_object {outside : Nat} {members : List (String × Json)} :
    Fits outside (.object members) ↔ MembersFit outside members := by
  constructor
  · rintro ⟨⟨hnodup, hdistinct⟩, hshallow, hrange⟩
    rw [membersDistinct_iff] at hdistinct
    simp only [depth] at hshallow
    simp only [numbers, mem_memberNumbers] at hrange
    have hdepth := membersDepth_le.mp (by omega : membersDepth members ≤ nestingLimit - outside - 1)
    refine ⟨by omega, hnodup, fun member hi =>
      ⟨hdistinct member hi, ?_, fun n hn => hrange n ⟨member, hi, hn⟩⟩⟩
    have := hdepth member hi
    omega
  · rintro ⟨hroom, hnodup, hmembers⟩
    refine ⟨⟨hnodup, membersDistinct_iff.mpr fun member hi => (hmembers member hi).distinct⟩, ?_, ?_⟩
    · have hdepth : membersDepth members ≤ nestingLimit - outside - 1 := by
        apply membersDepth_le.mpr
        intro member hi
        have := (hmembers member hi).shallow
        omega
      simp only [depth]
      omega
    · intro n hn
      obtain ⟨member, hi, hm⟩ := mem_memberNumbers.mp hn
      exact (hmembers member hi).inRange n hm

theorem Fits.mono {outside inside : Nat} {v : Json} (h : v.Fits inside) (hle : outside ≤ inside) :
    v.Fits outside :=
  ⟨h.distinct, by have := h.shallow; omega, h.inRange⟩

/-- What holds whole numbers of 64 bits only, with distinct keys and no more than 127 containers open
at once. -/
theorem fits_of_integers {v : Json} (distinct : v.DistinctKeys) (shallow : v.depth ≤ 127)
    (integers : ∀ n ∈ v.numbers, ∃ i, n = .int i ∧
      -9223372036854775808 ≤ i ∧ i ≤ 18446744073709551615) : v.Fits 0 ∧ v.WithoutFloats := by
  refine ⟨⟨distinct, ?_, ?_⟩, ?_⟩
  · have hlimit : nestingLimit = 127 := rfl
    omega
  · intro n hn
    obtain ⟨i, rfl, hbounds⟩ := integers n hn
    exact Number.inRange_int_iff.mpr hbounds
  · intro n hn
    obtain ⟨i, hi, _⟩ := integers n hn
    exact ⟨i, hi⟩

theorem MembersFit.put {outside : Nat} {members : List (String × Json)}
    (h : MembersFit outside members) {v : Json} (hv : v.Fits (outside + 1)) (key : String) :
    MembersFit outside (Fields.put key v members) :=
  ⟨h.1, Fields.keys_nodup_put h.2.1, Fields.forall_put (P := Fits (outside + 1)) hv h.2.2 key⟩

end Json

end MetricUpload
