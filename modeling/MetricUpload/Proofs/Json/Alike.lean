import MetricUpload.Proofs.Json.Shape

namespace MetricUpload

namespace Json

variable {R : Number → Number → Prop}

mutual

/-- The same value but for the numbers, which the relation ties one by one. -/
inductive Alike (R : Number → Number → Prop) : Json → Json → Prop
  | null : Alike R .null .null
  | bool (b : Bool) : Alike R (.bool b) (.bool b)
  | number {n m : Number} (h : R n m) : Alike R (.number n) (.number m)
  | string (s : String) : Alike R (.string s) (.string s)
  | array {items others : List Json} (h : ItemsAlike R items others) :
      Alike R (.array items) (.array others)
  | object {fields others : List (String × Json)} (h : MembersAlike R fields others) :
      Alike R (.object fields) (.object others)

inductive ItemsAlike (R : Number → Number → Prop) : List Json → List Json → Prop
  | nil : ItemsAlike R [] []
  | cons {v w : Json} {items others : List Json} (h : Alike R v w) (hs : ItemsAlike R items others) :
      ItemsAlike R (v :: items) (w :: others)

inductive MembersAlike (R : Number → Number → Prop) :
    List (String × Json) → List (String × Json) → Prop
  | nil : MembersAlike R [] []
  | cons (key : String) {v w : Json} {fields others : List (String × Json)} (h : Alike R v w)
      (hs : MembersAlike R fields others) : MembersAlike R ((key, v) :: fields) ((key, w) :: others)

end

theorem MembersAlike.keys : ∀ {fields others : List (String × Json)}, MembersAlike R fields others →
    Fields.keys others = Fields.keys fields
  | _, _, .nil => rfl
  | _, _, .cons key _ hs => congrArg (key :: ·) hs.keys

theorem ItemsAlike.getElem? {items others : List Json} {i : Nat} {v : Json} :
    ItemsAlike R items others → items[i]? = some v → ∃ w, others[i]? = some w ∧ Alike R v w
  | .nil, hv => nomatch hv
  | .cons h hs, hv => by
    cases i with
    | zero =>
      cases hv
      exact ⟨_, rfl, h⟩
    | succ i => exact hs.getElem? hv

theorem MembersAlike.lookup {fields others : List (String × Json)} {key : String} {v : Json} :
    MembersAlike R fields others → fields.lookup key = some v →
      ∃ w, others.lookup key = some w ∧ Alike R v w
  | .nil, hv => nomatch hv
  | .cons name h hs, hv => by
    rw [List.lookup_cons] at hv ⊢
    split at hv
    next =>
      cases hv
      exact ⟨_, rfl, h⟩
    next => exact hs.lookup hv

mutual

theorem exists_alike : ∀ {v : Json}, (∀ n ∈ v.numbers, ∃ m, R n m) → ∃ w, Alike R v w
  | .null, _ => ⟨_, .null⟩
  | .bool b, _ => ⟨_, .bool b⟩
  | .number n, h => by
    obtain ⟨m, hm⟩ := h n (List.mem_singleton.mpr rfl)
    exact ⟨_, .number hm⟩
  | .string s, _ => ⟨_, .string s⟩
  | .array _, h => by
    obtain ⟨others, hothers⟩ := exists_itemsAlike h
    exact ⟨_, .array hothers⟩
  | .object _, h => by
    obtain ⟨others, hothers⟩ := exists_membersAlike h
    exact ⟨_, .object hothers⟩

theorem exists_itemsAlike : ∀ {items : List Json}, (∀ n ∈ itemNumbers items, ∃ m, R n m) →
    ∃ others, ItemsAlike R items others
  | [], _ => ⟨_, .nil⟩
  | _ :: _, h => by
    obtain ⟨w, hw⟩ := exists_alike fun n hn => h n (List.mem_append_left _ hn)
    obtain ⟨others, hothers⟩ := exists_itemsAlike fun n hn => h n (List.mem_append_right _ hn)
    exact ⟨_, .cons hw hothers⟩

theorem exists_membersAlike : ∀ {fields : List (String × Json)},
    (∀ n ∈ memberNumbers fields, ∃ m, R n m) → ∃ others, MembersAlike R fields others
  | [], _ => ⟨_, .nil⟩
  | (key, _) :: _, h => by
    obtain ⟨w, hw⟩ := exists_alike fun n hn => h n (List.mem_append_left _ hn)
    obtain ⟨others, hothers⟩ := exists_membersAlike fun n hn => h n (List.mem_append_right _ hn)
    exact ⟨_, .cons key hw hothers⟩

end

mutual

theorem Alike.mono {S : Number → Number → Prop} : ∀ {v w : Json}, Alike R v w →
    (∀ n ∈ v.numbers, ∀ m, R n m → S n m) → Alike S v w
  | _, _, .null, _ => .null
  | _, _, .bool b, _ => .bool b
  | _, _, .number h, himp => .number (himp _ (List.mem_singleton.mpr rfl) _ h)
  | _, _, .string s, _ => .string s
  | _, _, .array h, himp => .array (h.mono himp)
  | _, _, .object h, himp => .object (h.mono himp)

theorem ItemsAlike.mono {S : Number → Number → Prop} : ∀ {items others : List Json},
    ItemsAlike R items others → (∀ n ∈ itemNumbers items, ∀ m, R n m → S n m) →
      ItemsAlike S items others
  | _, _, .nil, _ => .nil
  | _, _, .cons h hs, himp => .cons (h.mono fun n hn => himp n (List.mem_append_left _ hn))
      (hs.mono fun n hn => himp n (List.mem_append_right _ hn))

theorem MembersAlike.mono {S : Number → Number → Prop} : ∀ {fields others : List (String × Json)},
    MembersAlike R fields others → (∀ n ∈ memberNumbers fields, ∀ m, R n m → S n m) →
      MembersAlike S fields others
  | _, _, .nil, _ => .nil
  | _, _, .cons key h hs, himp => .cons key (h.mono fun n hn => himp n (List.mem_append_left _ hn))
      (hs.mono fun n hn => himp n (List.mem_append_right _ hn))

end

mutual

/-- Values whose numbers are equal are equal. -/
theorem Alike.eq : ∀ {v w : Json}, Alike Eq v w → v = w
  | _, _, .null | _, _, .bool _ | _, _, .string _ => rfl
  | _, _, .number h => congrArg Json.number h
  | _, _, .array h => congrArg Json.array h.eq
  | _, _, .object h => congrArg Json.object h.eq

theorem ItemsAlike.eq : ∀ {items others : List Json}, ItemsAlike Eq items others → items = others
  | _, _, .nil => rfl
  | _, _, .cons h hs => by rw [h.eq, hs.eq]

theorem MembersAlike.eq : ∀ {fields others : List (String × Json)}, MembersAlike Eq fields others →
    fields = others
  | _, _, .nil => rfl
  | _, _, .cons key h hs => by rw [h.eq, hs.eq]

end

mutual

theorem Alike.tied : ∀ {v : Json}, Alike R v v → ∀ n ∈ v.numbers, R n n
  | _, .null | _, .bool _ | _, .string _ => fun _ hn => nomatch hn
  | _, .number h => fun _ hn => List.mem_singleton.mp hn ▸ h
  | _, .array h => h.tied
  | _, .object h => h.tied

theorem ItemsAlike.tied : ∀ {items : List Json}, ItemsAlike R items items →
    ∀ n ∈ itemNumbers items, R n n
  | _, .nil => fun _ hn => nomatch hn
  | _, .cons h hs => List.forall_mem_append.mpr ⟨h.tied, hs.tied⟩

theorem MembersAlike.tied : ∀ {fields : List (String × Json)}, MembersAlike R fields fields →
    ∀ n ∈ memberNumbers fields, R n n
  | _, .nil => fun _ hn => nomatch hn
  | _, .cons _ h hs => List.forall_mem_append.mpr ⟨h.tied, hs.tied⟩

end

/-- When a number is tied to one number only, the values are equal exactly when each number is tied to
itself. -/
theorem Alike.eq_iff (unique : ∀ n m m' : Number, R n m → R n m' → m = m') {v w : Json}
    (h : Alike R v w) : w = v ↔ ∀ n ∈ v.numbers, R n n := by
  constructor
  · rintro rfl
    exact h.tied
  · intro hself
    exact (h.mono fun n hn m hm => unique n n m (hself n hn) hm).eq.symm

end Json

end MetricUpload
