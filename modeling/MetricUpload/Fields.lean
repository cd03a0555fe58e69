namespace MetricUpload

/-- Named values in the order in which they stand. -/
abbrev Fields (α : Type) := List (String × α)

namespace Fields

variable {α : Type}

/-- A new value under the key: in the place of the old one, or last. -/
def put (key : String) (value : α) : Fields α → Fields α
  | [] => [(key, value)]
  | (k, v) :: rest => if k = key then (k, value) :: rest else (k, v) :: put key value rest

def keys (fields : Fields α) : List String := fields.map Prod.fst

theorem lookup_put_self (key : String) (value : α) (fields : Fields α) :
    (put key value fields).lookup key = some value := by
  induction fields with
  | nil => simp [put]
  | cons member rest ih =>
    obtain ⟨k, v⟩ := member
    by_cases h : k = key
    · simp [put, h]
    · have h' : (key == k) = false := by simpa using fun e => h e.symm
      simp [put, h, List.lookup_cons, h', ih]

theorem lookup_put_of_ne {key other : String} (h : other ≠ key) (value : α) (fields : Fields α) :
    (put key value fields).lookup other = fields.lookup other := by
  induction fields with
  | nil =>
    have h' : (other == key) = false := by simpa using h
    simp [put, List.lookup_cons, h']
  | cons member rest ih =>
    obtain ⟨k, v⟩ := member
    by_cases hk : k = key
    · have h' : (other == k) = false := by simpa [hk] using h
      simp only [put, hk, ↓reduceIte, List.lookup_cons]
      rw [← hk, h']
    · simp only [put, hk, ↓reduceIte, List.lookup_cons]
      rw [ih]

/-- A new key goes last, a known one keeps its place. -/
theorem keys_put (key : String) (value : α) (fields : Fields α) :
    keys (put key value fields) =
      if key ∈ keys fields then keys fields else keys fields ++ [key] := by
  induction fields with
  | nil => simp [put, keys]
  | cons member rest ih =>
    obtain ⟨k, v⟩ := member
    by_cases h : k = key
    · simp [put, keys, h]
    · have h' : key ≠ k := fun e => h e.symm
      simp only [keys] at ih
      by_cases hm : key ∈ rest.map Prod.fst
      · simp [put, keys, h, h', ih, hm]
      · simp [put, keys, h, h', ih, hm]

/-- The last value under a key is the one that stays. -/
theorem put_put (key : String) (first second : α) (fields : Fields α) :
    put key second (put key first fields) = put key second fields := by
  induction fields with
  | nil => simp [put]
  | cons member rest ih =>
    obtain ⟨k, v⟩ := member
    by_cases h : k = key
    · simp [put, h]
    · simp [put, h, ih]

end Fields

end MetricUpload
