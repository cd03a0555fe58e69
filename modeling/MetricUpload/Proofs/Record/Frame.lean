import MetricUpload.Proofs.Record.Dating

namespace MetricUpload

namespace Fields

variable {α : Type}

/-- The new members are the old ones with this value under the key: every key at its place, the key
itself last when it was not there, and all other members as they were. -/
structure Sets (key : String) (value : α) (old new : Fields α) : Prop where
  keys : keys new = if key ∈ keys old then keys old else keys old ++ [key]
  value : new.lookup key = some value
  others : ∀ (i : Nat) (member : String × α), old[i]? = some member → member.1 ≠ key →
    new[i]? = some member

theorem put_getElem_of_ne {key : String} {value : α} {fields : Fields α} {i : Nat}
    {member : String × α} (h : fields[i]? = some member) (hne : member.1 ≠ key) :
    (put key value fields)[i]? = some member := by
  induction fields generalizing i with
  | nil => simp at h
  | cons first rest ih =>
    obtain ⟨k, v⟩ := first
    cases i with
    | zero =>
      cases h
      simp [put, hne]
    | succ i =>
      simp only [List.getElem?_cons_succ] at h
      by_cases hk : k = key
      · simpa only [put, hk, ↓reduceIte, List.getElem?_cons_succ] using h
      · simpa only [put, hk, ↓reduceIte, List.getElem?_cons_succ] using ih h

theorem put_sets (key : String) (value : α) (fields : Fields α) :
    Sets key value fields (put key value fields) :=
  ⟨keys_put key value fields, lookup_put_self key value fields,
    fun _ _ h hne => put_getElem_of_ne h hne⟩

theorem keys_put_of_lookup {key : String} {old : α} {fields : Fields α}
    (h : fields.lookup key = some old) (value : α) : keys (put key value fields) = keys fields := by
  have hk : key ∈ keys fields := List.mem_map_of_mem (mem_of_lookup h)
  rw [keys_put, if_pos hk]

end Fields

namespace Json

theorem DistinctKeys.put {members : List (String × Json)} (h : (object members).DistinctKeys)
    {v : Json} (hv : v.DistinctKeys) (key : String) :
    (object (Fields.put key v members)).DistinctKeys :=
  ⟨Fields.keys_nodup_put h.1, membersDistinct_iff.mpr
    (Fields.forall_put hv (membersDistinct_iff.mp h.2) key)⟩

/-- One step down into a value. -/
inductive Segment where
  | key (name : String)
  | item (index : Nat)

/-- The part of a value to which a path leads. -/
def at? : Json → List Segment → Option Json
  | v, [] => some v
  | .object members, .key name :: path =>
    match members.lookup name with
    | some v => v.at? path
    | none => none
  | .array items, .item index :: path =>
    match items[index]? with
    | some v => v.at? path
    | none => none
  | _, _ :: _ => none

/-- Neither path leads to, or beyond, the end of the other. -/
def Apart (path other : List Segment) : Prop := ¬path <+: other ∧ ¬other <+: path

theorem at?_put_self (key : String) (v : Json) (members : List (String × Json))
    (path : List Segment) : (object (Fields.put key v members)).at? (.key key :: path) = v.at? path := by
  simp only [at?, Fields.lookup_put_self]

theorem at?_put_of_ne {key name : String} (h : name ≠ key) (v : Json)
    (members : List (String × Json)) (path : List Segment) :
    (object (Fields.put key v members)).at? (.key name :: path) =
      (object members).at? (.key name :: path) := by
  simp only [at?, Fields.lookup_put_of_ne h]

/-- A path that leaves the way to a member finds what it found before the member was put. -/
theorem at?_put_of_apart {key : String} {path : List Segment} (h : Apart path [.key key]) (v : Json)
    (members : List (String × Json)) :
    (object (Fields.put key v members)).at? path = (object members).at? path := by
  cases path with
  | nil => exact absurd List.nil_prefix h.1
  | cons segment path =>
    cases segment with
    | item index => rfl
    | key name =>
      refine at?_put_of_ne ?_ v members path
      rintro rfl
      exact h.2 ⟨path, rfl⟩

theorem Apart.of_cons {segment : Segment} {path other : List Segment}
    (h : Apart (segment :: path) (segment :: other)) : Apart path other :=
  ⟨fun hp => h.1 (List.cons_prefix_cons.mpr ⟨rfl, hp⟩),
    fun hp => h.2 (List.cons_prefix_cons.mpr ⟨rfl, hp⟩)⟩

end Json

/-- The way to the time in the metadata of a record. -/
def timestampPath : List Json.Segment := [.key metadataKey, .key timestampKey]

namespace Record

section

variable {now : Int64} {r : Record} {old : Fields Json}

theorem backdate_of_object (h : r.lookup metadataKey = some (.object old)) (now : Int64) :
    r.backdate now = .ok (Fields.put metadataKey
      (.object (Fields.put timestampKey (timestamp now) old)) r) := by
  simp only [backdate, h]

theorem backdate_of_absent (h : metadataKey ∉ Fields.keys r) (now : Int64) :
    r.backdate now = .ok r := by
  simp only [backdate, Fields.lookup_eq_none_iff.mpr h]

/-- A path that leaves the way to the time finds what it found before. -/
theorem at?_backdate (h : r.lookup metadataKey = some (.object old)) (v : Json)
    {path : List Json.Segment} (apart : Json.Apart path timestampPath) :
    (Json.object (Fields.put metadataKey (.object (Fields.put timestampKey v old)) r)).at? path =
      (Json.object r).at? path := by
  by_cases hway : [.key metadataKey] <+: path
  · obtain ⟨rest, rfl⟩ := hway
    have hold : (Json.object r).at? (.key metadataKey :: rest) = (Json.object old).at? rest := by
      simp only [Json.at?, h]
    rw [List.singleton_append, hold, Json.at?_put_self]
    exact Json.at?_put_of_apart apart.of_cons v old
  · refine Json.at?_put_of_apart ⟨?_, hway⟩ _ r
    intro hshort
    exact apart.1 (hshort.trans ⟨[.key timestampKey], rfl⟩)

theorem timestamp_toInt (h : Int64.minValue.toInt + 1000 ≤ now.toInt) :
    ∃ time : Int64, time.toInt = now.toInt - 1000 ∧ timestamp now = .number (.int time.toInt) := by
  have hless := Int64.toInt_lt now
  have hmin : Int64.minValue.toInt = -2 ^ 63 := rfl
  have htime : (Int64.ofInt (now.toInt - 1000)).toInt = now.toInt - 1000 :=
    Int64.toInt_ofInt_of_le (by omega) (by omega)
  refine ⟨Int64.ofInt (now.toInt - 1000), htime, ?_⟩
  rw [htime]
  rfl

theorem timestamp_distinctKeys (now : Int64) : (timestamp now).DistinctKeys := trivial

theorem backdate_distinctKeys {dated : Record} (distinct : (Json.object r).DistinctKeys)
    (h : r.backdate now = .ok dated) : (Json.object dated).DistinctKeys := by
  rcases backdate_cases h with ⟨metadata, hm, rfl⟩ | ⟨_, rfl⟩
  · have hmetadata : (Json.object metadata).DistinctKeys :=
      Json.membersDistinct_iff.mp distinct.2 _ (Fields.mem_of_lookup hm)
    have hnew := hmetadata.put (timestamp_distinctKeys now) timestampKey
    exact distinct.put hnew metadataKey
  · exact distinct

/-- Dating writes the time in the metadata and nothing else: no key moves, and a path that leaves the
way to the time finds what it found before. A record without metadata stays as it is, and metadata
that is no object is refused by its kind. -/
theorem backdate_frame (hnow : Int64.minValue.toInt + 1000 ≤ now.toInt)
    (distinct : (Json.object r).DistinctKeys) :
    (∀ old, r.lookup metadataKey = some (.object old) →
      ∃ (dated : Record) (new : Fields Json) (time : Int64),
        r.backdate now = .ok dated ∧ (Json.object dated).DistinctKeys ∧
        Fields.keys dated = Fields.keys r ∧
        Fields.Sets metadataKey (.object new) r dated ∧
        time.toInt = now.toInt - 1000 ∧
        Fields.Sets timestampKey (.number (.int time.toInt)) old new ∧
        ∀ path, Json.Apart path timestampPath →
          (Json.object dated).at? path = (Json.object r).at? path) ∧
    (metadataKey ∉ Fields.keys r → r.backdate now = .ok r) ∧
    ∀ kind, r.Undatable kind → r.backdate now = .error (.metadata kind) ∧
      (ShapeFault.metadata kind).message =
        "\"_aws\" is a JSON " ++ kind.name ++ ", expected an object" := by
  refine ⟨?_, fun h => backdate_of_absent h now,
    fun kind h => ⟨backdate_of_undatable h now, ShapeFault.metadata_message kind⟩⟩
  intro old h
  obtain ⟨time, htime, hstamp⟩ := timestamp_toInt hnow
  have hdated := backdate_of_object h now
  refine ⟨_, _, time, hdated, backdate_distinctKeys distinct hdated,
    Fields.keys_put_of_lookup h _, Fields.put_sets metadataKey _ r, htime, ?_,
    fun path apart => at?_backdate h _ apart⟩
  rw [← hstamp]
  exact Fields.put_sets timestampKey _ old

end

/-- Both reserved keys also stand where they mean nothing. -/
def decoy : Record :=
  [("Timestamp", .bool true),
    ("_aws", .object [("Unit", .object [("Timestamp", .null), ("_aws", .null)])]),
    ("inner", .object [("_aws", .object [("Timestamp", .number (.int 1))])])]

theorem backdate_frame_decoy :
    ∃ dated, decoy.backdate (-5) = .ok dated ∧ Fields.keys dated = ["Timestamp", "_aws", "inner"] ∧
      (Json.object dated).at? [.key "_aws", .key "Unit", .key "Timestamp"] = some .null ∧
      (Json.object dated).at? [.key "inner", .key "_aws", .key "Timestamp"] =
        some (.number (.int 1)) := by
  have hdecoy : decoy.lookup metadataKey =
      some (.object [("Unit", .object [("Timestamp", .null), ("_aws", .null)])]) := by
    simp [decoy, metadataKey, List.lookup_cons]
  have hnow : Int64.minValue.toInt + 1000 ≤ (-5 : Int64).toInt := by decide
  have distinct : (Json.object decoy).DistinctKeys := by decide
  obtain ⟨dated, new, time, hdated, _, hkeys, _, _, _, hpaths⟩ :=
    (backdate_frame hnow distinct).1 _ hdecoy
  refine ⟨dated, hdated, hkeys, ?_, ?_⟩
  · rw [hpaths _ (by simp [Json.Apart, timestampPath, metadataKey, timestampKey])]
    rfl
  · rw [hpaths _ (by simp [Json.Apart, timestampPath, metadataKey, timestampKey])]
    rfl

end Record

end MetricUpload
