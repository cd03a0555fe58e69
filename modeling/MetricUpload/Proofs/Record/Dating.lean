import MetricUpload.Proofs.Fields.Lookup
import MetricUpload.Proofs.Json.Conclusion
import MetricUpload.Proofs.Json.Shape
import MetricUpload.RecordSet

namespace MetricUpload

namespace Fields

variable {α : Type}

/-- The second list is the first with this value under the key: at the old place of the key, or last
when there was none. -/
inductive Assigned (key : String) (value : α) : Fields α → Fields α → Prop
  | replaced {before : Fields α} {old : α} {after : Fields α} (first : key ∉ keys before) :
      Assigned key value (before ++ (key, old) :: after) (before ++ (key, value) :: after)
  | appended {fields : Fields α} (new : key ∉ keys fields) :
      Assigned key value fields (fields ++ [(key, value)])

theorem put_append_of_not_mem {key : String} {before : Fields α} (h : key ∉ keys before)
    (value old : α) (after : Fields α) :
    put key value (before ++ (key, old) :: after) = before ++ (key, value) :: after := by
  induction before with
  | nil => simp [put]
  | cons member before ih =>
    obtain ⟨k, v⟩ := member
    simp only [keys, List.map_cons, List.mem_cons, not_or] at h
    have hk : k ≠ key := fun he => h.1 he.symm
    simp only [List.cons_append, put, hk, ↓reduceIte, ih h.2]

theorem assigned_put (key : String) (value : α) (fields : Fields α) :
    Assigned key value fields (put key value fields) := by
  cases h : fields.lookup key with
  | none =>
    have hnew := lookup_eq_none_iff.mp h
    rw [put_of_not_mem hnew]
    exact .appended hnew
  | some old =>
    obtain ⟨before, after, rfl, hb⟩ := exists_of_lookup h
    rw [put_append_of_not_mem hb]
    exact .replaced hb

end Fields

namespace ShapeFault

theorem metadata_message (kind : Kind) :
    (metadata kind).message = "\"_aws\" is a JSON " ++ kind.name ++ ", expected an object" := by
  cases kind <;> rfl

theorem inRecord_message (index : Nat) (kind : Kind) :
    (inRecord index (metadata kind)).message =
      "record " ++ toString index ++ ": \"_aws\" is a JSON " ++ kind.name ++
        ", expected an object" := by
  have h : (inRecord index (metadata kind)).message =
      "record " ++ toString index ++ ": " ++ (metadata kind).message := rfl
  simp only [h, metadata_message, String.append_assoc]
  rfl

end ShapeFault

namespace Record

/-- The second record is the first with this time in its metadata, in milliseconds, and no other
difference. A record without metadata is left alone. -/
inductive Dated (time : Int) : Record → Record → Prop
  | metadata {before after : Record} {old new : Fields Json} (first : metadataKey ∉ Fields.keys before)
      (assigned : Fields.Assigned timestampKey (.number (.int time)) old new) :
      Dated time (before ++ (metadataKey, .object old) :: after)
        (before ++ (metadataKey, .object new) :: after)
  | plain {r : Record} (absent : metadataKey ∉ Fields.keys r) : Dated time r r

/-- All that dating can do. -/
theorem backdate_cases {now : Int64} {r dated : Record} (h : r.backdate now = .ok dated) :
    (∃ metadata, r.lookup metadataKey = some (.object metadata) ∧
      dated = Fields.put metadataKey
        (.object (Fields.put timestampKey (timestamp now) metadata)) r) ∨
    (r.lookup metadataKey = none ∧ dated = r) := by
  unfold backdate at h
  split at h
  next metadata hm =>
    cases h
    exact .inl ⟨metadata, hm, rfl⟩
  next => cases h
  next hm =>
    cases h
    exact .inr ⟨hm, rfl⟩

theorem dated_of_backdate {now : Int64} {r dated : Record} (h : r.backdate now = .ok dated) :
    Dated (now.toInt - 1000) r dated := by
  rcases backdate_cases h with ⟨metadata, hm, rfl⟩ | ⟨hm, rfl⟩
  · obtain ⟨before, after, rfl, hb⟩ := Fields.exists_of_lookup hm
    rw [Fields.put_append_of_not_mem hb]
    exact .metadata hb (Fields.assigned_put timestampKey _ metadata)
  · exact .plain (Fields.lookup_eq_none_iff.mp hm)

/-- What stands for metadata is an object. -/
def Datable (r : Record) : Prop :=
  ∀ v, r.lookup metadataKey = some v → ∃ metadata, v = .object metadata

theorem exists_backdate_iff {r : Record} {now : Int64} :
    (∃ dated, r.backdate now = .ok dated) ↔ r.Datable := by
  unfold backdate Datable
  cases hm : r.lookup metadataKey with
  | none => simp
  | some v => cases v <;> simp

/-- What stands for metadata is a value of this kind, and no object. -/
def Undatable (r : Record) (kind : Kind) : Prop :=
  ∃ v, r.lookup metadataKey = some v ∧ v.kind = kind ∧ kind ≠ .object

theorem datable_or_undatable (r : Record) : r.Datable ∨ ∃ kind, r.Undatable kind := by
  unfold Datable Undatable
  cases hm : r.lookup metadataKey with
  | none => exact .inl fun v hv => by cases hv
  | some v =>
    by_cases hobject : v.kind = .object
    · refine .inl fun w hw => ?_
      cases hw
      cases v with
      | object metadata => exact ⟨metadata, rfl⟩
      | _ => cases hobject
    · exact .inr ⟨v.kind, v, rfl, rfl, hobject⟩

theorem backdate_of_undatable {r : Record} {kind : Kind} (h : r.Undatable kind) (now : Int64) :
    r.backdate now = .error (.metadata kind) := by
  obtain ⟨v, hm, rfl, hobject⟩ := h
  cases v with
  | object metadata => exact absurd rfl hobject
  | _ => simp only [backdate, hm]

theorem timestamp_fits {outside : Nat} {now : Int64} (hnow : Int64.minValue.toInt + 1000 ≤ now.toInt)
    (h : outside ≤ Json.nestingLimit) : (timestamp now).Fits outside := by
  have hleast : Int64.minValue.toInt = -9223372036854775808 := rfl
  have hless := Int64.toInt_lt now
  refine ⟨trivial, h, ?_⟩
  intro n hn
  rw [List.mem_singleton.mp hn]
  simp only [Number.inRange_int_iff, backdating]
  omega

theorem backdate_fits {outside : Nat} {now : Int64} {r dated : Record}
    (hnow : Int64.minValue.toInt + 1000 ≤ now.toInt) (hr : (Json.object r).Fits outside)
    (h : r.backdate now = .ok dated) : (Json.object dated).Fits outside := by
  rcases backdate_cases h with ⟨metadata, hm, rfl⟩ | ⟨_, rfl⟩
  · have hmembers := Json.fits_object.mp hr
    have hmeta := Json.fits_object.mp (hmembers.2.2 _ (Fields.mem_of_lookup hm))
    have hroom : outside + 2 ≤ Json.nestingLimit := by
      have := hmeta.1
      omega
    have hdated := hmeta.put (timestamp_fits hnow hroom) timestampKey
    exact Json.fits_object.mpr (hmembers.put (Json.fits_object.mpr hdated) metadataKey)
  · exact hr

theorem timestamp_withoutFloats (now : Int64) : (timestamp now).WithoutFloats := by
  intro n hn
  exact ⟨_, List.mem_singleton.mp hn⟩

theorem backdate_withoutFloats {now : Int64} {r dated : Record}
    (hr : (Json.object r).WithoutFloats) (h : r.backdate now = .ok dated) :
    (Json.object dated).WithoutFloats := by
  rcases backdate_cases h with ⟨metadata, hm, rfl⟩ | ⟨_, rfl⟩
  · have hmembers := Json.withoutFloats_object.mp hr
    have hmeta := Json.withoutFloats_object.mp (hmembers _ (Fields.mem_of_lookup hm))
    have hdated := Json.withoutFloats_object.mpr (Fields.forall_put (P := Json.WithoutFloats)
      (timestamp_withoutFloats now) hmeta timestampKey)
    exact Json.withoutFloats_object.mpr (Fields.forall_put (P := Json.WithoutFloats)
      hdated hmembers metadataKey)
  · exact hr

/-- Only the last dating counts. -/
theorem backdate_backdate {first : Int64} {r dated : Record} (h : r.backdate first = .ok dated)
    (second : Int64) : dated.backdate second = r.backdate second := by
  rcases backdate_cases h with ⟨metadata, hm, rfl⟩ | ⟨_, rfl⟩
  · simp only [backdate, Fields.lookup_put_self, hm, Fields.put_put]
  · rfl

end Record

namespace RecordSet

theorem backdateFrom_eq_ok_iff {now : Int64} {index : Nat} {records dated : List Record} :
    (backdateFrom now index records).2 = .ok dated ↔
      records.map (Record.backdate now) = dated.map .ok := by
  induction records generalizing index dated with
  | nil =>
    simp only [backdateFrom, Except.ok.injEq, List.map_nil]
    constructor
    · rintro rfl
      rfl
    · intro h
      exact (List.map_eq_nil_iff.mp h.symm).symm
  | cons r records ih =>
    cases hr : r.backdate now with
    | error fault => cases dated <;> simp [backdateFrom, hr]
    | ok first =>
      simp only [backdateFrom, hr, List.map_cons]
      constructor
      · intro h
        cases hrest : (backdateFrom now (index + 1) records).2 with
        | error fault =>
          rw [hrest] at h
          cases h
        | ok rest =>
          rw [hrest] at h
          cases h
          rw [List.map_cons, ih.mp hrest]
      · intro h
        cases dated with
        | nil => cases h
        | cons other rest =>
          simp only [List.map_cons, List.cons.injEq, Except.ok.injEq] at h
          rw [ih.mpr h.2, h.1]
          rfl

theorem backdate_eq_ok_iff {now : Int64} {records dated : List Record} :
    (backdate now records).2 = .ok dated ↔
      records.map (Record.backdate now) = dated.map .ok := by
  exact mapError_eq_ok_iff.trans backdateFrom_eq_ok_iff

theorem exists_backdate_iff {now : Int64} {records : List Record} :
    (∃ dated, (backdate now records).2 = .ok dated) ↔ ∀ r ∈ records, r.Datable := by
  simp only [backdate_eq_ok_iff]
  induction records with
  | nil => exact iff_of_true ⟨[], rfl⟩ (by simp)
  | cons r records ih =>
    have hr : (∃ dated, r.backdate now = .ok dated) ↔ r.Datable := Record.exists_backdate_iff
    rw [List.forall_mem_cons, ← ih, ← hr]
    constructor
    · rintro ⟨dated, h⟩
      cases dated with
      | nil => cases h
      | cons first rest =>
        rw [List.map_cons, List.map_cons, List.cons.injEq] at h
        exact ⟨⟨first, h.1⟩, rest, h.2⟩
    · rintro ⟨⟨first, hfirst⟩, rest, hrest⟩
      exact ⟨first :: rest, by simp only [List.map_cons, hfirst, hrest]⟩

/-- A record that cannot be dated, behind records that can. -/
def FirstUndatable (records : List Record) (index : Nat) (kind : Kind) : Prop :=
  ∃ r, records[index]? = some r ∧ r.Undatable kind ∧
    ∀ j < index, ∀ s, records[j]? = some s → s.Datable

theorem datable_or_firstUndatable (records : List Record) :
    (∀ r ∈ records, r.Datable) ∨ ∃ index kind, FirstUndatable records index kind := by
  induction records with
  | nil => exact .inl (by simp)
  | cons first rest ih =>
    rcases first.datable_or_undatable with hfirst | ⟨kind, hfirst⟩
    · rcases ih with hrest | ⟨index, kind, r, hr, hkind, hbefore⟩
      · exact .inl (List.forall_mem_cons.mpr ⟨hfirst, hrest⟩)
      · refine .inr ⟨index + 1, kind, r, hr, hkind, ?_⟩
        intro j hj s hs
        cases j with
        | zero =>
          cases hs
          exact hfirst
        | succ j => exact hbefore j (by omega) s hs
    · refine .inr ⟨0, kind, first, rfl, hfirst, ?_⟩
      intro j hj
      omega

theorem backdateFrom_of_firstUndatable {records : List Record} {index : Nat} {kind : Kind}
    (h : FirstUndatable records index kind) (now : Int64) (start : Nat) :
    (backdateFrom now start records).2 = .error (.inRecord (start + index) (.metadata kind)) := by
  induction records generalizing index start with
  | nil =>
    obtain ⟨r, hr, _⟩ := h
    cases hr
  | cons first rest ih =>
    obtain ⟨r, hr, hkind, hbefore⟩ := h
    cases index with
    | zero =>
      cases hr
      simp only [backdateFrom, Record.backdate_of_undatable hkind, Nat.add_zero]
    | succ index =>
      obtain ⟨dated, hdated⟩ : ∃ dated, first.backdate now = .ok dated :=
        Record.exists_backdate_iff.mpr (hbefore 0 (by omega) first rfl)
      have hrest : FirstUndatable rest index kind :=
        ⟨r, hr, hkind, fun j hj s hs => hbefore (j + 1) (by omega) s hs⟩
      have hplace : start + 1 + index = start + (index + 1) := by omega
      simp only [backdateFrom, hdated, ih hrest, hplace]
      rfl

theorem backdate_of_firstUndatable {records : List Record} {index : Nat} {kind : Kind}
    (h : FirstUndatable records index kind) (now : Int64) :
    (backdate now records).2 = .error (.shape (.inRecord index (.metadata kind))) := by
  have hfrom := backdateFrom_of_firstUndatable h now 0
  rw [Nat.zero_add] at hfrom
  simp only [backdate, hfrom]
  rfl

theorem length_of_backdate {now : Int64} {records dated : List Record}
    (h : (backdate now records).2 = .ok dated) : dated.length = records.length := by
  have := congrArg List.length (backdate_eq_ok_iff.mp h)
  simpa using this.symm

theorem backdate_getElem {now : Int64} {records dated : List Record}
    (h : (backdate now records).2 = .ok dated) {i : Nat} {r second : Record}
    (hr : records[i]? = some r) (hd : dated[i]? = some second) : r.backdate now = .ok second := by
  have he := congrArg (·[i]?) (backdate_eq_ok_iff.mp h)
  simpa [hr, hd] using he

theorem exists_of_mem_backdate {now : Int64} {records dated : List Record}
    (h : (backdate now records).2 = .ok dated) {second : Record} (hm : second ∈ dated) :
    ∃ r ∈ records, r.backdate now = .ok second := by
  have hmem : (.ok second : Except ShapeFault Record) ∈ records.map (Record.backdate now) := by
    rw [backdate_eq_ok_iff.mp h]
    exact List.mem_map_of_mem hm
  exact List.mem_map.mp hmem

/-- Dating dated records is dating the records they were before. -/
theorem backdate_backdate {first : Int64} {records dated : List Record}
    (h : (backdate first records).2 = .ok dated) {second : Int64} {last : List Record} :
    (backdate second dated).2 = .ok last ↔ (backdate second records).2 = .ok last := by
  rw [backdate_eq_ok_iff, backdate_eq_ok_iff]
  have he : dated.map (Record.backdate second) = records.map (Record.backdate second) := by
    apply List.ext_getElem?
    intro i
    rw [List.getElem?_map, List.getElem?_map]
    have hlength := length_of_backdate h
    cases hr : records[i]? with
    | none =>
      have := List.getElem?_eq_none_iff.mp hr
      rw [List.getElem?_eq_none (by omega)]
    | some r =>
      obtain ⟨hi, _⟩ := List.getElem?_eq_some_iff.mp hr
      have hd := List.getElem?_eq_getElem (by omega : i < dated.length)
      rw [hd, Option.map_some, Option.map_some,
        Record.backdate_backdate (backdate_getElem h hr hd) second]
  rw [he]

theorem firstUndatable_of_not_datable {records : List Record} (h : ¬∀ r ∈ records, r.Datable) :
    ∃ index kind, FirstUndatable records index kind :=
  (datable_or_firstUndatable records).resolve_left h

/-- Records of which some dating succeeded can be dated at any time, and their second dating is what
the first would have been at that time. -/
theorem backdate_again {first : Int64} {records dated : List Record}
    (h : (backdate first records).2 = .ok dated) (later : Int64) :
    (backdate later dated).2 = (backdate later records).2 := by
  obtain ⟨last, hlast⟩ : ∃ last, (backdate later records).2 = .ok last :=
    exists_backdate_iff.mpr (exists_backdate_iff.mp ⟨dated, h⟩)
  rw [hlast]
  exact (backdate_backdate h).mpr hlast

/-- All records are dated or none is. What stands in the way is the first record with metadata of a
wrong kind, at any time alike, and of several datings in a row only the last counts. -/
theorem backdate_allOrNone (records : List Record) :
    (∀ now, (∃ dated, (backdate now records).2 = .ok dated) ↔ ∀ r ∈ records, r.Datable) ∧
    (∀ now dated, (backdate now records).2 = .ok dated →
      dated.length = records.length ∧
      (∀ (i : Nat) (r second : Record), records[i]? = some r → dated[i]? = some second →
        r.backdate now = .ok second) ∧
      ∀ later, (backdate later dated).2 = (backdate later records).2) ∧
    ((¬∀ r ∈ records, r.Datable) → ∃ index kind fault, FirstUndatable records index kind ∧
      fault.message = "record " ++ toString index ++ ": \"_aws\" is a JSON " ++ kind.name ++
        ", expected an object" ∧
      ∀ now, (backdate now records).2 = .error (.shape fault)) := by
  refine ⟨fun now => exists_backdate_iff, ?_, ?_⟩
  · intro now dated h
    exact ⟨length_of_backdate h, fun _ _ _ hr hd => backdate_getElem h hr hd, backdate_again h⟩
  · intro hbad
    obtain ⟨index, kind, hfirst⟩ := firstUndatable_of_not_datable hbad
    exact ⟨index, kind, _, hfirst, ShapeFault.inRecord_message index kind,
      backdate_of_firstUndatable hfirst⟩

/-- With metadata, without, with metadata of a wrong kind, and without again. -/
def uneven : List Record :=
  [[("_aws", .object [("Timestamp", .string "soon")])], [("x", .null)], [("_aws", .array [])],
    [("y", .null)]]

theorem firstUndatable_uneven : FirstUndatable uneven 2 .array := by
  refine ⟨_, rfl, ⟨.array [], by simp [metadataKey], rfl, by decide⟩, ?_⟩
  intro j hj r hr
  obtain rfl | rfl : j = 0 ∨ j = 1 := by omega
  · cases hr
    exact fun v hv => ⟨_, by simpa [metadataKey, List.lookup_cons] using hv.symm⟩
  · cases hr
    exact fun v hv => by simp [metadataKey, List.lookup_cons] at hv

theorem backdate_allOrNone_uneven :
    (∃ dated, (backdate 5000 (uneven.take 2)).2 = .ok dated ∧ dated.length = 2 ∧
      (backdate 9000 dated).2 = (backdate 9000 (uneven.take 2)).2) ∧
    ∃ index kind fault, FirstUndatable uneven index kind ∧
      fault.message = "record " ++ toString index ++ ": \"_aws\" is a JSON " ++ kind.name ++
        ", expected an object" ∧
      ∀ now, (backdate now uneven).2 = .error (.shape fault) := by
  refine ⟨?_, ?_⟩
  · obtain ⟨hall, hdated, _⟩ := backdate_allOrNone (uneven.take 2)
    obtain ⟨dated, h⟩ := (hall 5000).mpr (by
      simp [uneven, Record.Datable, metadataKey, List.lookup_cons])
    exact ⟨dated, h, (hdated 5000 dated h).1, (hdated 5000 dated h).2.2 9000⟩
  · refine (backdate_allOrNone uneven).2.2 fun hall => ?_
    obtain ⟨metadata, h⟩ := hall [("_aws", .array [])] (by simp [uneven]) (.array [])
      (by simp [metadataKey])
    cases h

end RecordSet

end MetricUpload
