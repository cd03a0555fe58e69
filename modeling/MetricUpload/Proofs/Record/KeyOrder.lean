import MetricUpload.Proofs.Json.Equality
import MetricUpload.Proofs.Record.Frame
import MetricUpload.Proofs.Record.RoundTrip

namespace MetricUpload

namespace Record

/-- Equality of values. -/
def Same (a b : Record) : Prop := Json.Same (.object a) (.object b)

theorem distinctKeys_of_lookup {r : Record} (h : (Json.object r).DistinctKeys) {key : String}
    {v : Json} (hv : r.lookup key = some v) : v.DistinctKeys :=
  Json.membersDistinct_iff.mp h.2 _ (Fields.mem_of_lookup hv)

theorem timestamp_same (now : Int64) : Json.Same (timestamp now) (timestamp now) := by
  simp [Json.Same, timestamp, Json.same, Number.same]

/-- Equal records are refused for the same reason or dated to equal records. -/
theorem backdate_of_same {a b : Record} (distinct : (Json.object a).DistinctKeys) (h : Same a b)
    (now : Int64) :
    (∃ fault, a.backdate now = .error fault ∧ b.backdate now = .error fault) ∨
      ∃ first second, a.backdate now = .ok first ∧ b.backdate now = .ok second ∧
        Same first second := by
  have hagree := (Json.same_object_iff distinct.1).mp h
  cases hv : a.lookup metadataKey with
  | none =>
    have hw := hagree.lookup_none hv
    exact .inr ⟨a, b, backdate_of_absent (Fields.lookup_eq_none_iff.mp hv) now,
      backdate_of_absent (Fields.lookup_eq_none_iff.mp hw) now, h⟩
  | some v =>
    obtain ⟨w, hw, hsame⟩ := hagree.lookup_some hv
    by_cases hobject : v.kind = .object
    · obtain ⟨old, rfl⟩ : ∃ old, v = .object old := by
        cases v with
        | object old => exact ⟨old, rfl⟩
        | _ => cases hobject
      obtain ⟨other, rfl⟩ := Json.exists_object_of_same hsame
      have hold : (Fields.keys old).Nodup := (distinctKeys_of_lookup distinct hv).1
      have hmetadata := ((Json.same_object_iff hold).mp hsame).put (timestamp_same now) timestampKey
      have hnew := (Json.same_object_iff (Fields.keys_nodup_put hold)).mpr hmetadata
      have hrecord := (Json.same_object_iff (Fields.keys_nodup_put distinct.1)).mpr
        (hagree.put hnew metadataKey)
      exact .inr ⟨_, _, backdate_of_object hv now, backdate_of_object hw now, hrecord⟩
    · have hkind := Json.kind_of_same hsame
      have hfirst : a.Undatable v.kind := ⟨v, hv, rfl, hobject⟩
      have hsecond : b.Undatable v.kind := ⟨w, hw, hkind.symm, hobject⟩
      exact .inl ⟨_, backdate_of_undatable hfirst now, backdate_of_undatable hsecond now⟩

end Record

namespace RecordSet

theorem same_iff {as bs : List Record} : same as bs = true ↔ List.Forall₂ Record.Same as bs := by
  rw [same, Json.sameItems_iff, List.forall₂_map_left_iff, List.forall₂_map_right_iff]
  rfl

theorem backdateFrom_of_same {as bs : List Record}
    (distinct : ∀ r ∈ as, (Json.object r).DistinctKeys) (h : List.Forall₂ Record.Same as bs)
    (now : Int64) (index : Nat) :
    (∃ fault, (backdateFrom now index as).2 = .error fault ∧
      (backdateFrom now index bs).2 = .error fault) ∨
    ∃ first second, (backdateFrom now index as).2 = .ok first ∧
      (backdateFrom now index bs).2 = .ok second ∧ List.Forall₂ Record.Same first second := by
  induction h generalizing index with
  | nil => exact .inr ⟨[], [], rfl, rfl, .nil⟩
  | @cons a b as bs hab _ ih =>
    obtain ⟨hfirst, hrest⟩ := List.forall_mem_cons.mp distinct
    rcases Record.backdate_of_same hfirst hab now with
      ⟨fault, hfirst, hsecond⟩ | ⟨first, second, hfirst, hsecond, hsame⟩
    · exact .inl ⟨.inRecord index fault, by simp only [backdateFrom, hfirst],
        by simp only [backdateFrom, hsecond]⟩
    · simp only [backdateFrom, hfirst, hsecond]
      rcases ih hrest (index + 1) with ⟨fault, hf, hs⟩ | ⟨firsts, seconds, hf, hs, hsames⟩
      · rw [hf, hs]
        exact .inl ⟨fault, rfl, rfl⟩
      · rw [hf, hs]
        exact .inr ⟨first :: firsts, second :: seconds, rfl, rfl, .cons hsame hsames⟩

theorem backdate_of_same {as bs : List Record} (distinct : ∀ r ∈ as, (Json.object r).DistinctKeys)
    (h : same as bs = true) (now : Int64) :
    (∃ e, (backdate now as).2 = .error e ∧ (backdate now bs).2 = .error e) ∨
      ∃ first second, (backdate now as).2 = .ok first ∧ (backdate now bs).2 = .ok second ∧
        same first second = true := by
  simp only [backdate]
  rcases backdateFrom_of_same distinct (same_iff.mp h) now 0 with
    ⟨fault, hfirst, hsecond⟩ | ⟨first, second, hfirst, hsecond, hsame⟩
  · rw [hfirst, hsecond]
    exact .inl ⟨.shape fault, rfl, rfl⟩
  · rw [hfirst, hsecond]
    exact .inr ⟨first, second, rfl, rfl, same_iff.mpr hsame⟩

/-- Equal records remain equal on their way, whatever the order of their keys at any level: dated
alone, dated in a list, and read back from their messages. What cannot be dated is refused for the
same reason. -/
theorem same_throughout :
    (∀ a b : Record, (Json.object a).DistinctKeys → (Json.object b).DistinctKeys →
      Json.same (.object a) (.object b) = true → ∀ now : Int64,
        (∃ fault, a.backdate now = .error fault ∧ b.backdate now = .error fault) ∨
          ∃ first second, a.backdate now = .ok first ∧ b.backdate now = .ok second ∧
            Json.same (.object first) (.object second) = true) ∧
    (∀ as bs : List Record, (∀ r ∈ as ++ bs, (Json.object r).DistinctKeys) →
      same as bs = true → ∀ now : Int64,
        (∃ e, (backdate now as).2 = .error e ∧ (backdate now bs).2 = .error e) ∨
          ∃ first second, (backdate now as).2 = .ok first ∧ (backdate now bs).2 = .ok second ∧
            same first second = true) ∧
    ∀ a b : Record, (∀ r ∈ [a, b], (Json.object r).DistinctKeys ∧ (Json.object r).depth ≤ 127 ∧
        ∀ n ∈ (Json.object r).numbers, ∃ i, n = .int i ∧
          -9223372036854775808 ≤ i ∧ i ≤ 18446744073709551615) →
      Json.same (.object a) (.object b) = true → ∀ first second : Int64,
        ∃ left right, ofText (Event.ofRecord a first).message = .ok left ∧
          ofText (Event.ofRecord b second).message = .ok right ∧ same left right = true := by
  refine ⟨?_, ?_, ?_⟩
  · intro a b distinct _ h now
    exact Record.backdate_of_same distinct h now
  · intro as bs distinct h now
    exact backdate_of_same (fun r hr => distinct r (List.mem_append_left bs hr)) h now
  · intro a b hboth h first second
    have hread : ∀ r ∈ [a, b], ∀ timestamp, ofText (Event.ofRecord r timestamp).message = .ok [r] := by
      intro r hr timestamp
      obtain ⟨distinct, shallow, integers⟩ := hboth r hr
      obtain ⟨hfits, hf⟩ := Json.fits_of_integers distinct shallow integers
      exact ofText_object hfits hf
    have hsame : same [a] [b] = true := same_iff.mpr (.cons h .nil)
    exact ⟨[a], [b], hread a (by simp) first, hread b (by simp) second, hsame⟩

/-- One record with its keys in two orders, in its metadata too. -/
def ordered : Record :=
  [("x", .number (.int 1)), ("_aws", .object [("Timestamp", .null), ("Unit", .array [.null])])]

def reordered : Record :=
  [("_aws", .object [("Unit", .array [.null]), ("Timestamp", .null)]), ("x", .number (.int 1))]

theorem same_throughout_reordered :
    Json.same (.object ordered) (.object reordered) = true ∧
      (∃ first second, ordered.backdate 5000 = .ok first ∧ reordered.backdate 5000 = .ok second ∧
        Json.same (.object first) (.object second) = true) ∧
      (∃ e, (backdate 5000 [ordered, [("_aws", .null)]]).2 = .error e ∧
        (backdate 5000 [reordered, [("_aws", .null)]]).2 = .error e) ∧
      ∃ left right, ofText (Event.ofRecord ordered 1).message = .ok left ∧
        ofText (Event.ofRecord reordered 2).message = .ok right ∧ same left right = true := by
  obtain ⟨hsingle, hlists, hmessages⟩ := same_throughout
  have hsame : Json.same (.object ordered) (.object reordered) = true := by decide
  have hdated : ∃ dated, ordered.backdate 5000 = .ok dated := ⟨_, rfl⟩
  have hrefused : ∃ e, (backdate 5000 [ordered, [("_aws", .null)]]).2 = .error e := ⟨_, rfl⟩
  refine ⟨hsame, ?_, ?_, ?_⟩
  · obtain ⟨dated, hdated⟩ := hdated
    rcases hsingle ordered reordered (by decide) (by decide) hsame 5000 with ⟨fault, hf, _⟩ | h
    · cases hdated.symm.trans hf
    · exact h
  · obtain ⟨e, he⟩ := hrefused
    rcases hlists [ordered, [("_aws", .null)]] [reordered, [("_aws", .null)]] (by decide) (by decide)
      5000 with h | ⟨_, _, hok, _⟩
    · exact h
    · cases he.symm.trans hok
  · refine hmessages ordered reordered ?_ hsame 1 2
    simp [ordered, reordered, Json.DistinctKeys, Json.MembersDistinct, Json.ItemsDistinct,
      Fields.keys, Json.depth, Json.membersDepth, Json.itemsDepth, Json.numbers, Json.memberNumbers,
      Json.itemNumbers]

end RecordSet

end MetricUpload
