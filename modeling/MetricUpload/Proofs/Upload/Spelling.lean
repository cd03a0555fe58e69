import MetricUpload.Proofs.Upload.Delivery

namespace MetricUpload

namespace RecordSet

/-- How records may stand in a document: one of them alone, or any number in an array. -/
inductive Stands : List Record → Json → Prop
  | alone (r : Record) : Stands [r] (.object r)
  | listed (records : List Record) : Stands records (.array (records.map .object))

/-- A text that spells these records and has at most 127 containers open at once. -/
def Spelled (records : List Record) (text : String) : Prop :=
  ∃ (v : Json) (before after : Json.Blanks) (spelling : List Char), Stands records v ∧
    v.depth ≤ 127 ∧ Json.Spelled v spelling ∧ text.toList = before.chars ++ (spelling ++ after.chars)

/-- The events of the records of a text, dated by one reading and sent at those of a clock. -/
def eventsOf (now : Int64) (clock : Clock) (text : String) : Except UploadError (List Event) := do
  let dated ← (backdate now (← ofText text)).2
  .ok (Event.ofRecords clock dated).1

theorem ofJson_of_stands {records : List Record} {v : Json} (h : Stands records v) :
    Record.ofJson v = .ok records := by
  cases h with
  | alone r => rfl
  | listed => exact Record.ofItems_objects 0 records

theorem fits_of_stands {records : List Record} {v : Json} (h : Stands records v)
    (distinct : ∀ r ∈ records, (Json.object r).DistinctKeys)
    (inRange : ∀ r ∈ records, ∀ n ∈ (Json.object r).numbers, n.InRange)
    (shallow : v.depth ≤ Json.nestingLimit) : v.Fits 0 := by
  cases h with
  | alone r =>
    have hr : r ∈ [r] := List.mem_singleton_self r
    exact ⟨distinct r hr, by omega, inRange r hr⟩
  | listed =>
    refine ⟨?_, by omega, ?_⟩
    · refine Json.itemsDistinct_iff.mpr fun item hitem => ?_
      obtain ⟨r, hr, rfl⟩ := List.mem_map.mp hitem
      exact distinct r hr
    · intro n hn
      obtain ⟨item, hitem, hn⟩ := Json.mem_itemNumbers.mp hn
      obtain ⟨r, hr, rfl⟩ := List.mem_map.mp hitem
      exact inRange r hr n hn

theorem eventsOf_of_ofText {text : String} {records : List Record} (h : ofText text = .ok records)
    (now : Int64) (clock : Clock) :
    eventsOf now clock text =
      (backdate now records).2.map fun dated => (Event.ofRecords clock dated).1 := by
  simp only [eventsOf, h, bind, Except.bind]
  cases (backdate now records).2 <;> rfl

/-- Records are read from every spelling of them, with every key at its place. So all spellings
become the same events, and metadata is dated however its key and the key of its time are
spelled. -/
theorem ofText_spelled {records : List Record} {text : String}
    (distinct : ∀ r ∈ records, (Json.object r).DistinctKeys)
    (integers : ∀ r ∈ records, ∀ n ∈ (Json.object r).numbers, ∃ i, n = .int i ∧
      -9223372036854775808 ≤ i ∧ i ≤ 18446744073709551615)
    (spelled : Spelled records text) :
    ofText text = .ok records ∧
      (∀ other, Spelled records other →
        ∀ now clock, eventsOf now clock other = eventsOf now clock text) ∧
      ((∀ r ∈ records, r.Datable) → ∀ now clock, ∃ events,
        eventsOf now clock text = .ok events ∧ events.length = records.length ∧
        ∀ (i : Nat) (r : Record) (event : Event), records[i]? = some r → events[i]? = some event →
          ∃ sent, Record.Dated (now.toInt - 1000) r sent ∧
            event = Event.ofRecord sent (clock.reading (clock.taken + i))) := by
  have inRange : ∀ r ∈ records, ∀ n ∈ (Json.object r).numbers, n.InRange := by
    intro r hr n hn
    obtain ⟨i, rfl, hbounds⟩ := integers r hr n hn
    exact Number.inRange_int_iff.mpr hbounds
  have hread : ∀ other, Spelled records other → ofText other = .ok records := by
    rintro other ⟨v, before, after, spelling, hstands, hdepth, hspelled, htext⟩
    have hlimit : Json.nestingLimit = 127 := rfl
    have hfits := fits_of_stands hstands distinct inRange (by omega)
    exact ofText_eq_ok_iff.mpr
      ⟨v, Json.read_of_spelled hfits hspelled before after htext, ofJson_of_stands hstands⟩
  refine ⟨hread text spelled, ?_, ?_⟩
  · intro other hother now clock
    rw [eventsOf_of_ofText (hread other hother), eventsOf_of_ofText (hread text spelled)]
  · intro datable now clock
    obtain ⟨dated, hdated⟩ : ∃ dated, (backdate now records).2 = .ok dated :=
      exists_backdate_iff.mpr datable
    refine ⟨(Event.ofRecords clock dated).1, ?_, ?_, ?_⟩
    · rw [eventsOf_of_ofText (hread text spelled), hdated]
      rfl
    · rw [Event.ofRecords_length, length_of_backdate hdated]
    · intro i r event hr hevent
      exact Event.exists_dated_of_event hdated hr hevent

/-- Metadata with a time, and a key outside the first plane. -/
def disguised : List Record :=
  [[("_aws", .object [("Timestamp", .number (.int 1))]), ("𝄞", .string "/")]]

theorem spelled_disguised : Spelled disguised
    "\x7b\"\\u005Faws\" :\n\x7b\"\\u0054imestamp\":1\x7d,\"\\uD834\\udd1e\":\"\\/\"\x7d" := by
  let lower (n : Fin 16) : Json.HexDigit := ⟨n, false⟩
  let upper (n : Fin 16) : Json.HexDigit := ⟨n, true⟩
  let line : Json.Blanks := ⟨['\n'], List.forall_mem_singleton.mpr rfl⟩
  let space : Json.Blanks := ⟨[' '], List.forall_mem_singleton.mpr rfl⟩
  have underscore : Json.CharSpelled '_'
      (Json.Piece.unit (lower 0) (lower 0) (lower 5) (upper 15)).chars := .unit rfl
  have capital : Json.CharSpelled 'T'
      (Json.Piece.unit (lower 0) (lower 0) (lower 5) (lower 4)).chars := .unit rfl
  have clef : Json.CharSpelled '𝄞'
      ((Json.Piece.unit (upper 13) (lower 8) (lower 3) (lower 4)).chars ++
        (Json.Piece.unit (lower 13) (lower 13) (lower 1) (lower 14)).chars) :=
    .pair (by decide +kernel) (by decide +kernel) (by decide +kernel)
  have htime : Json.KeySpelled "Timestamp" _ :=
    ⟨.none, .none, _, .cons capital (Json.textSpelled_escaped "imestamp".toList), rfl⟩
  have hmetadata : Json.KeySpelled "_aws" _ :=
    ⟨.none, space, _, .cons underscore (Json.textSpelled_escaped "aws".toList), rfl⟩
  have hclef : Json.KeySpelled "𝄞" _ := ⟨.none, .none, _, .cons clef .nil, rfl⟩
  have hinner : Json.Spelled (.object [("Timestamp", .number (.int 1))]) _ :=
    .object (.last .none .none htime (.integer 1))
  have hslash : Json.Spelled (.string "/") _ := .string (.cons (.short .slash) .nil)
  have houter := Json.Spelled.object
    (.more line .none hmetadata hinner (.last .none .none hclef hslash))
  exact ⟨_, .none, .none, _, .alone _, by decide, houter, by decide +kernel⟩

theorem ofText_spelled_disguised :
    ofText "\x7b\"\\u005Faws\" :\n\x7b\"\\u0054imestamp\":1\x7d,\"\\uD834\\udd1e\":\"\\/\"\x7d" =
        .ok disguised ∧
      ∀ now clock, eventsOf now clock "[\x7b\"_aws\":\x7b\"Timestamp\":1\x7d,\"𝄞\":\"/\"\x7d]" =
        eventsOf now clock
          "\x7b\"\\u005Faws\" :\n\x7b\"\\u0054imestamp\":1\x7d,\"\\uD834\\udd1e\":\"\\/\"\x7d" := by
  have plain : Spelled disguised "[\x7b\"_aws\":\x7b\"Timestamp\":1\x7d,\"𝄞\":\"/\"\x7d]" := by
    have hf : (Json.array (disguised.map .object)).WithoutFloats := by decide
    exact ⟨_, .none, .none, _, .listed _, by decide, Json.spelled_chars hf, by rfl⟩
  have integers : ∀ r ∈ disguised, ∀ n ∈ (Json.object r).numbers, ∃ i, n = .int i ∧
      -9223372036854775808 ≤ i ∧ i ≤ 18446744073709551615 := by
    simp [disguised, Json.numbers, Json.memberNumbers]
  obtain ⟨hread, hevents, _⟩ := ofText_spelled (by decide) integers spelled_disguised
  exact ⟨hread, fun now clock => hevents _ plain now clock⟩

end RecordSet

end MetricUpload
