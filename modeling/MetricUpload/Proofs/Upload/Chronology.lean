import MetricUpload.Proofs.Clock.Reading
import MetricUpload.Proofs.Upload.Delivery

namespace MetricUpload

namespace Record

def HasMetadata (r : Record) : Prop := ∃ metadata, r.lookup metadataKey = some (.object metadata)

/-- The time in the metadata of a record, where it is an integer. -/
def metadataTime? (r : Record) : Option Int :=
  match r.lookup metadataKey with
  | some (.object metadata) =>
    match metadata.lookup timestampKey with
    | some (.number (.int time)) => some time
    | _ => none
  | _ => none

theorem metadataTime?_of_backdate {now : Int64} {r dated : Record} (h : r.backdate now = .ok dated)
    (metadata : dated.HasMetadata) : dated.metadataTime? = some (now.toInt - 1000) := by
  rcases backdate_cases h with ⟨old, _, rfl⟩ | ⟨habsent, rfl⟩
  · simp only [metadataTime?, Fields.lookup_put_self, timestamp, backdating]
  · obtain ⟨members, hmembers⟩ := metadata
    rw [habsent] at hmembers
    cases hmembers

theorem hasMetadata_of_backdate {now : Int64} {r dated : Record} (h : r.backdate now = .ok dated)
    (metadata : r.HasMetadata) : dated.HasMetadata := by
  rcases backdate_cases h with ⟨old, _, rfl⟩ | ⟨_, rfl⟩
  · exact ⟨_, Fields.lookup_put_self _ _ _⟩
  · exact metadata

end Record

namespace Event

/-- The event is sent at least so long after the time that its message gives, in milliseconds. -/
def Trails (event : Event) (margin : Nat) : Prop :=
  ∃ back time, RecordSet.ofText event.message = .ok [back] ∧ back.metadataTime? = some time ∧
    time + margin ≤ event.timestamp.toInt

theorem trails_ofRecord {now timestamp : Int64} {r dated : Record} {margin : Nat}
    (hnow : Int64.minValue.toInt + 1000 ≤ now.toInt) (hfits : (Json.object r).Fits 0)
    (h : r.backdate now = .ok dated) (metadata : dated.HasMetadata)
    (hf : (Json.object dated).WithoutFloats)
    (hmargin : now.toInt - 1000 + margin ≤ timestamp.toInt) :
    (ofRecord dated timestamp).Trails margin := by
  have hback := RecordSet.ofText_object (Record.backdate_fits hnow hfits h) hf
  exact ⟨dated, _, hback, Record.metadataTime?_of_backdate h metadata, hmargin⟩

def Chronological (events : List Event) : Prop :=
  events.Pairwise fun earlier later => earlier.timestamp.toInt ≤ later.timestamp.toInt

/-- Where the readings of a clock never decrease, nor do the times of the events. -/
theorem chronological_ofRecords {clock : Clock} {records : List Record}
    (h : ∀ i j, i < j → j < records.length →
      (clock.reading (clock.taken + i)).toInt ≤ (clock.reading (clock.taken + j)).toInt) :
    Chronological (ofRecords clock records).1 := by
  refine List.pairwise_iff_getElem.mpr fun i j hi hj hless => ?_
  have htime : ∀ k (hk : k < (ofRecords clock records).1.length),
      (ofRecords clock records).1[k].timestamp = clock.reading (clock.taken + k) := by
    intro k hk
    have hevent := ofRecords_getElem clock records k
    rw [List.getElem?_eq_getElem hk] at hevent
    obtain ⟨r, _, he⟩ := Option.map_eq_some_iff.mp hevent.symm
    rw [← he]
    rfl
  rw [ofRecords_length] at hj
  rw [htime i hi, htime j (by rw [ofRecords_length]; exact hj)]
  exact h i j hless hj

end Event

namespace Upload

/-- Each event whose record has metadata and no doubles trails the time that its message gives. -/
def Trails (margin : Nat) (dated : List Record) (events : List Event) : Prop :=
  ∀ (i : Nat) (r : Record) (event : Event), dated[i]? = some r → events[i]? = some event →
    r.HasMetadata → (Json.object r).WithoutFloats → event.Trails margin

theorem trails_ofRecords {disk : Disk} {path : String} {now : Int64} {clock : Clock}
    {records dated : List Record} {margin : Nat} (hnow : Int64.minValue.toInt + 1000 ≤ now.toInt)
    (loaded : RecordSet.load disk path = .ok records)
    (hdated : (RecordSet.backdate now records).2 = .ok dated)
    (h : ∀ i < dated.length,
      now.toInt - 1000 + margin ≤ (clock.reading (clock.taken + i)).toInt) :
    Trails margin dated (Event.ofRecords clock dated).1 := by
  intro i second event hsecond hevent metadata hf
  rw [Event.ofRecords_getElem, hsecond, Option.map_some, Option.some.injEq] at hevent
  obtain ⟨r, hr, hbackdate⟩ :=
    RecordSet.exists_of_mem_backdate hdated (List.mem_of_getElem? hsecond)
  obtain ⟨hi, _⟩ := List.getElem?_eq_some_iff.mp hsecond
  rw [← hevent]
  exact Event.trails_ofRecord hnow (RecordSet.load_fits loaded hr) hbackdate metadata hf (h i hi)

/-- When no later instant lies more than a second before the first, no event is sent before the time
that its message gives. When the instants never decrease, the events are in the order of their times,
and each is sent at least a second after the time that its message gives. -/
theorem run_chronological {disk : Disk} {path : String} {target : Target} {sink : Sink}
    {instant : Nat → Instant} {call : Call}
    (sent : call ∈ (run disk path target sink (.ofInstants instant)).calls)
    (countable : ∀ k ≤ call.events.length, (instant k).Countable) :
    ∃ records dated, RecordSet.load disk path = .ok records ∧
      (RecordSet.backdate (instant 0).unixMillis records).2 = .ok dated ∧
      call.events.length = dated.length ∧
      (∀ (i : Nat) (r : Record), dated[i]? = some r →
        call.events[i]? = some (Event.ofRecord r (instant (i + 1)).unixMillis)) ∧
      ((∀ k ≤ call.events.length,
          (instant 0).nanoseconds - 1000 * 1000000 ≤ (instant k).nanoseconds) →
        Trails 0 dated call.events) ∧
      ((∀ j k, j ≤ k → k ≤ call.events.length →
          (instant j).nanoseconds ≤ (instant k).nanoseconds) →
        Event.Chronological call.events ∧ Trails 1000 dated call.events) := by
  obtain ⟨records, dated, loaded, hdated, rfl⟩ := exists_of_mem_calls sent
  simp only [Event.ofRecords_length] at countable ⊢
  -- No reading is negative, so there is room to date a record a second back.
  have hfirst := Instant.unixMillis_nonneg (countable 0 (by omega))
  have hnow : Int64.minValue.toInt + 1000 ≤ (instant 0).unixMillis.toInt := by
    have hleast : Int64.minValue.toInt = -9223372036854775808 := rfl
    omega
  have hreading : ∀ i, (Clock.ofInstants instant).tick.reading
      ((Clock.ofInstants instant).tick.taken + i) = (instant (i + 1)).unixMillis := by
    intro i
    simp only [Clock.ofInstants, Clock.tick]
    congr 2
    omega
  refine ⟨records, dated, loaded, hdated, rfl, ?_, ?_, ?_⟩
  · intro i r hr
    rw [Event.ofRecords_getElem, hr, Option.map_some, hreading]
  · intro near
    refine trails_ofRecords hnow loaded hdated fun i hi => ?_
    rw [hreading]
    have hlag := Instant.unixMillis_lag (countable 0 (by omega)) (countable (i + 1) (by omega)) 1000
      (near (i + 1) (by omega))
    omega
  · intro ordered
    have hmono : ∀ j k, j ≤ k → k ≤ dated.length →
        (instant j).unixMillis.toInt ≤ (instant k).unixMillis.toInt := by
      intro j k hjk hk
      exact Instant.unixMillis_mono (countable j (by omega)) (countable k hk) (ordered j k hjk hk)
    refine ⟨Event.chronological_ofRecords fun i j hij hj => ?_,
      trails_ofRecords hnow loaded hdated fun i hi => ?_⟩
    · rw [hreading, hreading]
      exact hmono (i + 1) (j + 1) (by omega) (by omega)
    · rw [hreading]
      have hfirst := hmono 0 (i + 1) (by omega) (by omega)
      omega

theorem calls_pairFile (target : Target) (sink : Sink) (clock : Clock) :
    ∃ events, (run pairFile "pair.json" target sink clock).calls = [⟨target, events⟩] := by
  obtain ⟨dated, hdated⟩ : ∃ dated, (RecordSet.backdate clock.now pair).2 = .ok dated :=
    RecordSet.exists_backdate_iff.mpr datable_pair
  exact ⟨_, (run_of_backdate load_pairFile hdated target sink).1⟩

theorem first_of_backdate_pair {records dated : List Record} {now : Int64}
    (loaded : RecordSet.load pairFile "pair.json" = .ok records)
    (h : (RecordSet.backdate now records).2 = .ok dated) :
    ∃ first : Record, dated[0]? = some first ∧ first.HasMetadata ∧
      (Json.object first).WithoutFloats := by
  rw [load_pairFile] at loaded
  cases loaded
  have hlength : dated.length = 2 := RecordSet.length_of_backdate h
  have hfirst := List.getElem?_eq_getElem (by omega : 0 < dated.length)
  have hbackdate := RecordSet.backdate_getElem h (rfl : pair[0]? = some _) hfirst
  exact ⟨_, hfirst, Record.hasMetadata_of_backdate hbackdate ⟨_, rfl⟩,
    Record.backdate_withoutFloats (by decide) hbackdate⟩

/-- A clock that falls back by a whole second, to before the epoch. -/
def receding : Nat → Instant
  | 0 => .ofMillis 500
  | _ + 1 => .ofMillis (-500)

/-- A clock that starts before the epoch and comes to it. -/
def advancing : Nat → Instant
  | 0 => .ofSeconds (-1) 0
  | _ + 1 => .ofSeconds 0 999999

theorem run_chronological_tight :
    (∃ events event, (run pairFile "pair.json" ⟨"group", "stream"⟩ FixedAnswer.accepting.sink
        (.ofInstants receding)).calls = [⟨⟨"group", "stream"⟩, events⟩] ∧
      events[0]? = some event ∧ event.Trails 0) ∧
    ∃ events event, (run pairFile "pair.json" ⟨"group", "stream"⟩ FixedAnswer.accepting.sink
        (.ofInstants advancing)).calls = [⟨⟨"group", "stream"⟩, events⟩] ∧
      Event.Chronological events ∧ events[0]? = some event ∧ event.Trails 1000 := by
  constructor
  · obtain ⟨events, hcalls⟩ := calls_pairFile ⟨"group", "stream"⟩ FixedAnswer.accepting.sink
      (.ofInstants receding)
    have countable : ∀ k, (receding k).Countable
      | 0 => by decide
      | _ + 1 => (by decide : (Instant.ofMillis (-500)).Countable)
    have near : ∀ k, (receding 0).nanoseconds - 1000 * 1000000 ≤ (receding k).nanoseconds
      | 0 => by decide
      | _ + 1 => (by decide : (500000000 : Int) - 1000 * 1000000 ≤ -500000000)
    obtain ⟨records, dated, loaded, hdated, _, hevent, htrails, _⟩ :=
      run_chronological (by rw [hcalls]; exact List.mem_singleton_self _) fun k _ => countable k
    obtain ⟨first, hfirst, metadata, hf⟩ := first_of_backdate_pair loaded hdated
    exact ⟨events, _, hcalls, hevent 0 first hfirst,
      htrails (fun k _ => near k) 0 first _ hfirst (hevent 0 first hfirst) metadata hf⟩
  · obtain ⟨events, hcalls⟩ := calls_pairFile ⟨"group", "stream"⟩ FixedAnswer.accepting.sink
      (.ofInstants advancing)
    have countable : ∀ k, (advancing k).Countable
      | 0 => by decide
      | _ + 1 => (by decide : (Instant.ofSeconds 0 999999).Countable)
    have ordered : ∀ j k, j ≤ k → (advancing j).nanoseconds ≤ (advancing k).nanoseconds
      | 0, 0, _ => Int.le_refl _
      | 0, _ + 1, _ => (by decide : (-1000000000 : Int) ≤ 999999)
      | _ + 1, _ + 1, _ => Int.le_refl 999999
    obtain ⟨records, dated, loaded, hdated, _, hevent, _, hordered⟩ :=
      run_chronological (by rw [hcalls]; exact List.mem_singleton_self _) fun k _ => countable k
    obtain ⟨first, hfirst, metadata, hf⟩ := first_of_backdate_pair loaded hdated
    obtain ⟨chronological, htrails⟩ := hordered fun j k hjk _ => ordered j k hjk
    exact ⟨events, _, hcalls, chronological, hevent 0 first hfirst,
      htrails 0 first _ hfirst (hevent 0 first hfirst) metadata hf⟩

end Upload

end MetricUpload
