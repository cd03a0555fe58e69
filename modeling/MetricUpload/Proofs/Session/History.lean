import MetricUpload.Proofs.Upload.Delivery
import MetricUpload.Session

namespace MetricUpload

namespace Session

/-- The session that a sequence of steps leads to. -/
def after (s : Session) (steps : List Step) : Session :=
  steps.foldl (fun s step => (s.step step).1) s

theorem after_cons (s : Session) (step : Step) (steps : List Step) :
    after s (step :: steps) = after (s.step step).1 steps := rfl

/-- Later steps are answered from the session that the first ones lead to. -/
theorem run_append (s : Session) (first later : List Step) :
    run s (first ++ later) = run s first ++ run (after s first) later := by
  induction first generalizing s with
  | nil => rfl
  | cons step first ih => simp only [List.cons_append, run, ih, after_cons]

/-- Dating does not go below the least number of 64 bits. -/
def Step.Timely : Step → Prop
  | .backdate now | .backdateOne _ now => Int64.minValue.toInt + 1000 ≤ now.toInt
  | _ => True

/-- The records that a step puts in the place of the present ones. -/
inductive Step.Renews (s : Session) : Step → List Record → Prop
  | parse {text : String} {records : List Record} (h : RecordSet.ofText text = .ok records) :
      Renews s (.parse text) records
  | load {path : String} {records : List Record}
      (h : RecordSet.load s.files.read path = .ok records) : Renews s (.load path) records
  | backdate {now : Int64} {dated : List Record}
      (h : (RecordSet.backdate now s.records).2 = .ok dated) : Renews s (.backdate now) dated
  | backdateOne {index : Nat} {now : Int64} {r dated : Record} (hr : s.records[index]? = some r)
      (h : r.backdate now = .ok dated) :
      Renews s (.backdateOne index now) (s.records.set index dated)

theorem replace_cases (s : Session) (log : List LogLine)
    (outcome : Except UploadError (List Record)) :
    (s.replace log outcome).1.records = s.records ∨
      outcome = .ok (s.replace log outcome).1.records := by
  cases outcome with
  | ok records => exact .inr rfl
  | error e => exact .inl rfl

theorem replace_events (s : Session) (log : List LogLine)
    (outcome : Except UploadError (List Record)) : (s.replace log outcome).1.events = s.events := by
  cases outcome <;> rfl

theorem step_records (s : Session) (step : Step) :
    (s.step step).1.records = s.records ∨ step.Renews s (s.step step).1.records := by
  cases step with
  | parse text => exact (replace_cases s [] _).imp_right .parse
  | load path => exact (replace_cases s _ _).imp_right .load
  | backdate now => exact (replace_cases s _ _).imp_right .backdate
  | backdateOne index now =>
    simp only [Session.step, Session.backdateOne]
    cases hr : s.records[index]? with
    | none => exact .inl rfl
    | some r =>
      cases hdated : r.backdate now with
      | error fault =>
        simp only [hdated]
        exact .inl trivial
      | ok dated =>
        simp only [hdated]
        exact .inr (.backdateOne hr hdated)
  | build | reread | write | setAnswer | upload => exact .inl rfl

def Step.Builds (step : Step) : Prop := ∃ clock, step = .build clock

theorem step_events (s : Session) (step : Step) :
    (∃ clock, step = .build clock ∧
      (s.step step).1.events = (Event.ofRecords clock s.records).1) ∨
    (¬step.Builds ∧ (s.step step).1.events = s.events) := by
  cases step with
  | build clock => exact .inl ⟨clock, rfl, rfl⟩
  | parse text => exact .inr ⟨not_exists.mpr nofun, replace_events s [] _⟩
  | load path => exact .inr ⟨not_exists.mpr nofun, replace_events s _ _⟩
  | backdate now => exact .inr ⟨not_exists.mpr nofun, replace_events s _ _⟩
  | backdateOne index now =>
    refine .inr ⟨not_exists.mpr nofun, ?_⟩
    simp only [Session.step, Session.backdateOne]
    cases s.records[index]? with
    | none => rfl
    | some r =>
      cases hdated : r.backdate now <;> simp only [hdated]
      rfl
  | reread | write | setAnswer | upload => exact .inr ⟨not_exists.mpr nofun, rfl⟩

/-- A step that could not be done. -/
def Answer.IsFailure : Answer → Prop
  | .failed _ | .noSuchIndex => True
  | _ => False

/-- A step that fails leaves everything as it was but the log. -/
theorem step_of_isFailure {s : Session} {step : Step} (h : (s.step step).2.IsFailure) :
    (s.step step).1 = { s with log := (s.step step).1.log } := by
  have hreplace : ∀ log outcome, (s.replace log outcome).2.IsFailure →
      (s.replace log outcome).1 = { s with log := (s.replace log outcome).1.log } := by
    intro log outcome hfailed
    cases outcome with
    | ok records => exact absurd hfailed id
    | error e => rfl
  cases step with
  | parse text => exact hreplace _ _ h
  | load path => exact hreplace _ _ h
  | backdate now => exact hreplace _ _ h
  | backdateOne index now =>
    simp only [Session.step, Session.backdateOne] at h ⊢
    cases hr : s.records[index]? with
    | none => rfl
    | some r =>
      simp only [hr] at h
      cases hdated : r.backdate now with
      | error fault => simp only [hdated]
      | ok dated =>
        simp only [hdated] at h
        exact absurd h id
  | reread index => rfl
  | build | write | setAnswer | upload => exact absurd h id

/-- What a reader can hold. -/
def Fit (records : List Record) : Prop := ∀ r ∈ records, (Json.object r).Fits 0

theorem renews_fit {s : Session} {step : Step} {records : List Record} (timely : step.Timely)
    (hs : Fit s.records) (h : step.Renews s records) : Fit records := by
  intro r hr
  cases h with
  | parse h => exact RecordSet.ofText_fits h hr
  | load h => exact RecordSet.load_fits h hr
  | backdate h =>
    obtain ⟨old, hold, hdated⟩ := RecordSet.exists_of_mem_backdate h hr
    exact Record.backdate_fits timely (hs old hold) hdated
  | backdateOne hold hdated =>
    rcases List.mem_or_eq_of_mem_set hr with hr | rfl
    · exact hs r hr
    · exact Record.backdate_fits timely (hs _ (List.mem_of_getElem? hold)) hdated

theorem step_fit {s : Session} {step : Step} (timely : step.Timely) (hs : Fit s.records) :
    Fit (s.step step).1.records := by
  rcases step_records s step with hsame | hnew
  · rw [hsame]
    exact hs
  · exact renews_fit timely hs hnew

theorem after_fit {s : Session} {steps : List Step} (timely : ∀ step ∈ steps, step.Timely)
    (hs : Fit s.records) : Fit (after s steps).records := by
  induction steps generalizing s with
  | nil => exact hs
  | cons step steps ih =>
    obtain ⟨hstep, hsteps⟩ := List.forall_mem_cons.mp timely
    exact ih hsteps (step_fit hstep hs)

/-- The events are those of the last building. -/
theorem after_events (s : Session) (steps : List Step) :
    ((∀ step ∈ steps, ¬step.Builds) ∧ (after s steps).events = s.events) ∨
    ∃ earlier clock later, steps = earlier ++ .build clock :: later ∧
      (∀ step ∈ later, ¬step.Builds) ∧
      (after s steps).events = (Event.ofRecords clock (after s earlier).records).1 := by
  induction steps generalizing s with
  | nil => exact .inl ⟨by simp, rfl⟩
  | cons step steps ih =>
    rcases ih (s.step step).1 with ⟨hlater, hevents⟩ | ⟨earlier, clock, later, rfl, hlater, hevents⟩
    · rcases step_events s step with ⟨clock, rfl, hbuilt⟩ | ⟨hother, hsame⟩
      · exact .inr ⟨[], clock, steps, rfl, hlater, hevents.trans hbuilt⟩
      · exact .inl ⟨List.forall_mem_cons.mpr ⟨hother, hlater⟩, hevents.trans hsame⟩
    · exact .inr ⟨step :: earlier, clock, later, rfl, hlater, hevents⟩

/-- Through any sequence of steps the records keep distinct keys, room for their containers and
numbers in range. An event stays what the last building made of a record of its time, and without
doubles its message gives that record and the event back. -/
theorem after_sound (files : Files) {steps : List Step} (timely : ∀ step ∈ steps, step.Timely) :
    (∀ r ∈ (after (start files) steps).records,
      (Json.object r).DistinctKeys ∧ (Json.object r).depth ≤ 127 ∧
      ∀ n ∈ (Json.object r).numbers,
        (∃ i, n = .int i ∧ -9223372036854775808 ≤ i ∧ i ≤ 18446744073709551615) ∨
          ∃ f, n = .float f) ∧
    ∀ (i : Nat) (event : Event), (after (start files) steps).events[i]? = some event →
      ∃ earlier clock later r, steps = earlier ++ .build clock :: later ∧
        (∀ step ∈ later, ¬step.Builds) ∧
        (after (start files) earlier).records[i]? = some r ∧
        event = Event.ofRecord r (clock.reading (clock.taken + i)) ∧
        ((Json.object r).WithoutFloats →
          RecordSet.ofText event.message = .ok [r] ∧
          Event.ofRecord r event.timestamp = event) := by
  have hstart : Fit (start files).records := fun r hr => absurd hr List.not_mem_nil
  constructor
  · intro r hr
    have hfits := after_fit timely hstart r hr
    have hlimit : Json.nestingLimit = 127 := rfl
    have hshallow := hfits.shallow
    refine ⟨hfits.distinct, by omega, fun n hn => ?_⟩
    cases n with
    | int i => exact .inl ⟨i, rfl, Number.inRange_int_iff.mp (hfits.inRange (.int i) hn)⟩
    | float f => exact .inr ⟨f, rfl⟩
  · intro i event hevent
    rcases after_events (start files) steps with
      ⟨_, hnone⟩ | ⟨earlier, clock, later, rfl, hlater, hbuilt⟩
    · rw [hnone] at hevent
      cases hevent
    · rw [hbuilt, Event.ofRecords_getElem, Option.map_eq_some_iff] at hevent
      obtain ⟨r, hr, rfl⟩ := hevent
      have hbefore : ∀ step ∈ earlier, step.Timely :=
        fun step hstep => timely step (List.mem_append_left _ hstep)
      have hfits := after_fit hbefore hstart r (List.mem_of_getElem? hr)
      exact ⟨earlier, clock, later, r, rfl, hlater, hr, rfl,
        fun hf => ⟨RecordSet.ofText_object hfits hf, rfl⟩⟩

/-- A record is parsed, dated and built, and then the records are replaced and a step fails. -/
def replaced : List Step :=
  [.parse "\x7b\"_aws\":\x7b\x7d,\"n\":-5\x7d", .backdate 5000, .build (.ofReadings fun _ => 7),
    .parse "[\x7b\x7d]", .backdateOne 0 9000, .parse "42"]

theorem after_sound_replaced :
    (∀ step ∈ replaced, step.Timely) ∧ (after (start .empty) replaced).records = [[]] ∧
      ∃ event r, (after (start .empty) replaced).events = [event] ∧
        RecordSet.ofText event.message = .ok [r] ∧ Event.ofRecord r event.timestamp = event := by
  have timely : ∀ step ∈ replaced, step.Timely := by simp [replaced, Step.Timely]
  let built : Record :=
    [("_aws", .object [("Timestamp", .number (.int 4000))]), ("n", .number (.int (-5)))]
  have hevents : (after (start .empty) replaced).events = [Event.ofRecord built 7] := by rfl
  have hevent : (after (start .empty) replaced).events[0]? = some (Event.ofRecord built 7) := by
    rw [hevents]
    rfl
  obtain ⟨earlier, clock, later, r, hsteps, _, hr, _, hback⟩ :=
    (after_sound .empty timely).2 0 _ hevent
  -- The only building is the third step, and the record of that time holds no doubles.
  have hearlier : earlier = replaced.take 2 := by
    match earlier, hsteps with
    | [], h => cases h
    | [_], h => cases h
    | [_, _], h =>
      cases h
      rfl
    | _ :: _ :: _ :: rest, h =>
      have hlast : .build clock ∈ replaced.drop 3 := by
        rw [h]
        simp
      simp [replaced] at hlast
  have hbuilt : (after (start .empty) (replaced.take 2)).records[0]? = some built := by rfl
  rw [hearlier, hbuilt] at hr
  cases hr
  obtain ⟨hread, hsame⟩ := hback (by decide)
  exact ⟨timely, by rfl, _, built, hevents, hread, hsame⟩

end Session

end MetricUpload
