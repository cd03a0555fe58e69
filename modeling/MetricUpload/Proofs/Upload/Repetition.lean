import MetricUpload.Proofs.Upload.Delivery

namespace MetricUpload

namespace Event

/-- The messages of a batch as one text: an array of them. -/
def joined (events : List Event) : String :=
  "[" ++ ",".intercalate (events.map message) ++ "]"

theorem ofRecords_messages (clock : Clock) (records : List Record) :
    (ofRecords clock records).1.map message = records.map fun r => (Json.object r).text := by
  induction records generalizing clock with
  | nil => rfl
  | cons r records ih => simp only [ofRecords, List.map_cons, ih, ofRecord]

end Event

namespace Json

theorem moreItems_intercalate (item : Json) (items : List Json) :
    item.chars ++ moreItems items = [','].intercalate ((item :: items).map chars) ++ [']'] := by
  induction items generalizing item with
  | nil => simp [moreItems]
  | cons next items ih =>
    simp only [moreItems, List.map_cons, List.intercalate_cons_cons, List.append_assoc,
      List.cons_append, List.nil_append] at ih ⊢
    rw [ih]

theorem text_array (items : List Json) :
    (Json.array items).text = "[" ++ ",".intercalate (items.map text) ++ "]" := by
  have hchars : String.toList ∘ text = chars := by
    funext v
    exact String.toList_ofList
  apply String.toList_inj.mp
  rw [text, String.toList_ofList, String.toList_append, String.toList_append,
    String.toList_intercalate, List.map_map, hchars]
  cases items with
  | nil => rfl
  | cons item items =>
    simp only [chars, moreItems_intercalate]
    rfl

end Json

theorem Event.joined_ofRecords (clock : Clock) (records : List Record) :
    joined (ofRecords clock records).1 = (Json.array (records.map .object)).text := by
  rw [joined, ofRecords_messages, Json.text_array, List.map_map]
  rfl

namespace Upload

/-- A file made of what was sent sends the same once more, and at other times it sends what the first
file would send then. -/
theorem run_again {disk again : Disk} {path path' : String} {target target' : Target}
    {sink sink' : Sink} {clock : Clock} {records : List Record} {events : List Event}
    (hnow : Int64.minValue.toInt + 1000 ≤ clock.now.toInt)
    (loaded : RecordSet.load disk path = .ok records)
    (integers : ∀ r ∈ records, (Json.object r).WithoutFloats)
    (shallow : ∀ r ∈ records, (Json.object r).depth ≤ 126)
    (sent : (run disk path target sink clock).calls = [⟨target, events⟩])
    (written : again path' = .ok (Event.joined events).toUTF8) :
    (run again path' target' sink' clock).calls = [⟨target', events⟩] ∧
      ∀ other : Clock, Int64.minValue.toInt + 1000 ≤ other.now.toInt →
        ∃ resent, (run disk path target sink other).calls = [⟨target, resent⟩] ∧
          (run again path' target' sink' other).calls = [⟨target', resent⟩] := by
  obtain ⟨others, dated, hothers, hdated, hcall⟩ :=
    exists_of_mem_calls (by rw [sent]; exact List.mem_singleton_self _ :
      ⟨target, events⟩ ∈ (run disk path target sink clock).calls)
  rw [loaded] at hothers
  cases hothers
  cases hcall
  have hfits : ∀ r ∈ records, (Json.object r).Fits 1 := by
    intro r hr
    have hr' := RecordSet.load_fits loaded hr
    have hdepth := shallow r hr
    have hlimit : Json.nestingLimit = 127 := rfl
    exact ⟨hr'.distinct, by omega, hr'.inRange⟩
  -- The second file holds the dated records, so they are what it is loaded as.
  have reloaded : RecordSet.load again path' = .ok dated := by
    refine RecordSet.load_array ?_ ?_ (by rw [written, Event.joined_ofRecords])
    · intro second hsecond
      obtain ⟨r, hr, hb⟩ := RecordSet.exists_of_mem_backdate hdated hsecond
      exact Record.backdate_fits hnow (hfits r hr) hb
    · intro second hsecond
      obtain ⟨r, hr, hb⟩ := RecordSet.exists_of_mem_backdate hdated hsecond
      exact Record.backdate_withoutFloats (integers r hr) hb
  refine ⟨?_, ?_⟩
  · have hagain := (RecordSet.backdate_backdate hdated).mpr hdated
    exact (run_of_backdate reloaded hagain target' sink').1
  · intro other _
    obtain ⟨last, hlast⟩ : ∃ last, (RecordSet.backdate other.now records).2 = .ok last :=
      RecordSet.exists_backdate_iff.mpr (RecordSet.exists_backdate_iff.mp ⟨dated, hdated⟩)
    have hagain := (RecordSet.backdate_backdate hdated).mpr hlast
    exact ⟨_, (run_of_backdate loaded hlast target sink).1,
      (run_of_backdate reloaded hagain target' sink').1⟩

/-- Metadata whose time is not its last member, and a negative value. -/
def single : List Record :=
  [[("x", .number (.int (-5))),
    ("_aws", .object [("Timestamp", .string "now"), ("Unit", .string "\n")])]]

theorem run_again_single :
    ∃ events, events.length = 1 ∧
      (run (fun _ => .ok (Json.array (single.map .object)).text.toUTF8) "first.json"
        ⟨"group", "stream"⟩ FixedAnswer.accepting.sink ⟨fun k => Int64.ofNat (5000 + k), 0⟩).calls =
          [⟨⟨"group", "stream"⟩, events⟩] ∧
      (run (fun _ => .ok (Event.joined events).toUTF8) "second.json"
        ⟨"group", "stream"⟩ FixedAnswer.accepting.sink ⟨fun k => Int64.ofNat (5000 + k), 0⟩).calls =
          [⟨⟨"group", "stream"⟩, events⟩] := by
  have hfits : ∀ r ∈ single, (Json.object r).Fits 1 := by decide
  have hfloats : ∀ r ∈ single, (Json.object r).WithoutFloats := by decide
  have loaded : RecordSet.load (fun _ => .ok (Json.array (single.map .object)).text.toUTF8)
      "first.json" = .ok single := RecordSet.load_array hfits hfloats rfl
  have datable : ∀ r ∈ single, r.Datable := by
    simp [single, Record.Datable, metadataKey, List.lookup_cons]
  have hnow : Int64.minValue.toInt + 1000 ≤
      (Clock.now ⟨fun k => Int64.ofNat (5000 + k), 0⟩).toInt := by decide
  obtain ⟨dated, hdated⟩ : ∃ dated, (RecordSet.backdate
      (Clock.now ⟨fun k => Int64.ofNat (5000 + k), 0⟩) single).2 = .ok dated :=
    RecordSet.exists_backdate_iff.mpr datable
  have sent := (run_of_backdate loaded hdated ⟨"group", "stream"⟩ FixedAnswer.accepting.sink).1
  refine ⟨_, ?_, sent, (run_again hnow loaded hfloats (by decide) sent rfl).1⟩
  rw [Event.ofRecords_length, RecordSet.length_of_backdate hdated]
  rfl

end Upload

end MetricUpload
