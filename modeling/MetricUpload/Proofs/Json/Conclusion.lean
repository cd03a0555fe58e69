import MetricUpload.Json.Reader

namespace MetricUpload

theorem mapError_eq_ok_iff {ε δ α : Type} {outcome : Except ε α} {f : ε → δ} {a : α} :
    outcome.mapError f = .ok a ↔ outcome = .ok a := by
  constructor
  · intro h
    cases outcome <;> cases h
    rfl
  · rintro rfl
    rfl

namespace Json

/-- What reading on from a state comes to, without the places of faults. -/
def conclude (s : State) : List Char → Except Cause Json
  | [] => atEnd s
  | c :: cs =>
    match step s c with
    | .ok next => conclude next cs
    | .error refusal => .error refusal.cause

theorem conclude_cons_of_step {s next : State} {c : Char} (h : step s c = .ok next)
    (rest : List Char) : conclude s (c :: rest) = conclude next rest := by
  simp only [conclude, h]

theorem conclude_cons_of_refusal {s : State} {c : Char} {refusal : Refusal}
    (h : step s c = .error refusal) (rest : List Char) :
    conclude s (c :: rest) = .error refusal.cause := by
  simp only [conclude, h]

theorem run_conclude (offset : Nat) (s : State) (text : List Char) :
    conclude s text =
      match run offset s text with
      | .ok last => atEnd last
      | .error stop => .error stop.cause := by
  induction text generalizing offset s with
  | nil => rfl
  | cons c cs ih =>
    cases h : step s c with
    | ok next => simp only [conclude, run, h]; exact ih _ next
    | error refusal => simp only [conclude, run, h]

/-- Only texts that are read completely have a conclusion. -/
theorem scan_eq_ok_iff {text : List Char} {v : Json} :
    scan text = .ok v ↔ conclude start text = .ok v := by
  rw [run_conclude 0]
  unfold scan
  cases run 0 start text with
  | ok last => exact mapError_eq_ok_iff
  | error stop => exact iff_of_false nofun nofun

theorem read_eq_ok_iff {text : String} {v : Json} :
    read text = .ok v ↔ conclude start text.toList = .ok v :=
  mapError_eq_ok_iff.trans scan_eq_ok_iff

theorem read_fault_of_conclude {text : String} {cause : Cause}
    (h : conclude start text.toList = .error cause) : ∃ fault, read text = .error fault := by
  cases hr : read text with
  | error fault => exact ⟨fault, rfl⟩
  | ok v =>
    have := h.symm.trans (read_eq_ok_iff.mp hr)
    cases this

theorem conclude_blanks {blanks : List Char} (h : ∀ c ∈ blanks, isBlank c = true) (spot : Spot)
    (rest : List Char) :
    conclude (.between spot) (blanks ++ rest) = conclude (.between spot) rest := by
  induction blanks with
  | nil => rfl
  | cons c cs ih =>
    have hstep : step (.between spot) c = .ok (.between spot) := by
      simp [step, between, h c (by simp)]
    rw [List.cons_append, conclude_cons_of_step hstep]
    exact ih fun d hd => h d (List.mem_cons_of_mem c hd)

theorem conclude_atSpot {c : Char} (h : isBlank c = false) {spot : Spot} {next : State}
    (hs : atSpot spot c = .ok next) (rest : List Char) :
    conclude (.between spot) (c :: rest) = conclude next rest := by
  apply conclude_cons_of_step
  simp [step, between, h, hs]

theorem conclude_finished {text : List Char} (h : ∃ c ∈ text, isBlank c = false)
    (frames : List Frame) (v : Json) :
    conclude (.between ⟨frames, .finished v⟩) text = .error .trailingCharacters := by
  induction text with
  | nil => simp at h
  | cons c cs ih =>
    cases hb : isBlank c with
    | false =>
      exact conclude_cons_of_refusal
        (by simp [step, between, hb, atSpot, refuse] : step (.between _) c = .error ⟨_, 1⟩) cs
    | true =>
      have hstep : step (.between ⟨frames, .finished v⟩) c = .ok (.between ⟨frames, .finished v⟩) := by
        simp [step, between, hb]
      rw [conclude_cons_of_step hstep]
      apply ih
      obtain ⟨d, hd, hn⟩ := h
      rcases List.mem_cons.mp hd with rfl | hd
      · simp [hb] at hn
      · exact ⟨d, hd, hn⟩

end Json

end MetricUpload
