import MetricUpload.Program
import MetricUpload.Proofs.CommandLine.Gathering
import MetricUpload.Proofs.Json.Conclusion

namespace MetricUpload

namespace CommandLine

section

variable {line next : CommandLine} {s : Settings}

/-- A line is finished with the settings that it has all the contents of. -/
theorem finish_eq_ok_iff (ho : line.Orderly) :
    line.finish = .ok s ↔ s.file ≠ "" ∧ line.contents.Perm s.contents := by
  constructor
  · intro h
    obtain ⟨settled, hsettle, hread⟩ := bind_eq_ok_iff.mp h
    have hsettled := settle_settled ho hsettle
    split at hread
    next logGroup logStream file hgroup hstream hfile =>
      cases hread
      refine ⟨fun he => hsettled.orderly.named (he ▸ hfile), hsettled.contents.symm.trans ?_⟩
      refine (settledContents_perm_iff hsettled.orderly).mpr ⟨?_, hfile⟩
      intro p
      cases p with
      | logGroup => exact hgroup
      | logStream => exact hstream
      | region => rfl
    next => cases hread
  · rintro ⟨hnamed, hsame⟩
    have hproper := (Proper.of_settings hnamed).of_perm hsame.symm
    obtain ⟨settled, hsettle⟩ := exists_settle ho hproper
    have hsettled := settle_settled ho hsettle
    obtain ⟨hgiven, hfile⟩ :=
      (settledContents_perm_iff hsettled.orderly).mp (hsettled.contents.trans hsame)
    refine bind_eq_ok_iff.mpr ⟨settled, hsettle, ?_⟩
    simp only [hgiven, hfile, Settings.value?]

/-- Reads what is left of the arguments. -/
def readFrom (line : CommandLine) (arguments : List String) : Except CommandStop Settings := do
  (← arguments.foldlM add line).finish

theorem readFrom_append {front back : List String} :
    line.readFrom (front ++ back) = .ok s ↔
      ∃ next, front.foldlM add line = .ok next ∧ next.readFrom back = .ok s := by
  rw [readFrom, List.foldlM_append, bind_assoc]
  exact bind_eq_ok_iff

theorem readFrom_cons {text : String} {rest : List String} :
    line.readFrom (text :: rest) = .ok s ↔
      ∃ next, line.add text = .ok next ∧ next.readFrom rest = .ok s := by
  rw [readFrom, List.foldlM_cons, bind_assoc]
  exact bind_eq_ok_iff

theorem readFrom_separator (hs : line.separated = false) {rest : List String} :
    line.readFrom ("--" :: rest) = .ok s ↔
      { line with separated := true }.readFrom rest = .ok s := by
  rw [readFrom_cons, add_separator hs]
  constructor
  · rintro ⟨next, hnext, hrest⟩
    cases hnext
    exact hrest
  · intro hrest
    exact ⟨_, rfl, hrest⟩

/-- Settings come of something that is read and of the rest if they hold what both add. -/
theorem reading_iff {reading : Except CommandStop CommandLine} {rest : List String}
    {more further : List (Slot × String)}
    (hreading : ∀ next, reading = .ok next → line.Adds next more)
    (hexists : Proper (line.contents ++ more) → ∃ next, reading = .ok next)
    (hrest : ∀ next, line.Adds next more →
      (next.readFrom rest = .ok s ↔ s.file ≠ "" ∧ (next.contents ++ further).Perm s.contents)) :
    (∃ next, reading = .ok next ∧ next.readFrom rest = .ok s) ↔
      s.file ≠ "" ∧ (line.contents ++ (more ++ further)).Perm s.contents := by
  rw [← List.append_assoc]
  constructor
  · rintro ⟨next, hnext, hread⟩
    have hadds := hreading next hnext
    obtain ⟨hnamed, hsame⟩ := (hrest next hadds).mp hread
    exact ⟨hnamed, (hadds.contents.append_right further).symm.trans hsame⟩
  · rintro ⟨hnamed, hsame⟩
    have hproper := (Proper.of_settings hnamed).of_perm hsame.symm
    obtain ⟨next, hnext⟩ := hexists hproper.left
    have hadds := hreading next hnext
    refine ⟨next, hnext, (hrest next hadds).mpr ⟨hnamed, ?_⟩⟩
    exact (hadds.contents.append_right further).trans hsame

theorem readFrom_ending (ho : line.Orderly) (hs : line.separated = false) (ending : Ending) :
    line.readFrom ending.arguments = .ok s ↔
      s.file ≠ "" ∧ (line.contents ++ ending.content).Perm s.contents := by
  have ho' := ho.separate
  cases ending with
  | plain =>
    rw [Ending.content, List.append_nil]
    exact finish_eq_ok_iff ho
  | separator =>
    rw [Ending.arguments, readFrom_separator hs, Ending.content, List.append_nil]
    exact finish_eq_ok_iff ho'
  | separated path =>
    rw [Ending.arguments, readFrom_separator hs, readFrom_cons, Ending.content]
    refine reading_iff (fun next => addFile_adds ho') (exists_addFile ho') fun next hadds => ?_
    rw [List.append_nil]
    exact finish_eq_ok_iff hadds.orderly

theorem readFrom_parts (parts : List Part) (ending : Ending) (ho : line.Orderly)
    (hs : line.separated = false) :
    line.readFrom (parts.flatMap Part.arguments ++ ending.arguments) = .ok s ↔
      s.file ≠ "" ∧
        (line.contents ++ (parts.map Part.content ++ ending.content)).Perm s.contents := by
  induction parts generalizing line with
  | nil => exact readFrom_ending ho hs ending
  | cons part parts ih =>
    have hcontents : (part :: parts).map Part.content ++ ending.content =
        [part.content] ++ (parts.map Part.content ++ ending.content) := rfl
    rw [List.flatMap_cons, List.append_assoc, readFrom_append, hcontents]
    refine reading_iff (fun next => take_adds ho hs) (exists_take ho hs) fun next hadds => ?_
    exact ih hadds.orderly (hadds.separated.trans hs)

end

section

variable {line next : CommandLine} {s : Settings}

theorem settle_valueless {p : Parameter} (hp : line.pending = some (.parameter p none)) :
    line.settle ≠ .ok next := by
  simp [settle, hp]

theorem finish_valueless {p : Parameter} (hp : line.pending = some (.parameter p none)) :
    line.finish ≠ .ok s := by
  intro h
  obtain ⟨settled, hsettle, _⟩ := bind_eq_ok_iff.mp h
  exact settle_valueless hp hsettle

theorem addShort_ne_ok {letter : Char} : line.addShort letter ≠ .ok next := by
  unfold addShort
  split
  next =>
    intro h
    obtain ⟨_, _, h⟩ := bind_eq_ok_iff.mp h
    cases h
  next => exact nofun

theorem addLong_ok {name : String} {value : Option String}
    (h : line.addLong name value = .ok next) :
    ∃ p settled, name = p.name ∧ line.settle = .ok settled ∧
      (value = none → next = { settled with pending := some (.parameter p none) }) := by
  unfold addLong at h
  split at h
  next p value hname =>
    obtain ⟨settled, hsettle, _⟩ := bind_eq_ok_iff.mp h
    exact ⟨p, settled, Parameter.ofName?_eq_some_iff.mp hname, hsettle, nofun⟩
  next p hname =>
    obtain ⟨settled, hsettle, hnext⟩ := bind_eq_ok_iff.mp h
    cases hnext
    exact ⟨p, settled, Parameter.ofName?_eq_some_iff.mp hname, hsettle, fun _ => rfl⟩
  next =>
    split at h
    next =>
      split at h
      next => cases h
      next =>
        obtain ⟨_, _, h⟩ := bind_eq_ok_iff.mp h
        cases h
    next => cases h

/-- Behind a separator a parameter never gets its value. -/
theorem readFrom_valueless_separated {p : Parameter}
    (hp : line.pending = some (.parameter p none)) (hs : line.separated = true)
    {rest : List String} : line.readFrom rest ≠ .ok s := by
  intro h
  cases rest with
  | nil => exact finish_valueless hp h
  | cons path rest =>
    obtain ⟨next, hadd, _⟩ := readFrom_cons.mp h
    rw [add, if_pos hs] at hadd
    obtain ⟨_, settled, hsettle, _⟩ := addFile_eq_ok_iff.mp hadd
    exact settle_valueless hp hsettle

theorem word_of_readFrom_valueless {p : Parameter} (hp : line.pending = some (.parameter p none))
    (hs : line.separated = false) {rest : List String} (h : line.readFrom rest = .ok s) :
    ∃ word back, rest = word :: back ∧ Argument.IsWord word := by
  cases rest with
  | nil => exact absurd h (finish_valueless hp)
  | cons text rest =>
    obtain ⟨next, hadd, hrest⟩ := readFrom_cons.mp h
    simp only [add, hs, Bool.false_eq_true, ↓reduceIte] at hadd
    rcases Argument.ofString_cases text with
      ⟨rfl, hform⟩ | ⟨name, value, _, hform⟩ | ⟨letter, hform⟩ | ⟨hword, _⟩
    · rw [hform] at hadd
      have hnext := Except.ok.inj hadd
      have hvalueless : next.pending = some (.parameter p none) := by
        rw [← hnext]
        exact hp
      have hseparated : next.separated = true := by rw [← hnext]
      exact absurd hrest (readFrom_valueless_separated hvalueless hseparated)
    · rw [hform] at hadd
      obtain ⟨_, settled, _, hsettle, _⟩ := addLong_ok hadd
      exact absurd hsettle (settle_valueless hp)
    · rw [hform] at hadd
      exact absurd hadd addShort_ne_ok
    · exact ⟨text, rest, rfl, hword⟩

/-- Arguments that are accepted begin with a separator or with a whole part. -/
theorem leading_part (ho : line.Orderly) (hs : line.separated = false) {text : String}
    {rest : List String} (h : line.readFrom (text :: rest) = .ok s) :
    text = "--" ∨ ∃ (part : Part) (back : List String), text :: rest = part.arguments ++ back := by
  obtain ⟨next, hadd, hrest⟩ := readFrom_cons.mp h
  simp only [add, hs, Bool.false_eq_true, ↓reduceIte] at hadd
  rcases Argument.ofString_cases text with
    ⟨rfl, _⟩ | ⟨name, value, hchars, hform⟩ | ⟨letter, hform⟩ | ⟨hword, _⟩
  · exact .inl rfl
  · rw [hform] at hadd
    obtain ⟨p, settled, rfl, hsettle, hnext⟩ := addLong_ok hadd
    have hflag := Argument.eq_flag hchars
    cases value with
    | some value =>
      exact .inr ⟨.attached p value, rest, by rw [hflag]; rfl⟩
    | none =>
      have hvalueless : next.pending = some (.parameter p none) := by rw [hnext rfl]
      have hunseparated : next.separated = false := by
        rw [hnext rfl]
        exact (settle_settled ho hsettle).separated.trans hs
      obtain ⟨word, back, rfl, hword⟩ := word_of_readFrom_valueless hvalueless hunseparated hrest
      exact .inr ⟨.separate p word hword, back, by rw [hflag]; rfl⟩
  · rw [hform] at hadd
    exact absurd hadd addShort_ne_ok
  · exact .inr ⟨.file text hword, rest, rfl⟩

/-- Behind a separator stands at most the file. -/
theorem readFrom_separated (ho : line.Orderly) (hs : line.separated = true) {rest : List String}
    (h : line.readFrom rest = .ok s) : rest = [] ∨ ∃ path, rest = [path] := by
  match rest with
  | [] => exact .inl rfl
  | [path] => exact .inr ⟨path, rfl⟩
  | path :: other :: rest =>
    obtain ⟨next, hadd, hrest⟩ := readFrom_cons.mp h
    rw [add, if_pos hs] at hadd
    have hseparated := (addFile_adds ho hadd).separated.trans hs
    obtain ⟨_, settled, _, rfl⟩ := addFile_eq_ok_iff.mp hadd
    obtain ⟨last, hsecond, _⟩ := readFrom_cons.mp hrest
    rw [add, if_pos hseparated] at hsecond
    cases (addFile_eq_ok_iff.mp hsecond).1

theorem exists_spelling (ho : line.Orderly) (hs : line.separated = false) {arguments : List String}
    (h : line.readFrom arguments = .ok s) :
    ∃ spelling : Spelling, spelling.arguments = arguments := by
  -- on the number of arguments, since a part may take two of them
  induction hn : arguments.length using Nat.strongRecOn generalizing line arguments with
  | _ n ih =>
    cases arguments with
    | nil => exact ⟨⟨[], .plain⟩, rfl⟩
    | cons text rest =>
      rcases leading_part ho hs h with rfl | ⟨part, back, hpart⟩
      · have hrest := (readFrom_separator hs).mp h
        rcases readFrom_separated ho.separate rfl hrest with rfl | ⟨path, rfl⟩
        · exact ⟨⟨[], .separator⟩, rfl⟩
        · exact ⟨⟨[], .separated path⟩, rfl⟩
      · rw [hpart] at h hn ⊢
        have hshorter : back.length < n := by
          have hpos := List.length_pos_iff.mpr part.arguments_ne_nil
          rw [List.length_append] at hn
          omega
        obtain ⟨next, htake, hback⟩ := readFrom_append.mp h
        have hadds := take_adds ho hs htake
        obtain ⟨spelling, rfl⟩ :=
          ih back.length hshorter hadds.orderly (hadds.separated.trans hs) hback rfl
        refine ⟨⟨part :: spelling.parts, spelling.ending⟩, ?_⟩
        simp [Spelling.arguments]

theorem parse_eq_ok_iff {arguments : List String} :
    parse arguments = .ok s ↔ s.file ≠ "" ∧
      ∃ spelling : Spelling,
        spelling.arguments = arguments ∧ spelling.contents.Perm s.contents := by
  have ho : empty.Orderly := ⟨List.nodup_nil, nofun, nofun, nofun⟩
  change empty.readFrom arguments = .ok s ↔ _
  constructor
  · intro h
    obtain ⟨spelling, rfl⟩ := exists_spelling ho rfl h
    obtain ⟨hnamed, hsame⟩ := (readFrom_parts spelling.parts spelling.ending ho rfl).mp h
    exact ⟨hnamed, spelling, rfl, hsame⟩
  · rintro ⟨hnamed, spelling, rfl, hsame⟩
    exact (readFrom_parts spelling.parts spelling.ending ho rfl).mpr ⟨hnamed, hsame⟩

end

end CommandLine

/-- The program works on settings exactly if its arguments are a row of parts that give these
settings, each once, the file has a name and no parameter is blank. -/
theorem Program.settings_eq_ok_iff {arguments : List String} {s : Settings} :
    settings arguments = .ok s ↔ s.file ≠ "" ∧
      (∀ p value, s.value? p = some value → ∃ c ∈ value.toList, isSpace c = false) ∧
      ∃ spelling : CommandLine.Spelling,
        spelling.arguments = arguments ∧ spelling.contents.Perm s.contents := by
  have hparse : settings arguments = .ok s ↔
      ∃ parsed, CommandLine.parse arguments = .ok parsed ∧ parsed.check = .ok s := by
    simp only [settings, bind_eq_ok_iff, mapError_eq_ok_iff]
  simp only [hparse, CommandLine.parse_eq_ok_iff, Settings.check_eq_ok_iff]
  constructor
  · rintro ⟨_, ⟨hnamed, hspelling⟩, rfl, hvisible⟩
    exact ⟨hnamed, hvisible, hspelling⟩
  · rintro ⟨hnamed, hvisible, hspelling⟩
    exact ⟨s, ⟨hnamed, hspelling⟩, rfl, hvisible⟩

example : Program.settings ["--log-stream", "-", "--log-group=--region", "--", "-x"] =
    .ok ⟨"-x", ⟨"--region", "-"⟩, none⟩ := rfl

end MetricUpload
