import MetricUpload.Proofs.CommandLine.Contents

namespace MetricUpload

namespace CommandLine

/-- A line without anything pending that comes of another one and has these contents. -/
structure Settled (line settled : CommandLine) (contents : List (Slot × String)) : Prop where
  orderly : settled.Orderly
  separated : settled.separated = line.separated
  pending : settled.pending = none
  contents : settled.settledContents.Perm contents

/-- A line that has been given this in addition to what an earlier one has. -/
structure Adds (line next : CommandLine) (more : List (Slot × String)) : Prop where
  orderly : next.Orderly
  separated : next.separated = line.separated
  contents : next.contents.Perm (line.contents ++ more)

section

variable {line next : CommandLine}

theorem contents_of_none (h : line.pending = none) : line.contents = line.settledContents := by
  simp [contents, h]

theorem contents_of_some {pending : Pending} (h : line.pending = some pending) :
    line.contents = line.settledContents ++ pending.contents := by
  simp [contents, h]

theorem Orderly.dropPending (h : line.Orderly) : { line with pending := none }.Orderly :=
  ⟨h.distinct, h.named, nofun, nofun⟩

theorem Orderly.separate (h : line.Orderly) : { line with separated := true }.Orderly :=
  ⟨h.distinct, h.named, h.single, h.valued⟩

theorem give_settled {p : Parameter} {value : String} (ho : line.Orderly)
    (hp : line.pending = none) (h : line.give p value = .ok next) :
    line.Settled next (line.settledContents ++ [(.parameter p, value)]) := by
  unfold give at h
  split at h
  next => cases h
  next hnew =>
    cases h
    have hnot : p ∉ line.given.map Prod.fst := by
      intro hm
      obtain ⟨⟨_, old⟩, hgiven, rfl⟩ := List.mem_map.mp hm
      have hlookup := (lookup_eq_some_iff_mem ho.distinct).mpr hgiven
      exact hnew (by rw [hlookup]; rfl)
    refine ⟨⟨?_, ho.named, ho.single, ho.valued⟩, rfl, hp, ?_⟩
    · rw [List.map_append]
      refine List.nodup_append.mpr ⟨ho.distinct, by simp, ?_⟩
      intro q hq other hother he
      have hqp : q = p := he.trans (List.mem_singleton.mp hother)
      exact hnot (hqp ▸ hq)
    · simp only [settledContents, List.map_append, List.map_cons, List.map_nil, List.append_assoc]
      exact List.Perm.append_left _ List.perm_append_comm

theorem exists_give {p : Parameter} {value : String} (ho : line.Orderly)
    (hproper : Proper (line.settledContents ++ [(.parameter p, value)])) :
    ∃ next, line.give p value = .ok next := by
  have hnew : ¬(line.given.lookup p).isSome = true := by
    intro hold
    have hslot : Slot.parameter p ∈ line.settledContents.map Prod.fst := (has_iff ho).mp hold
    exact hproper.fresh hslot
  exact ⟨_, if_neg hnew⟩

theorem settle_settled (ho : line.Orderly) (h : line.settle = .ok next) :
    line.Settled next line.contents := by
  unfold settle at h
  split at h
  next hp =>
    cases h
    exact ⟨ho, rfl, hp, by rw [contents_of_none hp]⟩
  next => cases h
  next p value hp =>
    have hgiven := give_settled ho.dropPending rfl h
    refine ⟨hgiven.orderly, hgiven.separated, hgiven.pending, ?_⟩
    rw [contents_of_some hp]
    exact hgiven.contents
  next path hp =>
    split at h
    next => cases h
    next hpath =>
      cases h
      have hfile := ho.single path hp
      refine ⟨⟨ho.distinct, by simpa using hpath, nofun, nofun⟩, rfl, rfl, ?_⟩
      rw [contents_of_some hp]
      simp [settledContents, Pending.contents, hfile]

theorem exists_settle (ho : line.Orderly) (hproper : Proper line.contents) :
    ∃ next, line.settle = .ok next := by
  unfold settle
  split
  next => exact ⟨_, rfl⟩
  next p hp => exact absurd hp (ho.valued p)
  next p value hp =>
    rw [contents_of_some hp] at hproper
    exact exists_give ho.dropPending hproper
  next path hp =>
    have hpath : path ≠ "" := by
      rintro rfl
      refine hproper.2 ?_
      simp [contents_of_some hp, Pending.contents]
    exact ⟨_, if_neg hpath⟩

/-- What is put off is nevertheless given. -/
theorem Settled.putOff {settled : CommandLine} {pending : Pending}
    (h : line.Settled settled line.contents)
    (hfile : ∀ path, pending = .file path → settled.file = none)
    (hvalued : ∀ p, pending ≠ .parameter p none) :
    line.Adds { settled with pending := some pending } pending.contents := by
  have ho := h.orderly
  refine ⟨⟨ho.distinct, ho.named, ?_, ?_⟩, h.separated, h.contents.append_right pending.contents⟩
  · intro path hpath
    exact hfile path (Option.some.inj hpath)
  · intro p hvalueless
    exact hvalued p (Option.some.inj hvalueless)

theorem hasFile_iff (ho : line.Orderly) :
    line.hasFile = true ↔ Slot.file ∈ line.contents.map Prod.fst := by
  have hsettled : line.has .file = true ↔ Slot.file ∈ line.settledContents.map Prod.fst :=
    has_iff ho
  rw [has] at hsettled
  cases hp : line.pending with
  | none => simpa [hasFile, hp, contents_of_none hp] using hsettled
  | some pending =>
    rw [contents_of_some hp, List.map_append, List.mem_append, ← hsettled]
    cases pending with
    | file path => simp [hasFile, hp, Pending.contents]
    | parameter p value => cases value <;> simp [hasFile, hp, Pending.contents]

theorem addFile_eq_ok_iff {path : String} :
    line.addFile path = .ok next ↔ line.hasFile = false ∧
      ∃ settled, line.settle = .ok settled ∧
        next = { settled with pending := some (.file path) } := by
  unfold addFile
  cases line.hasFile with
  | true => simp
  | false =>
    simp only [Bool.false_eq_true, ↓reduceIte, bind_eq_ok_iff, true_and]
    exact exists_congr fun settled => and_congr_right fun _ => by simp [eq_comm]

theorem addFile_adds {path : String} (ho : line.Orderly) (h : line.addFile path = .ok next) :
    line.Adds next [(.file, path)] := by
  obtain ⟨hnew, settled, hsettle, rfl⟩ := addFile_eq_ok_iff.mp h
  have hsettled := settle_settled ho hsettle
  have hnone : settled.file = none := by
    refine Option.eq_none_iff_forall_ne_some.mpr fun old hold => ?_
    have hm : (Slot.file, old) ∈ settled.settledContents :=
      (mem_settledContents_iff hsettled.orderly).mpr hold
    have hfile := (hasFile_iff ho).mpr (List.mem_map_of_mem (hsettled.contents.mem_iff.mp hm))
    rw [hnew] at hfile
    cases hfile
  exact hsettled.putOff (fun _ _ => hnone) nofun

theorem exists_addFile {path : String} (ho : line.Orderly)
    (hproper : Proper (line.contents ++ [(.file, path)])) :
    ∃ next, line.addFile path = .ok next := by
  have hnew : line.hasFile = false :=
    Bool.eq_false_iff.mpr fun hfile => hproper.fresh ((hasFile_iff ho).mp hfile)
  obtain ⟨settled, hsettle⟩ := exists_settle ho hproper.left
  exact ⟨_, addFile_eq_ok_iff.mpr ⟨hnew, settled, hsettle, rfl⟩⟩

end

section

variable {line : CommandLine} (hs : line.separated = false)

include hs

theorem add_attached (p : Parameter) (value : String) :
    line.add (p.flag ++ "=" ++ value) = (do (← line.settle).give p value) := by
  have hname : Parameter.ofName? p.name = some p := Parameter.ofName?_eq_some_iff.mpr rfl
  simp only [add, hs, Bool.false_eq_true, ↓reduceIte, Argument.ofString_attached, addLong, hname]

theorem add_word {word : String} (hw : Argument.IsWord word) :
    line.add word = line.addWord word := by
  simp only [add, hs, Bool.false_eq_true, ↓reduceIte, Argument.ofString_word hw]

theorem add_flag (p : Parameter) :
    line.add p.flag = (do
      let line ← line.settle
      .ok { line with pending := some (.parameter p none) }) := by
  have hname : Parameter.ofName? p.name = some p := Parameter.ofName?_eq_some_iff.mpr rfl
  simp only [add, hs, Bool.false_eq_true, ↓reduceIte, Argument.ofString_flag, addLong, hname]

theorem add_separator : line.add "--" = .ok { line with separated := true } := by
  have hform : Argument.ofString "--" = .separator := by decide
  simp only [add, hs, Bool.false_eq_true, ↓reduceIte, hform]

end

theorem addWord_of_orderly {line : CommandLine} (ho : line.Orderly) (word : String) :
    line.addWord word = line.addFile word := by
  unfold addWord
  split
  next p hp => exact absurd hp (ho.valued p)
  next => rfl

/-- Reads the arguments of a part. -/
def take (line : CommandLine) (part : Part) : Except CommandStop CommandLine :=
  part.arguments.foldlM add line

section

variable {line next : CommandLine} {part : Part}

theorem take_attached (hs : line.separated = false) (p : Parameter) (value : String) :
    line.take (.attached p value) = (do (← line.settle).give p value) := by
  have htake : line.take (.attached p value) = line.add (p.flag ++ "=" ++ value) := by
    simp [take, Part.arguments]
  rw [htake, add_attached hs]

theorem take_separate (ho : line.Orderly) (hs : line.separated = false) {p : Parameter}
    {value : String} {hw : Argument.IsWord value} :
    line.take (.separate p value hw) = (do
      let line ← line.settle
      .ok { line with pending := some (.parameter p (some value)) }) := by
  simp only [take, Part.arguments, List.foldlM_cons, List.foldlM_nil, add_flag hs]
  cases hsettle : line.settle with
  | error e => rfl
  | ok settled =>
    have hwaiting : { settled with pending := some (.parameter p none) }.separated = false :=
      (settle_settled ho hsettle).separated.trans hs
    exact congrArg (· >>= Except.ok) (add_word hwaiting hw)

theorem take_file (ho : line.Orderly) (hs : line.separated = false) {path : String}
    {hw : Argument.IsWord path} : line.take (.file path hw) = line.addFile path := by
  have htake : line.take (.file path hw) = line.add path := by simp [take, Part.arguments]
  rw [htake, add_word hs hw, addWord_of_orderly ho]

/-- A part adds what it gives. -/
theorem take_adds (ho : line.Orderly) (hs : line.separated = false)
    (h : line.take part = .ok next) : line.Adds next [part.content] := by
  cases part with
  | attached p value =>
    rw [take_attached hs] at h
    obtain ⟨settled, hsettle, hgive⟩ := bind_eq_ok_iff.mp h
    have hsettled := settle_settled ho hsettle
    have hgiven := give_settled hsettled.orderly hsettled.pending hgive
    refine ⟨hgiven.orderly, hgiven.separated.trans hsettled.separated, ?_⟩
    rw [contents_of_none hgiven.pending]
    exact hgiven.contents.trans (hsettled.contents.append_right _)
  | separate p value hw =>
    rw [take_separate ho hs] at h
    obtain ⟨settled, hsettle, hnext⟩ := bind_eq_ok_iff.mp h
    cases hnext
    exact (settle_settled ho hsettle).putOff nofun nofun
  | file path hw =>
    rw [take_file ho hs] at h
    exact addFile_adds ho h

/-- A part is taken if it gives nothing that has been given. -/
theorem exists_take (ho : line.Orderly) (hs : line.separated = false)
    (hproper : Proper (line.contents ++ [part.content])) : ∃ next, line.take part = .ok next := by
  obtain ⟨settled, hsettle⟩ := exists_settle ho hproper.left
  have hsettled := settle_settled ho hsettle
  cases part with
  | attached p value =>
    have hperm := hsettled.contents.symm.append_right [(Slot.parameter p, value)]
    obtain ⟨next, hgive⟩ := exists_give hsettled.orderly (hproper.of_perm hperm)
    refine ⟨next, ?_⟩
    rw [take_attached hs, hsettle]
    exact hgive
  | separate p value hw =>
    refine ⟨{ settled with pending := some (.parameter p (some value)) }, ?_⟩
    rw [take_separate ho hs, hsettle]
    rfl
  | file path hw =>
    rw [take_file ho hs]
    exact exists_addFile ho hproper

end

end CommandLine

end MetricUpload
