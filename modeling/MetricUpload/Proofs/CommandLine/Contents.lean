import Mathlib.Data.List.Nodup
import MetricUpload.Proofs.CommandLine.Spelling
import MetricUpload.Proofs.Fields.Lookup

namespace MetricUpload

theorem bind_eq_ok_iff {ε α β : Type} {x : Except ε α} {f : α → Except ε β} {b : β} :
    x >>= f = .ok b ↔ ∃ a, x = .ok a ∧ f a = .ok b := by
  cases x with
  | error e => exact iff_of_false nofun nofun
  | ok a =>
    constructor
    · intro h
      exact ⟨a, rfl, h⟩
    · rintro ⟨a', ha, h⟩
      cases ha
      exact h

theorem isBlankText_eq_false_iff {text : String} :
    isBlankText text = false ↔ ∃ c ∈ text.toList, isSpace c = false := by
  simp [isBlankText]

namespace Settings

variable {s : Settings}

theorem mem_contents_iff {slot : Slot} {value : String} :
    (slot, value) ∈ s.contents ↔
      match slot with
      | .parameter p => s.value? p = some value
      | .file => s.file = value := by
  cases hregion : s.region with
  | none =>
    cases slot with
    | parameter p => cases p <;> simp [contents, value?, hregion, eq_comm]
    | file => simp [contents, hregion, eq_comm]
  | some region =>
    cases slot with
    | parameter p => cases p <;> simp [contents, value?, hregion, eq_comm]
    | file => simp [contents, hregion, eq_comm]

theorem contents_slots_nodup (s : Settings) : (s.contents.map Prod.fst).Nodup := by
  cases hregion : s.region <;> simp [contents, hregion]

/-- Settings pass as they are, or not at all. -/
theorem check_eq_ok_iff {checked : Settings} :
    s.check = .ok checked ↔ s = checked ∧
      ∀ p value, s.value? p = some value → ∃ c ∈ value.toList, isSpace c = false := by
  unfold check
  split
  next p hfind =>
    refine iff_of_false nofun fun ⟨_, hvalues⟩ => ?_
    have hblank := List.find?_some hfind
    obtain ⟨value, hvalue, hspace⟩ := (Option.any_eq_true _ _).mp hblank
    have hvisible := isBlankText_eq_false_iff.mpr (hvalues p value hvalue)
    rw [hspace] at hvisible
    cases hvisible
  next hnone =>
    rw [Except.ok.injEq]
    refine (and_iff_left ?_).symm
    intro p value hvalue
    have hp := List.find?_eq_none.mp hnone p p.mem_all
    rw [hvalue, Option.any_some, Bool.not_eq_true] at hp
    exact isBlankText_eq_false_iff.mp hp

end Settings

/-- No slot is filled twice, and the file has a name. -/
def Proper (contents : List (Slot × String)) : Prop :=
  (contents.map Prod.fst).Nodup ∧ (.file, "") ∉ contents

namespace Proper

theorem of_perm {contents other : List (Slot × String)} (h : Proper contents)
    (hperm : contents.Perm other) : Proper other :=
  ⟨(hperm.map Prod.fst).nodup_iff.mp h.1, fun hm => h.2 (hperm.mem_iff.mpr hm)⟩

theorem left {front back : List (Slot × String)} (h : Proper (front ++ back)) : Proper front := by
  refine ⟨?_, fun hm => h.2 (List.mem_append_left back hm)⟩
  have hnodup := h.1
  rw [List.map_append] at hnodup
  exact (List.nodup_append.mp hnodup).1

/-- What is given last has not been given before. -/
theorem fresh {front : List (Slot × String)} {slot : Slot} {value : String}
    (h : Proper (front ++ [(slot, value)])) : slot ∉ front.map Prod.fst := by
  intro hslot
  have hnodup := h.1
  rw [List.map_append] at hnodup
  exact (List.nodup_append.mp hnodup).2.2 slot hslot slot (List.mem_singleton.mpr rfl) rfl

theorem of_settings {s : Settings} (h : s.file ≠ "") : Proper s.contents :=
  ⟨s.contents_slots_nodup, fun hm => h (Settings.mem_contents_iff.mp hm)⟩

end Proper

def Pending.contents : Pending → List (Slot × String)
  | .parameter _ none => []
  | .parameter p (some value) => [(.parameter p, value)]
  | .file path => [(.file, path)]

namespace CommandLine

/-- What a line has been given, less what is pending. -/
def settledContents (line : CommandLine) : List (Slot × String) :=
  line.given.map (fun given => (.parameter given.1, given.2)) ++
    (line.file.map fun path => (.file, path)).toList

def contents (line : CommandLine) : List (Slot × String) :=
  line.settledContents ++ (line.pending.map Pending.contents).getD []

/-- Parameters are given once, there is one file, with a name, and no parameter waits for its
value. -/
structure Orderly (line : CommandLine) : Prop where
  distinct : (line.given.map Prod.fst).Nodup
  named : line.file ≠ some ""
  single : ∀ path, line.pending = some (.file path) → line.file = none
  valued : ∀ p, line.pending ≠ some (.parameter p none)

theorem mem_settledContents_iff {line : CommandLine} (h : line.Orderly) {slot : Slot}
    {value : String} : (slot, value) ∈ line.settledContents ↔
      match slot with
      | .parameter p => line.given.lookup p = some value
      | .file => line.file = some value := by
  cases slot with
  | parameter p =>
    simp [settledContents, lookup_eq_some_iff_mem h.distinct]
  | file =>
    cases hfile : line.file <;> simp [settledContents, hfile, eq_comm]

theorem has_iff {line : CommandLine} (h : line.Orderly) {slot : Slot} :
    line.has slot = true ↔ slot ∈ line.settledContents.map Prod.fst := by
  have hvalue : line.has slot = true ↔ ∃ value, (slot, value) ∈ line.settledContents := by
    cases slot <;> simp [has, Option.isSome_iff_exists, mem_settledContents_iff h]
  simpa using hvalue

theorem settledContents_slots_nodup {line : CommandLine} (h : line.Orderly) :
    (line.settledContents.map Prod.fst).Nodup := by
  have hgiven : (line.given.map fun given => Slot.parameter given.1).Nodup := by
    have hmap := List.Pairwise.map (S := (· ≠ ·)) Slot.parameter
      (fun p q hne he => hne (Slot.parameter.inj he)) h.distinct
    rw [List.map_map] at hmap
    exact hmap
  have hslots : line.settledContents.map Prod.fst =
      (line.given.map fun given => .parameter given.1) ++ (line.file.map fun _ => .file).toList := by
    cases hfile : line.file <;> simp [settledContents, hfile]
  rw [hslots]
  refine List.nodup_append.mpr ⟨hgiven, ?_, ?_⟩
  · cases line.file <;> simp
  · intro slot hslot other hother he
    obtain ⟨given, _, rfl⟩ := List.mem_map.mp hslot
    cases hfile : line.file with
    | none => simp [hfile] at hother
    | some path =>
      simp only [hfile, Option.map_some, Option.toList_some, List.mem_singleton] at hother
      rw [hother] at he
      cases he

/-- A line agrees with settings when it has for each slot what they have. -/
theorem settledContents_perm_iff {line : CommandLine} (h : line.Orderly) {s : Settings} :
    line.settledContents.Perm s.contents ↔
      (∀ p, line.given.lookup p = s.value? p) ∧ line.file = some s.file := by
  have hline := List.Nodup.of_map Prod.fst (settledContents_slots_nodup h)
  have hsettings := List.Nodup.of_map Prod.fst s.contents_slots_nodup
  rw [List.perm_ext_iff_of_nodup hline hsettings]
  constructor
  · intro hmem
    refine ⟨fun p => Option.ext fun value => ?_, ?_⟩
    · have hp := hmem (.parameter p, value)
      rwa [mem_settledContents_iff h, Settings.mem_contents_iff] at hp
    · have hfile := hmem (.file, s.file)
      rw [mem_settledContents_iff h, Settings.mem_contents_iff] at hfile
      exact hfile.mpr rfl
  · rintro ⟨hgiven, hfile⟩ ⟨slot, value⟩
    rw [mem_settledContents_iff h, Settings.mem_contents_iff]
    cases slot with
    | parameter p => simp only [hgiven]
    | file => simp only [hfile, Option.some.injEq]

end CommandLine

end MetricUpload
