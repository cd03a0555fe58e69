import MetricUpload.Proofs.Json.CompactText
import MetricUpload.Proofs.Json.ReaderInvariant
import MetricUpload.RecordSet

namespace MetricUpload

namespace Record

theorem eq_objects_of_ofItems {index : Nat} {items : List Json} {records : List Record}
    (h : ofItems index items = .ok records) : items = records.map .object := by
  induction items generalizing index records with
  | nil =>
    cases h
    rfl
  | cons item items ih =>
    cases item with
    | object members =>
      cases hrest : ofItems (index + 1) items with
      | error fault =>
        simp only [ofItems, hrest] at h
        cases h
      | ok rest =>
        simp only [ofItems, hrest] at h
        cases h
        rw [ih hrest]
        rfl
    | _ => cases h

theorem fits_of_ofJson {v : Json} {records : List Record} (hv : v.Fits 0)
    (h : ofJson v = .ok records) {r : Record} (hr : r ∈ records) : (Json.object r).Fits 0 := by
  cases v with
  | object members =>
    cases h
    rw [List.mem_singleton.mp hr]
    exact hv
  | array items =>
    have hitems := Json.fits_array.mp hv
    rw [eq_objects_of_ofItems h] at hitems
    exact (hitems.2 _ (List.mem_map_of_mem hr)).mono (by omega)
  | _ => cases h

theorem ofItems_objects (index : Nat) (records : List Record) :
    ofItems index (records.map .object) = .ok records := by
  induction records generalizing index with
  | nil => rfl
  | cons r records ih =>
    simp only [List.map_cons, ofItems, ih]
    rfl

end Record

namespace Disk

theorem readText_of_utf8 {disk : Disk} {path text : String} (h : disk path = .ok text.toUTF8) :
    disk.readText path = .ok text := by
  have hsome : String.fromUTF8? text.toUTF8 = some text := dif_pos text.isValidUTF8
  simp only [readText, h, bind, Except.bind, hsome]

theorem readText_of_not_utf8 {disk : Disk} {path : String} {content : ByteArray}
    (h : disk path = .ok content) (bad : ¬content.IsValidUTF8) :
    disk.readText path = .error .notUtf8 := by
  have hnone : String.fromUTF8? content = none := dif_neg bad
  simp only [readText, h, bind, Except.bind, hnone]

end Disk

namespace RecordSet

theorem ofText_of_fault {text : String} {fault : Json.Fault} (h : Json.read text = .error fault) :
    ofText text = .error (.badText fault) := by
  simp only [ofText, h]

theorem ofText_of_read {text : String} {v : Json} (h : Json.read text = .ok v) :
    ofText text = (Record.ofJson v).mapError .shape := by
  simp only [ofText, h]

theorem ofText_eq_ok_iff {text : String} {records : List Record} :
    ofText text = .ok records ↔ ∃ v, Json.read text = .ok v ∧ Record.ofJson v = .ok records := by
  constructor
  · intro h
    cases hread : Json.read text with
    | error fault =>
      rw [ofText_of_fault hread] at h
      cases h
    | ok v =>
      rw [ofText_of_read hread] at h
      exact ⟨v, rfl, mapError_eq_ok_iff.mp h⟩
  · rintro ⟨v, hread, hv⟩
    rw [ofText_of_read hread]
    exact mapError_eq_ok_iff.mpr hv

/-- A file is loaded as its text is read; only the fault of a bad text names the file instead. -/
theorem load_of_text {disk : Disk} {path text : String} (h : disk.readText path = .ok text) :
    load disk path =
      match ofText text with
      | .error (.badText fault) => .error (.badFile path fault)
      | outcome => outcome := by
  cases hread : Json.read text with
  | error fault => simp only [load, h, hread, ofText_of_fault hread]
  | ok v =>
    have hload : load disk path = (Record.ofJson v).mapError .shape := by
      simp only [load, h, hread]
    rw [hload, ofText_of_read hread]
    cases Record.ofJson v <;> rfl

theorem load_of_ofText {disk : Disk} {path text : String} {records : List Record}
    (h : disk path = .ok text.toUTF8) (hrecords : ofText text = .ok records) :
    load disk path = .ok records := by
  rw [load_of_text (Disk.readText_of_utf8 h), hrecords]

theorem exists_of_load {disk : Disk} {path : String} {records : List Record}
    (h : load disk path = .ok records) :
    ∃ text, disk.readText path = .ok text ∧ ofText text = .ok records := by
  cases htext : disk.readText path with
  | error fault =>
    simp only [load, htext] at h
    cases h
  | ok text =>
    rw [load_of_text htext] at h
    split at h
    next => cases h
    next => exact ⟨text, rfl, h⟩

/-- What a text can hold is what a message can hold. -/
theorem ofText_fits {text : String} {records : List Record} (h : ofText text = .ok records)
    {r : Record} (hr : r ∈ records) : (Json.object r).Fits 0 := by
  obtain ⟨v, hread, hv⟩ := ofText_eq_ok_iff.mp h
  exact Record.fits_of_ofJson (Json.read_fits hread) hv hr

theorem load_fits {disk : Disk} {path : String} {records : List Record}
    (h : load disk path = .ok records) {r : Record} (hr : r ∈ records) :
    (Json.object r).Fits 0 := by
  obtain ⟨text, _, hrecords⟩ := exists_of_load h
  exact ofText_fits hrecords hr

theorem ofText_array {records : List Record} (hfits : ∀ r ∈ records, (Json.object r).Fits 1)
    (hfloats : ∀ r ∈ records, (Json.object r).WithoutFloats) :
    ofText (Json.array (records.map .object)).text = .ok records := by
  have hv : (Json.array (records.map .object)).Fits 0 := by
    refine Json.fits_array.mpr ⟨by decide, fun item hitem => ?_⟩
    obtain ⟨r, hr, rfl⟩ := List.mem_map.mp hitem
    exact hfits r hr
  have hf : (Json.array (records.map .object)).WithoutFloats := by
    refine Json.withoutFloats_array.mpr fun item hitem => ?_
    obtain ⟨r, hr, rfl⟩ := List.mem_map.mp hitem
    exact hfloats r hr
  exact ofText_eq_ok_iff.mpr ⟨_, Json.read_text hv hf, Record.ofItems_objects 0 records⟩

theorem load_array {disk : Disk} {path : String} {records : List Record}
    (hfits : ∀ r ∈ records, (Json.object r).Fits 1)
    (hfloats : ∀ r ∈ records, (Json.object r).WithoutFloats)
    (h : disk path = .ok (Json.array (records.map .object)).text.toUTF8) :
    load disk path = .ok records :=
  load_of_ofText h (ofText_array hfits hfloats)

end RecordSet

end MetricUpload
