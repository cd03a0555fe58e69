import MetricUpload.Proofs.Json.TreeReading
import MetricUpload.Proofs.Upload.Effects
import MetricUpload.Proofs.Upload.Loading

namespace MetricUpload

namespace Json

namespace Document

/-- The document as the only item of an array. -/
def bracketed (d : Document) : Document :=
  ⟨.none, .array (.last d.before d.tree d.after), .none⟩

theorem bracketed_text (d : Document) : d.bracketed.text = "[" ++ d.text ++ "]" := by
  have hchars : d.bracketed.chars = '[' :: (d.chars ++ [']']) := by
    simp [bracketed, chars, Tree.chars, Items.chars, Blanks.none]
  have htext : d.text.toList = d.chars := String.toList_ofList
  apply String.toList_inj.mp
  rw [text, String.toList_ofList, hchars, String.toList_append, String.toList_append, htext]
  rfl

/-- An array needs a level of nesting of its own. -/
theorem read_bracketed_eq_ok_iff {d : Document} {v : Json} :
    read ("[" ++ d.text ++ "]") = .ok (.array [v]) ↔
      d.tree.value? = some v ∧ d.tree.depth < nestingLimit := by
  have hvalue : d.bracketed.tree.value? = some (.array [v]) ↔ d.tree.value? = some v := by
    simp [bracketed, Tree.value?, Items.values?]
  have hdepth : d.bracketed.tree.depth = d.tree.depth + 1 := rfl
  rw [← bracketed_text, read_eq_ok_iff, hvalue, hdepth, Nat.succ_le_iff]

theorem read_bracketed_fault {d : Document} (h : nestingLimit ≤ d.tree.depth) :
    ∃ fault, read ("[" ++ d.text ++ "]") = .error fault := by
  rw [← bracketed_text]
  cases hread : read d.bracketed.text with
  | error fault => exact ⟨fault, rfl⟩
  | ok w =>
    have hroom : d.tree.depth + 1 ≤ nestingLimit := (read_eq_ok_iff.mp hread).2
    omega

end Document

end Json

namespace Upload

/-- Only the records count, not the file they come from. -/
theorem run_of_same_records {disk disk' : Disk} {path path' : String} {records : List Record}
    (h : RecordSet.load disk path = .ok records) (h' : RecordSet.load disk' path' = .ok records)
    (target : Target) (sink : Sink) (clock : Clock) :
    (run disk' path' target sink clock).result = (run disk path target sink clock).result ∧
      (run disk' path' target sink clock).calls = (run disk path target sink clock).calls ∧
      (run disk' path' target sink clock).clock = (run disk path target sink clock).clock := by
  simp only [run, h, h', result_after, calls_after, clock_after, and_self]

/-- A record in brackets is read and sent as the record alone, if the record leaves room for the
brackets; else the text in brackets is refused. -/
theorem run_bracketed {text : String} {record : Record} {d : Json.Document}
    (accepted : Json.read text = .ok (.object record)) (spelled : d.text = text) :
    (d.tree.depth ≤ 126 →
      RecordSet.ofText text = .ok [record] ∧
      RecordSet.ofText ("[" ++ text ++ "]") = .ok [record] ∧
      ∀ (disk disk' : Disk) (path path' : String), disk path = .ok text.toUTF8 →
        disk' path' = .ok ("[" ++ text ++ "]").toUTF8 → ∀ target sink clock,
          (run disk' path' target sink clock).result = (run disk path target sink clock).result ∧
          (run disk' path' target sink clock).calls = (run disk path target sink clock).calls ∧
          (run disk' path' target sink clock).clock = (run disk path target sink clock).clock) ∧
    (126 < d.tree.depth →
      ∃ fault, RecordSet.ofText ("[" ++ text ++ "]") = .error (.badText fault)) := by
  subst spelled
  have hlimit : Json.nestingLimit = 127 := rfl
  obtain ⟨hvalue, _⟩ := Json.Document.read_eq_ok_iff.mp accepted
  constructor
  · intro shallow
    have hread : Json.read ("[" ++ d.text ++ "]") = .ok (.array [.object record]) :=
      Json.Document.read_bracketed_eq_ok_iff.mpr ⟨hvalue, by omega⟩
    have halone : RecordSet.ofText d.text = .ok [record] :=
      RecordSet.ofText_eq_ok_iff.mpr ⟨_, accepted, rfl⟩
    have hbracketed : RecordSet.ofText ("[" ++ d.text ++ "]") = .ok [record] :=
      RecordSet.ofText_eq_ok_iff.mpr ⟨_, hread, rfl⟩
    refine ⟨halone, hbracketed, ?_⟩
    intro disk disk' path path' hdisk hdisk'
    exact run_of_same_records (RecordSet.load_of_ofText hdisk halone)
      (RecordSet.load_of_ofText hdisk' hbracketed)
  · intro deep
    obtain ⟨fault, hfault⟩ := Json.Document.read_bracketed_fault (d := d) (by omega)
    exact ⟨fault, RecordSet.ofText_of_fault hfault⟩

end Upload

namespace Json

/-- So many objects, each but the innermost with the next one as its only member. -/
def nestedTree : Nat → Tree
  | 0 => .emptyObject .none
  | n + 1 => .object (.last (literalName "a") .none (nestedTree n) .none)

def nestedRecord : Nat → Record
  | 0 => []
  | n + 1 => [("a", .object (nestedRecord n))]

def nested (n : Nat) : Document := ⟨.none, nestedTree n, .none⟩

example : (nested 2).text = "\x7b\"a\":\x7b\"a\":\x7b\x7d\x7d\x7d" := by decide

theorem nestedTree_depth (n : Nat) : (nestedTree n).depth = n + 1 := by
  induction n with
  | zero => rfl
  | succ n ih => simp only [nestedTree, Tree.depth, Members.depth, ih]

theorem nestedTree_value (n : Nat) : (nestedTree n).value? = some (.object (nestedRecord n)) := by
  induction n with
  | zero => rfl
  | succ n ih =>
    have hname : meaning? (literalName "a").pieces = some ['a'] := rfl
    simp only [nestedTree, Tree.value?, Members.values?, hname, ih]
    rfl

theorem read_nested {n : Nat} (h : n < nestingLimit) :
    read (nested n).text = .ok (.object (nestedRecord n)) := by
  have hdepth : (nested n).tree.depth = n + 1 := nestedTree_depth n
  exact Document.read_eq_ok_iff.mpr ⟨nestedTree_value n, by omega⟩

end Json

namespace Upload

theorem run_bracketed_nested :
    RecordSet.ofText (Json.nested 125).text = .ok [Json.nestedRecord 125] ∧
      RecordSet.ofText ("[" ++ (Json.nested 125).text ++ "]") = .ok [Json.nestedRecord 125] ∧
      ∀ target sink clock,
        (run (fun _ => .ok ("[" ++ (Json.nested 125).text ++ "]").toUTF8) "array.json" target sink
            clock).calls =
          (run (fun _ => .ok (Json.nested 125).text.toUTF8) "alone.json" target sink clock).calls := by
  have accepted : Json.read (Json.nested 125).text = .ok (.object (Json.nestedRecord 125)) :=
    Json.read_nested (by decide)
  have shallow : (Json.nested 125).tree.depth ≤ 126 := Nat.le_of_eq (Json.nestedTree_depth 125)
  obtain ⟨halone, hbracketed, hrun⟩ := (run_bracketed accepted rfl).1 shallow
  refine ⟨halone, hbracketed, ?_⟩
  intro target sink clock
  exact (hrun (fun _ => .ok (Json.nested 125).text.toUTF8)
    (fun _ => .ok ("[" ++ (Json.nested 125).text ++ "]").toUTF8) "alone.json" "array.json" rfl rfl
    target sink clock).2.1

/-- At the limit of nesting a record is read alone, but not in brackets. -/
theorem bracketed_nested_refused :
    RecordSet.ofText (Json.nested 126).text = .ok [Json.nestedRecord 126] ∧
      ∃ fault, RecordSet.ofText ("[" ++ (Json.nested 126).text ++ "]") = .error (.badText fault) := by
  have accepted : Json.read (Json.nested 126).text = .ok (.object (Json.nestedRecord 126)) :=
    Json.read_nested (by decide)
  have deep : Json.nestingLimit ≤ (Json.nested 126).tree.depth :=
    Nat.le_of_eq (Json.nestedTree_depth 126).symm
  obtain ⟨fault, hfault⟩ := Json.Document.read_bracketed_fault deep
  exact ⟨RecordSet.ofText_eq_ok_iff.mpr ⟨_, accepted, rfl⟩, fault,
    RecordSet.ofText_of_fault hfault⟩

end Upload

end MetricUpload
