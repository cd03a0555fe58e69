import MetricUpload.Event
import MetricUpload.Proofs.Json.Bracketing

namespace MetricUpload

namespace Json

/-- One object on one line: nothing in its strings, its names included, closes a string or the object
early. -/
structure IsCompactLine (text : List Char) : Prop where
  braces : ∃ inner, text = '{' :: (inner ++ ['}'])
  visible : ∀ c ∈ text, 0x20 ≤ c.toNat
  compact : ∀ before c after, text = before ++ c :: after → ∀ s, Scan.start.run before = some s →
    s.quoting = .outside → isSpace c = false
  balanced : Scan.start.run text = some ⟨.outside, []⟩
  closedLast : ∀ before after, text = before ++ after → before ≠ [] → after ≠ [] →
    ∃ s, Scan.start.run before = some s ∧ s.opened ≠ []

theorem isCompactLine_object (members : List (String × Json)) :
    IsCompactLine (object members).chars := by
  obtain ⟨inner, hinner, hinside⟩ := Scan.passes_object members [.curly]
  have hwhole := Scan.passes_chars (object members) []
  have hopen : Scan.start.step '{' = some ⟨.outside, [.curly]⟩ := rfl
  refine ⟨⟨inner, hinner⟩, hwhole.visible, ?_, hwhole.run_eq, ?_⟩
  · intro before c after htext s hs hquoting
    rw [htext] at hwhole
    obtain ⟨t, ht, hadmits⟩ := hwhole.admits
    obtain rfl : t = s := Option.some.inj (ht.symm.trans hs)
    exact hadmits.2 hquoting
  · intro before after htext hbefore hafter
    rw [hinner] at htext
    obtain ⟨c, before, rfl⟩ := List.exists_cons_of_ne_nil hbefore
    rw [List.cons_append, List.cons.injEq] at htext
    obtain ⟨rfl, htext⟩ := htext
    have hpart : ∃ rest, inner = before ++ rest := by
      rcases List.append_eq_append_iff.mp htext with ⟨more, rfl, hlast⟩ | ⟨rest, hrest, _⟩
      · rcases List.append_eq_singleton_iff.mp hlast.symm with ⟨rfl, _⟩ | ⟨_, hnil⟩
        · exact ⟨[], by simp⟩
        · exact absurd hnil hafter
      · exact ⟨rest, hrest⟩
    obtain ⟨rest, rfl⟩ := hpart
    obtain ⟨s, hs, hopened, _⟩ := hinside.cut
    refine ⟨s, (Scan.run_cons hopen before).trans hs, ?_⟩
    exact List.ne_nil_of_mem (hopened.subset (List.mem_singleton_self _))

end Json

namespace Event

/-- Every message is one object on one line. -/
theorem ofRecord_isCompactLine (r : Record) (timestamp : Int64) :
    Json.IsCompactLine (ofRecord r timestamp).message.toList := by
  have hmessage : (ofRecord r timestamp).message.toList = (Json.object r).chars :=
    String.toList_ofList
  rw [hmessage]
  exact Json.isCompactLine_object r

end Event

end MetricUpload
