import MetricUpload.Proofs.Upload.Loading

namespace MetricUpload

namespace Json

/-- A text that is a document of this value and has at most so many containers open at once. -/
def Denotes (text : String) (v : Json) (room : Nat) : Prop :=
  ∃ d : Document, d.text = text ∧ d.tree.value? = some v ∧ d.tree.depth ≤ room

/-- A text that may stand in an array: a document by itself, which leaves room for the array. -/
structure Element where
  text : String
  value : Json
  valid : Denotes text value 126

/-- An array of texts. -/
def listing (texts : List String) : String := "[" ++ ",".intercalate texts ++ "]"

theorem exists_items_of_elements (first : Element) (rest : List Element) :
    ∃ items : Items,
      items.chars = [','].intercalate ((first :: rest).map (·.text.toList)) ++ [']'] ∧
      items.values? = some ((first :: rest).map Element.value) ∧ items.depth ≤ 126 := by
  induction rest generalizing first with
  | nil =>
    obtain ⟨d, htext, hvalue, hdepth⟩ := first.valid
    refine ⟨.last d.before d.tree d.after, ?_, ?_, hdepth⟩
    · simp [Items.chars, ← htext, Document.text, Document.chars]
    · simp only [Items.values?, hvalue, Option.map_some, List.map_cons, List.map_nil]
  | cons next rest ih =>
    obtain ⟨d, htext, hvalue, hdepth⟩ := first.valid
    obtain ⟨items, hchars, hvalues, hmore⟩ := ih next
    refine ⟨.more d.before d.tree d.after items, ?_, ?_, Items.depth_more_le.mpr ⟨hdepth, hmore⟩⟩
    · have hfirst : first.text.toList = d.before.chars ++ (d.tree.chars ++ d.after.chars) := by
        rw [← htext, Document.text, String.toList_ofList, Document.chars]
      simp [Items.chars, hchars, hfirst, List.intercalate_cons_cons]
    · simp only [Items.values?, hvalue, hvalues, List.map_cons]

/-- An array is read as the list of what its elements are read as. -/
theorem read_listing (elements : List Element) :
    read (listing (elements.map Element.text)) = .ok (.array (elements.map Element.value)) := by
  cases elements with
  | nil => rfl
  | cons first rest =>
    obtain ⟨items, hchars, hvalues, hdepth⟩ := exists_items_of_elements first rest
    have htext : (Document.mk .none (.array items) .none).text =
        listing ((first :: rest).map Element.text) := by
      apply String.toList_inj.mp
      rw [listing, String.toList_append, String.toList_append, String.toList_intercalate,
        List.map_map, Document.text, String.toList_ofList, Document.chars, Tree.chars, hchars,
        Blanks.none, List.append_nil]
      rfl
    have hroom : items.depth + 1 ≤ nestingLimit := Nat.succ_le_succ hdepth
    rw [← htext]
    refine Document.read_eq_ok_iff.mpr ⟨?_, hroom⟩
    simp only [Tree.value?, hvalues, Option.map_some]

/-- The first item that is no object, and its kind. -/
def FirstOther (items : List Json) (index : Nat) (kind : Kind) : Prop :=
  ∃ v, items[index]? = some v ∧ v.kind = kind ∧ kind ≠ .object ∧
    ∀ j < index, ∀ w, items[j]? = some w → w.kind = .object

theorem eq_object_of_kind {v : Json} (h : v.kind = .object) : ∃ r : Record, v = .object r := by
  cases v with
  | object members => exact ⟨members, rfl⟩
  | _ => cases h

theorem objects_or_firstOther (items : List Json) :
    (∃ records : List Record, items = records.map .object) ∨
      ∃ index kind, FirstOther items index kind := by
  induction items with
  | nil => exact .inl ⟨[], rfl⟩
  | cons first rest ih =>
    by_cases hfirst : first.kind = .object
    · rcases ih with ⟨records, rfl⟩ | ⟨index, kind, v, hv, hkind, hother, hbefore⟩
      · obtain ⟨r, rfl⟩ := eq_object_of_kind hfirst
        exact .inl ⟨r :: records, rfl⟩
      · refine .inr ⟨index + 1, kind, v, hv, hkind, hother, ?_⟩
        intro j hj w hw
        cases j with
        | zero =>
          cases hw
          exact hfirst
        | succ j => exact hbefore j (by omega) w hw
    · refine .inr ⟨0, first.kind, first, rfl, rfl, hfirst, ?_⟩
      intro j hj
      omega

/-- Objects in front put an offender further back. -/
theorem FirstOther.behind {items : List Json} {index : Nat} {kind : Kind}
    (h : FirstOther items index kind) (front : List Record) :
    FirstOther (front.map .object ++ items) (front.length + index) kind := by
  obtain ⟨v, hv, hkind, hother, hbefore⟩ := h
  have hlength : (front.map Json.object).length = front.length := List.length_map _
  refine ⟨v, ?_, hkind, hother, ?_⟩
  · rw [List.getElem?_append_right (by omega), hlength, Nat.add_sub_cancel_left, hv]
  · intro j hj w hw
    by_cases hfront : j < front.length
    · rw [List.getElem?_append_left (by omega), List.getElem?_map, Option.map_eq_some_iff] at hw
      obtain ⟨r, _, rfl⟩ := hw
      rfl
    · rw [List.getElem?_append_right (by omega)] at hw
      exact hbefore _ (by omega) w hw

end Json

namespace Record

/-- The first offender is named, whatever stands behind it. -/
theorem ofItems_of_firstOther {items : List Json} {index : Nat} {kind : Kind}
    (h : Json.FirstOther items index kind) (start : Nat) :
    ofItems start items = .error (.element (start + index) kind) := by
  induction items generalizing index start with
  | nil =>
    obtain ⟨v, hv, _⟩ := h
    cases hv
  | cons first rest ih =>
    obtain ⟨v, hv, hkind, hother, hbefore⟩ := h
    cases index with
    | zero =>
      cases hv
      subst hkind
      cases first with
      | object members => exact absurd rfl hother
      | _ => rfl
    | succ index =>
      obtain ⟨r, rfl⟩ := Json.eq_object_of_kind (hbefore 0 (by omega) first rfl)
      have hrest : Json.FirstOther rest index kind :=
        ⟨v, hv, hkind, hother, fun j hj w hw => hbefore (j + 1) (by omega) w hw⟩
      have hplace : start + 1 + index = start + (index + 1) := by omega
      rw [ofItems, ih hrest, hplace]
      rfl

end Record

namespace RecordSet

open Json (Element FirstOther listing)

section

variable {elements : List Element}

theorem ofText_listing_objects {records : List Record}
    (h : elements.map Element.value = records.map .object) :
    ofText (listing (elements.map Element.text)) = .ok records := by
  have hread := Json.read_listing elements
  rw [h] at hread
  exact ofText_eq_ok_iff.mpr ⟨_, hread, Record.ofItems_objects 0 records⟩

theorem ofText_listing_firstOther {index : Nat} {kind : Kind}
    (h : FirstOther (elements.map Element.value) index kind) :
    ofText (listing (elements.map Element.text)) = .error (.shape (.element index kind)) := by
  have hitems := Record.ofItems_of_firstOther h 0
  rw [Nat.zero_add] at hitems
  rw [ofText_of_read (Json.read_listing elements), Record.ofJson, hitems]
  rfl

theorem values_of_ofText_listing {records : List Record}
    (h : ofText (listing (elements.map Element.text)) = .ok records) :
    elements.map Element.value = records.map .object := by
  obtain ⟨v, hread, hv⟩ := ofText_eq_ok_iff.mp h
  rw [Json.read_listing] at hread
  cases hread
  exact Record.eq_objects_of_ofItems hv

theorem firstOther_of_ofText_listing {index : Nat} {kind : Kind}
    (h : ofText (listing (elements.map Element.text)) = .error (.shape (.element index kind))) :
    FirstOther (elements.map Element.value) index kind := by
  rcases Json.objects_or_firstOther (elements.map Element.value) with
    ⟨records, hrecords⟩ | ⟨i, other, hother⟩
  · rw [ofText_listing_objects hrecords] at h
    cases h
  · rw [ofText_listing_firstOther hother] at h
    cases h
    exact hother

end

/-- An array of texts is read as the records that the texts are, and refused for the first that is
none. Arrays that are put side by side are read as their records one after the other, and the place
of an offender moves by as many elements as stand before. -/
theorem ofText_listing (elements : List Element) :
    (∀ records : List Record, elements.map Element.value = records.map .object →
      ofText (listing (elements.map Element.text)) = .ok records) ∧
    (∀ index kind, FirstOther (elements.map Element.value) index kind →
      ofText (listing (elements.map Element.text)) = .error (.shape (.element index kind)) ∧
      (ShapeFault.element index kind).message =
        "element " ++ toString index ++ " is a JSON " ++ kind.name ++ ", expected an object") ∧
    ((∃ records : List Record, elements.map Element.value = records.map .object) ∨
      ∃ index kind, FirstOther (elements.map Element.value) index kind) ∧
    ∀ (more : List Element) (front : List Record),
      ofText (listing (elements.map Element.text)) = .ok front →
      (∀ back, ofText (listing (more.map Element.text)) = .ok back →
        ofText (listing ((elements ++ more).map Element.text)) = .ok (front ++ back)) ∧
      ∀ j kind, ofText (listing (more.map Element.text)) = .error (.shape (.element j kind)) →
        ofText (listing ((elements ++ more).map Element.text)) =
          .error (.shape (.element (elements.length + j) kind)) := by
  refine ⟨fun records => ofText_listing_objects, ?_, Json.objects_or_firstOther _, ?_⟩
  · intro index kind h
    exact ⟨ofText_listing_firstOther h, rfl⟩
  · intro more front hfront
    have hvalues := values_of_ofText_listing hfront
    have hlength : front.length = elements.length := by
      have := congrArg List.length hvalues
      simpa using this.symm
    constructor
    · intro back hback
      apply ofText_listing_objects
      rw [List.map_append, List.map_append, hvalues, values_of_ofText_listing hback]
    · intro j kind hj
      apply ofText_listing_firstOther
      rw [List.map_append, hvalues, ← hlength]
      exact (firstOther_of_ofText_listing hj).behind front

/-- An object, and a value with blanks around it that is none. -/
def emptyElement : Element :=
  ⟨"\x7b\x7d", .object [], ⟨.none, .emptyObject .none, .none⟩, rfl, rfl, by decide⟩

def nullElement : Element :=
  ⟨" null\n", .null, ⟨⟨[' '], List.forall_mem_singleton.mpr rfl⟩, .null,
    ⟨['\n'], List.forall_mem_singleton.mpr rfl⟩⟩, rfl, rfl, by decide⟩

theorem ofText_listing_shifted :
    ofText "[\x7b\x7d]" = .ok [[]] ∧
      ofText "[\x7b\x7d, null\n,\x7b\x7d, null\n]" = .error (.shape (.element 1 .null)) ∧
      ofText "[\x7b\x7d,\x7b\x7d, null\n,\x7b\x7d, null\n]" = .error (.shape (.element 2 .null)) := by
  let more : List Element := [emptyElement, nullElement, emptyElement, nullElement]
  have hother : FirstOther (more.map Element.value) 1 .null := by
    refine ⟨.null, rfl, rfl, by decide, ?_⟩
    intro j hj w hw
    obtain rfl : j = 0 := by omega
    cases hw
    rfl
  obtain ⟨hobjects, _, _, hjoined⟩ := ofText_listing [emptyElement]
  have hfront := hobjects [[]] rfl
  have hback := ((ofText_listing more).2.1 1 .null hother).1
  exact ⟨hfront, hback, (hjoined more [[]] hfront).2 1 .null hback⟩

end RecordSet

end MetricUpload
