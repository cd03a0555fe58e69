import MetricUpload.Proofs.Fields.Resolution
import MetricUpload.Proofs.Json.TreeReading

namespace MetricUpload

namespace Json

mutual

/-- What a tree means: no surrogate stands alone in it, the reader can convert every numeral, and in
every object the repetitions of a key are resolved. -/
inductive Tree.Means : Tree → Json → Prop
  | null : Tree.Means .null .null
  | bool (b : Bool) : Tree.Means (.bool b) (.bool b)
  | number {n : NumeralText} {m : Number} (h : n.number? = some m) :
      Tree.Means (.number n) (.number m)
  | string {pieces : List Piece} {s : String} (h : meaning? pieces = some s.toList) :
      Tree.Means (.string pieces) (.string s)
  | emptyArray (inner : Blanks) : Tree.Means (.emptyArray inner) (.array [])
  | array {items : Items} {values : List Json} (h : items.Mean values) :
      Tree.Means (.array items) (.array values)
  | object {t : Tree} {members fields : List (String × Json)} (h : t.Lists members)
      (resolved : Fields.Resolves members fields) : Tree.Means t (.object fields)

/-- The members of an object as they are written, every repetition among them, by decoded keys. -/
inductive Tree.Lists : Tree → List (String × Json) → Prop
  | empty (inner : Blanks) : Tree.Lists (.emptyObject inner) []
  | members {ms : Members} {members : List (String × Json)} (h : ms.Mean members) :
      Tree.Lists (.object ms) members

inductive Items.Mean : Items → List Json → Prop
  | last {before after : Blanks} {t : Tree} {v : Json} (h : t.Means v) :
      Items.Mean (.last before t after) [v]
  | more {before after : Blanks} {t : Tree} {v : Json} {rest : Items} {values : List Json}
      (h : t.Means v) (hs : rest.Mean values) : Items.Mean (.more before t after rest) (v :: values)

inductive Members.Mean : Members → List (String × Json) → Prop
  | last {name : Name} {before after : Blanks} {t : Tree} {key : String} {v : Json}
      (hk : meaning? name.pieces = some key.toList) (h : t.Means v) :
      Members.Mean (.last name before t after) [(key, v)]
  | more {name : Name} {before after : Blanks} {t : Tree} {rest : Members} {key : String} {v : Json}
      {members : List (String × Json)} (hk : meaning? name.pieces = some key.toList) (h : t.Means v)
      (hs : rest.Mean members) : Members.Mean (.more name before t after rest) ((key, v) :: members)

end

mutual

theorem means_of_value : ∀ {t : Tree} {v : Json}, t.value? = some v → t.Means v
  | .null, _, h => by
    cases h
    exact .null
  | .bool b, _, h => by
    cases h
    exact .bool b
  | .number n, _, h => by
    obtain ⟨m, hm, rfl⟩ := Option.map_eq_some_iff.mp h
    exact .number hm
  | .string pieces, _, h => by
    obtain ⟨text, htext, rfl⟩ := Option.map_eq_some_iff.mp h
    exact .string (by rw [htext, String.toList_ofList])
  | .emptyArray inner, _, h => by
    cases h
    exact .emptyArray inner
  | .array items, _, h => by
    obtain ⟨values, hvalues, rfl⟩ := Option.map_eq_some_iff.mp h
    exact .array (mean_of_itemValues hvalues)
  | .emptyObject inner, _, h => by
    cases h
    exact .object (.empty inner) .nil
  | .object members, _, h => by
    obtain ⟨named, hnamed, rfl⟩ := Option.map_eq_some_iff.mp h
    exact .object (.members (mean_of_memberValues hnamed)) (Fields.putAll_resolves named)

theorem mean_of_itemValues : ∀ {items : Items} {values : List Json},
    items.values? = some values → items.Mean values
  | .last _ t _, _, h => by
    obtain ⟨v, hv, rfl⟩ := Option.map_eq_some_iff.mp h
    exact .last (means_of_value hv)
  | .more _ t _ rest, _, h => by
    simp only [Items.values?] at h
    split at h
    next v values hv hvalues =>
      cases h
      exact .more (means_of_value hv) (mean_of_itemValues hvalues)
    next => cases h

theorem mean_of_memberValues : ∀ {members : Members} {named : List (String × Json)},
    members.values? = some named → members.Mean named
  | .last name _ t _, _, h => by
    simp only [Members.values?] at h
    split at h
    next text v htext hv =>
      cases h
      exact .last (by rw [htext, String.toList_ofList]) (means_of_value hv)
    next => cases h
  | .more name _ t _ rest, _, h => by
    simp only [Members.values?] at h
    split at h
    next text v named htext hv hnamed =>
      cases h
      exact .more (by rw [htext, String.toList_ofList]) (means_of_value hv)
        (mean_of_memberValues hnamed)
    next => cases h

end

mutual

theorem value_of_means : ∀ {t : Tree} {v : Json}, t.Means v → t.value? = some v
  | _, _, .null => rfl
  | _, _, .bool _ => rfl
  | _, _, .number h => by rw [Tree.value?, h, Option.map_some]
  | _, _, .string h => by rw [Tree.value?, h, Option.map_some, String.ofList_toList]
  | _, _, .emptyArray _ => rfl
  | _, _, .array h => by rw [Tree.value?, itemValues_of_mean h, Option.map_some]
  | _, _, .object (.empty _) resolved => by
    rw [Tree.value?, ← Fields.resolves_iff.mp resolved]
    rfl
  | _, _, .object (.members h) resolved => by
    rw [Tree.value?, memberValues_of_mean h, Option.map_some, Fields.resolves_iff.mp resolved]

theorem itemValues_of_mean : ∀ {items : Items} {values : List Json}, items.Mean values →
    items.values? = some values
  | _, _, .last h => by rw [Items.values?, value_of_means h, Option.map_some]
  | _, _, .more h hs => by simp only [Items.values?, value_of_means h, itemValues_of_mean hs]

theorem memberValues_of_mean : ∀ {members : Members} {named : List (String × Json)},
    members.Mean named → members.values? = some named
  | _, _, .last hk h => by
    simp only [Members.values?, hk, value_of_means h, String.ofList_toList]
  | _, _, .more hk h hs => by
    simp only [Members.values?, hk, value_of_means h, memberValues_of_mean hs, String.ofList_toList]

end

/-- A tree has a value exactly when it means one, and then no other. -/
theorem value_eq_some_iff {t : Tree} {v : Json} : t.value? = some v ↔ t.Means v :=
  ⟨means_of_value, value_of_means⟩

theorem Tree.Means.unique {t : Tree} {v w : Json} (h : t.Means v) (h' : t.Means w) : v = w :=
  Option.some.inj ((value_of_means h).symm.trans (value_of_means h'))

mutual

/-- No surrogate stands alone in a tree, and all numerals in it are of this kind. -/
def Tree.Within (kind : NumeralText → Prop) : Tree → Prop
  | .number n => kind n
  | .string pieces => ∃ text, meaning? pieces = some text
  | .array items => items.Within kind
  | .object members => members.Within kind
  | _ => True

def Items.Within (kind : NumeralText → Prop) : Items → Prop
  | .last _ t _ => t.Within kind
  | .more _ t _ rest => t.Within kind ∧ rest.Within kind

def Members.Within (kind : NumeralText → Prop) : Members → Prop
  | .last name _ t _ => (∃ text, meaning? name.pieces = some text) ∧ t.Within kind
  | .more name _ t _ rest =>
    (∃ text, meaning? name.pieces = some text) ∧ t.Within kind ∧ rest.Within kind

end

mutual

theorem Tree.Within.mono {kind kind' : NumeralText → Prop} (himp : ∀ n, kind n → kind' n) :
    ∀ {t : Tree}, t.Within kind → t.Within kind'
  | .null, h | .bool _, h | .string _, h | .emptyArray _, h | .emptyObject _, h => h
  | .number n, h => himp n h
  | .array _, h => Items.Within.mono himp h
  | .object _, h => Members.Within.mono himp h

theorem Items.Within.mono {kind kind' : NumeralText → Prop} (himp : ∀ n, kind n → kind' n) :
    ∀ {items : Items}, items.Within kind → items.Within kind'
  | .last _ _ _, h => Tree.Within.mono himp h
  | .more _ _ _ _, ⟨h, hs⟩ => ⟨Tree.Within.mono himp h, Items.Within.mono himp hs⟩

theorem Members.Within.mono {kind kind' : NumeralText → Prop} (himp : ∀ n, kind n → kind' n) :
    ∀ {members : Members}, members.Within kind → members.Within kind'
  | .last _ _ _ _, ⟨hk, h⟩ => ⟨hk, Tree.Within.mono himp h⟩
  | .more _ _ _ _ _, ⟨hk, h, hs⟩ =>
    ⟨hk, Tree.Within.mono himp h, Members.Within.mono himp hs⟩

end

mutual

theorem exists_means : ∀ {t : Tree}, t.Within NumeralText.Convertible → ∃ v, t.Means v
  | .null, _ => ⟨_, .null⟩
  | .bool b, _ => ⟨_, .bool b⟩
  | .number _, ⟨_, h⟩ => ⟨_, .number h⟩
  | .string _, ⟨_, h⟩ => ⟨_, means_of_value (by rw [Tree.value?, h, Option.map_some])⟩
  | .emptyArray inner, _ => ⟨_, .emptyArray inner⟩
  | .array _, h => by
    obtain ⟨values, hvalues⟩ := exists_itemsMean h
    exact ⟨_, .array hvalues⟩
  | .emptyObject inner, _ => ⟨_, .object (.empty inner) .nil⟩
  | .object _, h => by
    obtain ⟨named, hnamed⟩ := exists_membersMean h
    exact ⟨_, .object (.members hnamed) (Fields.putAll_resolves named)⟩

theorem exists_itemsMean : ∀ {items : Items}, items.Within NumeralText.Convertible →
    ∃ values, items.Mean values
  | .last _ _ _, h => by
    obtain ⟨v, hv⟩ := exists_means h
    exact ⟨_, .last hv⟩
  | .more _ _ _ _, ⟨h, hs⟩ => by
    obtain ⟨v, hv⟩ := exists_means h
    obtain ⟨values, hvalues⟩ := exists_itemsMean hs
    exact ⟨_, .more hv hvalues⟩

theorem exists_membersMean : ∀ {members : Members}, members.Within NumeralText.Convertible →
    ∃ named, members.Mean named
  | .last _ _ _ _, ⟨⟨text, hk⟩, h⟩ => by
    obtain ⟨v, hv⟩ := exists_means h
    exact ⟨[(String.ofList text, v)], .last (by rw [hk, String.toList_ofList]) hv⟩
  | .more _ _ _ _ _, ⟨⟨text, hk⟩, h, hs⟩ => by
    obtain ⟨v, hv⟩ := exists_means h
    obtain ⟨named, hnamed⟩ := exists_membersMean hs
    exact ⟨(String.ofList text, v) :: named, .more (by rw [hk, String.toList_ofList]) hv hnamed⟩

end

mutual

theorem Tree.Means.within : ∀ {t : Tree} {v : Json}, t.Means v →
    t.Within NumeralText.Convertible
  | _, _, .null | _, _, .bool _ | _, _, .emptyArray _ => trivial
  | _, _, .number h => ⟨_, h⟩
  | _, _, .string h => ⟨_, h⟩
  | _, _, .array h => h.within
  | _, _, .object h _ => h.within

theorem Tree.Lists.within : ∀ {t : Tree} {named : List (String × Json)}, t.Lists named →
    t.Within NumeralText.Convertible
  | _, _, .empty _ => trivial
  | _, _, .members h => h.within

theorem Items.Mean.within : ∀ {items : Items} {values : List Json}, items.Mean values →
    items.Within NumeralText.Convertible
  | _, _, .last h => h.within
  | _, _, .more h hs => ⟨h.within, hs.within⟩

theorem Members.Mean.within : ∀ {members : Members} {named : List (String × Json)},
    members.Mean named → members.Within NumeralText.Convertible
  | _, _, .last hk h => ⟨⟨_, hk⟩, h.within⟩
  | _, _, .more hk h hs => ⟨⟨_, hk⟩, h.within, hs.within⟩

end

/-- A document is read when it means something and leaves room for its containers. -/
theorem Document.read_eq_ok_iff_means {d : Document} {v : Json} :
    read d.text = .ok v ↔ d.tree.Means v ∧ d.tree.depth ≤ nestingLimit := by
  rw [Document.read_eq_ok_iff, value_eq_some_iff]

end Json

end MetricUpload
