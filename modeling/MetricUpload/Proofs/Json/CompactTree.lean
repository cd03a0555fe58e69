import Mathlib.Data.List.Nodup
import MetricUpload.Proofs.Binary64.Spelling
import MetricUpload.Proofs.Json.CompactText

namespace MetricUpload

namespace Json

mutual

/-- A tree that spells a value as it stands: its numbers digit by digit, and the members of its objects
one by one, under names that mean their keys. -/
inductive Tree.Shows : Tree → Json → Prop
  | null : Tree.Shows .null .null
  | bool (b : Bool) : Tree.Shows (.bool b) (.bool b)
  | number {n : NumeralText} {m : Number} (h : n.chars = m.chars) :
      Tree.Shows (.number n) (.number m)
  | string {pieces : List Piece} {s : String} (h : meaning? pieces = some s.toList) :
      Tree.Shows (.string pieces) (.string s)
  | emptyArray (inner : Blanks) : Tree.Shows (.emptyArray inner) (.array [])
  | array {items : Items} {values : List Json} (h : items.Show values) :
      Tree.Shows (.array items) (.array values)
  | emptyObject (inner : Blanks) : Tree.Shows (.emptyObject inner) (.object [])
  | object {members : Members} {fields : List (String × Json)} (h : members.Show fields) :
      Tree.Shows (.object members) (.object fields)

inductive Items.Show : Items → List Json → Prop
  | last {before after : Blanks} {t : Tree} {v : Json} (h : t.Shows v) :
      Items.Show (.last before t after) [v]
  | more {before after : Blanks} {t : Tree} {v : Json} {rest : Items} {values : List Json}
      (h : t.Shows v) (hs : rest.Show values) : Items.Show (.more before t after rest) (v :: values)

inductive Members.Show : Members → List (String × Json) → Prop
  | last {name : Name} {before after : Blanks} {t : Tree} {key : String} {v : Json}
      (hk : meaning? name.pieces = some key.toList) (h : t.Shows v) :
      Members.Show (.last name before t after) [(key, v)]
  | more {name : Name} {before after : Blanks} {t : Tree} {rest : Members} {key : String} {v : Json}
      {fields : List (String × Json)} (hk : meaning? name.pieces = some key.toList) (h : t.Shows v)
      (hs : rest.Show fields) : Members.Show (.more name before t after rest) ((key, v) :: fields)

end

/-- The decoded names of the members. -/
def Members.names : Members → List (Option (List Char))
  | .last name _ _ _ => [meaning? name.pieces]
  | .more name _ _ _ rest => meaning? name.pieces :: rest.names

mutual

/-- No object of the tree has two members whose names mean the same. -/
def Tree.DistinctNames : Tree → Prop
  | .array items => items.DistinctNames
  | .object members => members.names.Nodup ∧ members.DistinctNames
  | _ => True

def Items.DistinctNames : Items → Prop
  | .last _ t _ => t.DistinctNames
  | .more _ t _ rest => t.DistinctNames ∧ rest.DistinctNames

def Members.DistinctNames : Members → Prop
  | .last _ _ t _ => t.DistinctNames
  | .more _ _ t _ rest => t.DistinctNames ∧ rest.DistinctNames

end

theorem names_of_show : ∀ {members : Members} {fields : List (String × Json)},
    members.Show fields → members.names = fields.map fun field => some field.1.toList
  | _, _, .last hk _ => by
    rw [Members.names, hk]
    rfl
  | _, _, .more hk _ hs => by
    rw [Members.names, hk, names_of_show hs]
    rfl

theorem names_nodup_of_show {members : Members} {fields : List (String × Json)}
    (h : members.Show fields) (distinct : (Fields.keys fields).Nodup) : members.names.Nodup := by
  have hnames : members.names = (Fields.keys fields).map fun key => some key.toList := by
    rw [names_of_show h, Fields.keys, List.map_map]
    rfl
  have hinjective : Function.Injective fun key : String => some key.toList := by
    intro key other hkey
    exact String.toList_inj.mp (Option.some.inj hkey)
  rw [hnames]
  exact List.Nodup.map hinjective distinct

mutual

theorem distinctNames_of_shows : ∀ {t : Tree} {v : Json}, t.Shows v → v.DistinctKeys →
    t.DistinctNames
  | _, _, .null, _ | _, _, .bool _, _ | _, _, .number _, _ | _, _, .string _, _
  | _, _, .emptyArray _, _ | _, _, .emptyObject _, _ => trivial
  | _, _, .array h, distinct => distinctNames_of_itemsShow h distinct
  | _, _, .object h, distinct =>
    ⟨names_nodup_of_show h distinct.1, distinctNames_of_membersShow h distinct.2⟩

theorem distinctNames_of_itemsShow : ∀ {items : Items} {values : List Json}, items.Show values →
    ItemsDistinct values → items.DistinctNames
  | _, _, .last h, distinct => distinctNames_of_shows h distinct.1
  | _, _, .more h hs, distinct =>
    ⟨distinctNames_of_shows h distinct.1, distinctNames_of_itemsShow hs distinct.2⟩

theorem distinctNames_of_membersShow : ∀ {members : Members} {fields : List (String × Json)},
    members.Show fields → MembersDistinct fields → members.DistinctNames
  | _, _, .last _ h, distinct => distinctNames_of_shows h distinct.1
  | _, _, .more _ h hs, distinct =>
    ⟨distinctNames_of_shows h distinct.1, distinctNames_of_membersShow hs distinct.2⟩

end

mutual

/-- The compact text of a value is spelled by a tree that shows the value. -/
theorem exists_tree_shows : ∀ v : Json,
    ∃ t : Tree, t.chars = v.chars ∧ t.depth = v.depth ∧ t.Shows v
  | .null => ⟨.null, rfl, rfl, .null⟩
  | .bool true => ⟨.bool true, rfl, rfl, .bool true⟩
  | .bool false => ⟨.bool false, rfl, rfl, .bool false⟩
  | .number m => by
    obtain ⟨n, hn⟩ := exists_numeralText_of_number m
    exact ⟨.number n, hn, rfl, .number hn⟩
  | .string s => by
    obtain ⟨pieces, hpieces, hmeaning⟩ := exists_pieces_of_text (textSpelled_escaped s.toList)
    exact ⟨.string pieces, by rw [Tree.chars, hpieces, chars, quoted], rfl, .string hmeaning⟩
  | .array [] => ⟨.emptyArray .none, rfl, rfl, .emptyArray .none⟩
  | .array (item :: items) => by
    obtain ⟨its, hits, hdepth, hshow⟩ := exists_items_show (item :: items) (by simp)
    refine ⟨.array its, ?_, ?_, .array hshow⟩
    · rw [Tree.chars, chars, ← (List.cons.inj hits).2]
    · rw [Tree.depth, depth, hdepth]
  | .object [] => ⟨.emptyObject .none, rfl, rfl, .emptyObject .none⟩
  | .object ((key, value) :: fields) => by
    obtain ⟨members, hmembers, hdepth, hshow⟩ := exists_members_show ((key, value) :: fields) (by simp)
    refine ⟨.object members, ?_, ?_, .object hshow⟩
    · rw [Tree.chars, chars, ← (List.cons.inj hmembers).2]
    · rw [Tree.depth, depth, hdepth]

theorem exists_items_show : ∀ items : List Json, items ≠ [] → ∃ its : Items,
    moreItems items = ',' :: its.chars ∧ its.depth = itemsDepth items ∧ its.Show items
  | [], hne => absurd rfl hne
  | [item], _ => by
    obtain ⟨t, hchars, hdepth, hshows⟩ := exists_tree_shows item
    refine ⟨.last .none t .none, ?_, ?_, .last hshows⟩
    · simp [Items.chars, hchars, moreItems, Blanks.none]
    · simp [Items.depth, hdepth, itemsDepth]
  | item :: next :: items, _ => by
    obtain ⟨t, hchars, hdepth, hshows⟩ := exists_tree_shows item
    obtain ⟨its, hits, hrest, hshow⟩ := exists_items_show (next :: items) (by simp)
    refine ⟨.more .none t .none its, ?_, ?_, .more hshows hshow⟩
    · rw [moreItems, hits]
      simp [Items.chars, hchars, Blanks.none]
    · simp only [Items.depth, hdepth, hrest, itemsDepth]

theorem exists_members_show : ∀ fields : List (String × Json), fields ≠ [] → ∃ ms : Members,
    moreMembers fields = ',' :: ms.chars ∧ ms.depth = membersDepth fields ∧ ms.Show fields
  | [], hne => absurd rfl hne
  | [(key, value)], _ => by
    obtain ⟨name, hname, hmeaning⟩ := exists_name_of_key (keySpelled_quoted key)
    obtain ⟨t, hchars, hdepth, hshows⟩ := exists_tree_shows value
    refine ⟨.last name .none t .none, ?_, ?_, .last hmeaning hshows⟩
    · simp [Members.chars, hname, hchars, moreMembers, Blanks.none]
    · simp [Members.depth, hdepth, membersDepth]
  | (key, value) :: next :: fields, _ => by
    obtain ⟨name, hname, hmeaning⟩ := exists_name_of_key (keySpelled_quoted key)
    obtain ⟨t, hchars, hdepth, hshows⟩ := exists_tree_shows value
    obtain ⟨ms, hms, hrest, hshow⟩ := exists_members_show (next :: fields) (by simp)
    refine ⟨.more name .none t .none ms, ?_, ?_, .more hmeaning hshows hshow⟩
    · rw [moreMembers, hms]
      simp [Members.chars, hname, hchars, Blanks.none]
    · simp only [Members.depth, hdepth, hrest, membersDepth]

end

theorem Document.text_of_chars {t : Tree} {v : Json} (h : t.chars = v.chars) :
    Document.text ⟨.none, t, .none⟩ = v.text := by
  simp [Document.text, Document.chars, Blanks.none, h, Json.text]

theorem exists_document_shows (v : Json) :
    ∃ d : Document, d.text = v.text ∧ d.tree.depth = v.depth ∧ d.tree.Shows v := by
  obtain ⟨t, hchars, hdepth, hshows⟩ := exists_tree_shows v
  exact ⟨⟨.none, t, .none⟩, Document.text_of_chars hchars, hdepth, hshows⟩

end Json

end MetricUpload
