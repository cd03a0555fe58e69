import MetricUpload.Proofs.Json.Unquoting
import MetricUpload.Proofs.Reply.Reading

namespace MetricUpload

namespace Json

mutual

/-- A JSON value as it stands in a reply: the text of a string is kept as it is written. -/
def Tree.inReply : Tree → Reply.Value
  | .null => .null
  | .bool b => .bool b
  | .number n => .number n.decimal
  | .string pieces => .string (pieces.flatMap Piece.chars)
  | .emptyArray _ => .array []
  | .array items => .array items.inReply
  | .emptyObject _ => .object []
  | .object members => .object members.inReply

def Items.inReply : Items → List Reply.Value
  | .last _ item _ => [item.inReply]
  | .more _ item _ rest => item.inReply :: rest.inReply

def Members.inReply : Members → List (List Char × Reply.Value)
  | .last name _ value _ => [(name.pieces.flatMap Piece.chars, value.inReply)]
  | .more name _ value _ rest => (name.pieces.flatMap Piece.chars, value.inReply) :: rest.inReply

end

/-- The members of an object under the keys that they mean. -/
def Members.named? : Members → Option (List (String × Tree))
  | .last name _ value _ => (meaning? name.pieces).map fun key => [(String.ofList key, value)]
  | .more name _ value _ rest =>
    match meaning? name.pieces, rest.named? with
    | some key, some members => some ((String.ofList key, value) :: members)
    | _, _ => none

def Tree.members? : Tree → Option (List (String × Tree))
  | .emptyObject _ => some []
  | .object members => members.named?
  | _ => none

end Json

namespace Reply

open Json (Tree Items Members)

theorem hexDigit_plain (d : Json.HexDigit) :
    d.char ≠ '"' ∧ d.char ≠ '\\' ∧ 0x20 ≤ d.char.toNat := by
  obtain ⟨value, upper⟩ := d
  revert value upper
  decide

theorem rawText_pieces (pieces : List Json.Piece) :
    RawText (pieces.flatMap Json.Piece.chars) := by
  induction pieces with
  | nil => exact .nil
  | cons piece pieces ih =>
    rw [List.flatMap_cons]
    cases piece with
    | plain c h => exact .plain h ih
    | short e => exact .shielded _ ih
    | unit a b c d =>
      exact .shielded 'u' (.plain (hexDigit_plain a) (.plain (hexDigit_plain b)
        (.plain (hexDigit_plain c) (.plain (hexDigit_plain d) ih))))

theorem keyWritten_name (name : Json.Name) :
    KeyWritten (name.pieces.flatMap Json.Piece.chars) name.chars := by
  refine ⟨rawText_pieces name.pieces, name.before, name.after, ?_⟩
  simp [Json.Name.chars, Json.pieceChars]

mutual

/-- Every JSON text is a text of the wider notation. -/
theorem written_tree : ∀ t : Tree, Written t.inReply t.chars
  | .null => .null
  | .bool true => .isTrue
  | .bool false => .isFalse
  | .number n => by
    rw [Tree.chars, ← n.chars_spelling]
    exact .number n.spelling
  | .string pieces => .string (rawText_pieces pieces)
  | .emptyArray inner => .emptyArray inner
  | .array items => by
    obtain ⟨inside, hchars, hwritten⟩ := written_items items
    rw [Tree.chars, hchars]
    exact .array hwritten
  | .emptyObject inner => .emptyObject inner
  | .object members => by
    obtain ⟨inside, hchars, hwritten⟩ := written_members members
    rw [Tree.chars, hchars]
    exact .object hwritten

theorem written_items : ∀ items : Items,
    ∃ inside, items.chars = inside ++ [']'] ∧ ItemsWritten items.inReply inside
  | .last before item after =>
    ⟨_, by simp [Items.chars], .last before after (written_tree item)⟩
  | .more before item after rest => by
    obtain ⟨inside, hchars, hwritten⟩ := written_items rest
    exact ⟨_, by simp [Items.chars, hchars], .more before after (written_tree item) hwritten⟩

theorem written_members : ∀ members : Members,
    ∃ inside, members.chars = inside ++ ['}'] ∧ MembersWritten members.inReply inside
  | .last name before value after =>
    ⟨_, by simp [Members.chars],
      .last before after (keyWritten_name name) (written_tree value)⟩
  | .more name before value after rest => by
    obtain ⟨inside, hchars, hwritten⟩ := written_members rest
    exact ⟨_, by simp [Members.chars, hchars],
      .more before after (keyWritten_name name) (written_tree value) hwritten⟩

end

mutual

theorem depth_inReply : ∀ t : Tree, t.inReply.depth = t.depth
  | .null | .bool _ | .number _ | .string _ | .emptyArray _ | .emptyObject _ => rfl
  | .array items => by simp only [Tree.inReply, Value.depth, Tree.depth, depth_inReply_items items]
  | .object members => by
    simp only [Tree.inReply, Value.depth, Tree.depth, depth_inReply_members members]

theorem depth_inReply_items : ∀ items : Items, Value.depthOfItems items.inReply = items.depth
  | .last _ item _ => by
    simp only [Items.inReply, Value.depthOfItems, Items.depth, depth_inReply item, Nat.max_zero]
  | .more _ item _ rest => by
    simp only [Items.inReply, Value.depthOfItems, Items.depth, depth_inReply item,
      depth_inReply_items rest]

theorem depth_inReply_members : ∀ members : Members,
    Value.depthOfMembers members.inReply = members.depth
  | .last _ _ value _ => by
    simp only [Members.inReply, Value.depthOfMembers, Members.depth, depth_inReply value,
      Nat.max_zero]
  | .more _ _ value _ rest => by
    simp only [Members.inReply, Value.depthOfMembers, Members.depth, depth_inReply value,
      depth_inReply_members rest]

end

/-- A document is read as its value, with the blanks around it left out. -/
theorem ofChars?_document (d : Json.Document) :
    Value.ofChars? d.text.toList = some d.tree.inReply := by
  rw [Json.Document.text, String.toList_ofList]
  exact ofChars?_eq_some_iff.mpr ⟨d.before, d.tree.chars, d.after, rfl, written_tree d.tree⟩

theorem text_ne_empty (d : Json.Document) : d.text ≠ "" := by
  intro hempty
  have hchars : d.chars = [] := by
    rw [← String.toList_ofList (l := d.chars), ← Json.Document.text, hempty]
    rfl
  have htree := (List.append_eq_nil_iff.mp (List.append_eq_nil_iff.mp hchars).2).1
  have hpos := (written_tree d.tree).length_pos
  rw [htree] at hpos
  exact Nat.lt_irrefl 0 hpos

/-- Members as a reply holds them, and as they are meant. -/
inductive Named : List (List Char × Value) → List (String × Tree) → Prop
  | nil : Named [] []
  | cons {raw : List Char} {key : String} {t : Tree} {raws : List (List Char × Value)}
      {members : List (String × Tree)} (h : Json.unquoted? raw = some key)
      (more : Named raws members) : Named ((raw, t.inReply) :: raws) ((key, t) :: members)

theorem named_members : ∀ {members : Members} {named : List (String × Tree)},
    members.named? = some named → Named members.inReply named
  | .last name _ value _, _, h => by
    obtain ⟨key, hkey, rfl⟩ := Option.map_eq_some_iff.mp h
    exact .cons (Json.unquoted?_pieces hkey) .nil
  | .more name _ value _ rest, _, h => by
    simp only [Members.named?] at h
    split at h
    next key members hkey hrest =>
      cases h
      exact .cons (Json.unquoted?_pieces hkey) (named_members hrest)
    next => cases h

theorem exists_named {t : Tree} {members : List (String × Tree)} (h : t.members? = some members) :
    ∃ raws, t.inReply = .object raws ∧ Named raws members := by
  cases t with
  | emptyObject inner =>
    cases h
    exact ⟨[], rfl, .nil⟩
  | object ms => exact ⟨ms.inReply, rfl, named_members h⟩
  | _ => cases h

end Reply

end MetricUpload
