import MetricUpload.Json.Reader

namespace MetricUpload

namespace Json

structure Blanks where
  chars : List Char
  blank : ∀ c ∈ chars, isBlank c = true

def Blanks.none : Blanks := ⟨[], by simp⟩

inductive ShortEscape where
  | quote
  | backslash
  | slash
  | backspace
  | formFeed
  | lineFeed
  | carriageReturn
  | tab

namespace ShortEscape

def mark : ShortEscape → Char
  | .quote => '"'
  | .backslash => '\\'
  | .slash => '/'
  | .backspace => 'b'
  | .formFeed => 'f'
  | .lineFeed => 'n'
  | .carriageReturn => 'r'
  | .tab => 't'

def meaning : ShortEscape → Char
  | .quote => '"'
  | .backslash => '\\'
  | .slash => '/'
  | .backspace => '\x08'
  | .formFeed => '\x0c'
  | .lineFeed => '\n'
  | .carriageReturn => '\r'
  | .tab => '\t'

end ShortEscape

structure HexDigit where
  value : Fin 16
  upper : Bool

def HexDigit.char (d : HexDigit) : Char :=
  if d.upper then (Nat.digitChar d.value).toUpper else Nat.digitChar d.value

/-- A part of a string as it is spelled between the quotes: a character that stands for itself, a
short escape, or the escape of one UTF-16 unit. -/
inductive Piece where
  | plain (c : Char) (h : c ≠ '"' ∧ c ≠ '\\' ∧ 0x20 ≤ c.toNat)
  | short (e : ShortEscape)
  | unit (first second third fourth : HexDigit)

namespace Piece

def chars : Piece → List Char
  | .plain c _ => [c]
  | .short e => ['\\', e.mark]
  | .unit a b c d => ['\\', 'u', a.char, b.char, c.char, d.char]

def unitValue (a b c d : HexDigit) : Nat :=
  ((a.value * 16 + b.value) * 16 + c.value) * 16 + d.value

end Piece

/-- What the pieces of a string mean. Units of a surrogate pair count only together; a surrogate on
its own has no meaning. -/
def meaning? : List Piece → Option (List Char)
  | [] => some []
  | .plain c _ :: ps => (meaning? ps).map (c :: ·)
  | .short e :: ps => (meaning? ps).map (e.meaning :: ·)
  | .unit a b c d :: ps =>
    let unit := Piece.unitValue a b c d
    if isLowSurrogate unit then none
    else if isHighSurrogate unit then
      match ps with
      | .unit a b c d :: ps =>
        let low := Piece.unitValue a b c d
        if isLowSurrogate low then
          (meaning? ps).map
            (Char.ofNat (0x10000 + (unit - 0xD800) * 0x400 + (low - 0xDC00)) :: ·)
        else none
      | _ => none
    else (meaning? ps).map (Char.ofNat unit :: ·)

theorem meaning?_unit {a b c d : HexDigit} (hl : isLowSurrogate (Piece.unitValue a b c d) = false)
    (hh : isHighSurrogate (Piece.unitValue a b c d) = false) (ps : List Piece) :
    meaning? (.unit a b c d :: ps) =
      (meaning? ps).map (Char.ofNat (Piece.unitValue a b c d) :: ·) := by
  rw [meaning?.eq_def]
  simp only [hl, hh, Bool.false_eq_true, ↓reduceIte]

/-- The text of a string, its closing quote included. -/
def pieceChars (ps : List Piece) : List Char := ps.flatMap Piece.chars ++ ['"']

structure DigitRun where
  first : Char
  more : List Char
  digits : ∀ c ∈ first :: more, c.isDigit = true

def DigitRun.chars (r : DigitRun) : List Char := r.first :: r.more

/-- A power of ten as it is written: `down` tells a minus sign from a plus sign. -/
structure ExponentPart where
  upper : Bool
  down : Option Bool
  run : DigitRun

namespace ExponentPart

def mark (e : ExponentPart) : Char := if e.upper then 'E' else 'e'

def signChars (e : ExponentPart) : List Char :=
  match e.down with
  | none => []
  | some true => ['-']
  | some false => ['+']

def chars (e : ExponentPart) : List Char := e.mark :: (e.signChars ++ e.run.chars)

end ExponentPart

/-- A numeral as it is written: no zero stands in front of other digits. -/
structure NumeralText where
  negative : Bool
  whole : DigitRun
  noLeadingZero : whole.first = '0' → whole.more = []
  fraction : Option DigitRun
  exponent : Option ExponentPart

namespace NumeralText

def fractionChars (n : NumeralText) : List Char :=
  match n.fraction with
  | none => []
  | some run => '.' :: run.chars

def exponentChars (n : NumeralText) : List Char :=
  match n.exponent with
  | none => []
  | some e => e.chars

def magnitudeChars (n : NumeralText) : List Char :=
  n.whole.chars ++ (n.fractionChars ++ n.exponentChars)

def chars (n : NumeralText) : List Char :=
  if n.negative then '-' :: n.magnitudeChars else n.magnitudeChars

end NumeralText

/-- A string that names a member, with the blanks on both sides of it. -/
structure Name where
  before : Blanks
  pieces : List Piece
  after : Blanks

def Name.chars (n : Name) : List Char :=
  n.before.chars ++ '"' :: (pieceChars n.pieces ++ n.after.chars)

/-- The characters of a text that may stand for themselves. -/
def literalPieces (s : String) : List Piece :=
  s.toList.filterMap fun c =>
    if h : c ≠ '"' ∧ c ≠ '\\' ∧ 0x20 ≤ c.toNat then some (.plain c h) else none

/-- A name that is spelled without escapes and blanks. -/
def literalName (s : String) : Name := ⟨.none, literalPieces s, .none⟩

mutual

/-- A JSON value as it is written, every blank and every escape of it. -/
inductive Tree where
  | null
  | bool (b : Bool)
  | number (n : NumeralText)
  | string (pieces : List Piece)
  | emptyArray (inner : Blanks)
  | array (items : Items)
  | emptyObject (inner : Blanks)
  | object (members : Members)

inductive Items where
  | last (before : Blanks) (item : Tree) (after : Blanks)
  | more (before : Blanks) (item : Tree) (after : Blanks) (rest : Items)

inductive Members where
  | last (name : Name) (before : Blanks) (value : Tree) (after : Blanks)
  | more (name : Name) (before : Blanks) (value : Tree) (after : Blanks) (rest : Members)

end

mutual

def Tree.chars : Tree → List Char
  | .null => ['n', 'u', 'l', 'l']
  | .bool true => ['t', 'r', 'u', 'e']
  | .bool false => ['f', 'a', 'l', 's', 'e']
  | .number n => n.chars
  | .string pieces => '"' :: pieceChars pieces
  | .emptyArray inner => '[' :: (inner.chars ++ [']'])
  | .array items => '[' :: items.chars
  | .emptyObject inner => '{' :: (inner.chars ++ ['}'])
  | .object members => '{' :: members.chars

def Items.chars : Items → List Char
  | .last before item after => before.chars ++ (item.chars ++ (after.chars ++ [']']))
  | .more before item after rest =>
    before.chars ++ (item.chars ++ (after.chars ++ ',' :: rest.chars))

def Members.chars : Members → List Char
  | .last name before value after =>
    name.chars ++ ':' :: (before.chars ++ (value.chars ++ (after.chars ++ ['}'])))
  | .more name before value after rest =>
    name.chars ++ ':' :: (before.chars ++ (value.chars ++ (after.chars ++ ',' :: rest.chars)))

end

mutual

def Tree.depth : Tree → Nat
  | .emptyArray _ | .emptyObject _ => 1
  | .array items => items.depth + 1
  | .object members => members.depth + 1
  | _ => 0

def Items.depth : Items → Nat
  | .last _ item _ => item.depth
  | .more _ item _ rest => Nat.max item.depth rest.depth

def Members.depth : Members → Nat
  | .last _ _ value _ => value.depth
  | .more _ _ value _ rest => Nat.max value.depth rest.depth

end

theorem Items.depth_more_le {before after : Blanks} {item : Tree} {rest : Items} {k : Nat} :
    (Items.more before item after rest).depth ≤ k ↔ item.depth ≤ k ∧ rest.depth ≤ k :=
  Nat.max_le

theorem Members.depth_more_le {name : Name} {before after : Blanks} {value : Tree} {rest : Members}
    {k : Nat} : (Members.more name before value after rest).depth ≤ k ↔
      value.depth ≤ k ∧ rest.depth ≤ k :=
  Nat.max_le

end Json

namespace Numeral

def read (n : Numeral) : List Char → Except Json.Cause Numeral
  | [] => .ok n
  | c :: cs =>
    match n.next c with
    | .more n => n.read cs
    | .over => .error .invalidNumber
    | .wrong cause => .error cause

end Numeral

namespace Fields

/-- Puts members one after the other, so that a repeated key keeps its first place and takes its last
value. -/
def putAll {α : Type} (fields : Fields α) (members : List (String × α)) : Fields α :=
  members.foldl (fun fields (key, value) => put key value fields) fields

end Fields

namespace Json

/-- The number that the reader takes a numeral for. Where it is no integer of 64 bits, it is converted
in steps, each rounded on its own: the digits that fit 64 bits, the power of ten, and their product or
quotient. There is none if a step leaves the range of the doubles, or the written exponent its 31 bits.
This may happen below the greatest double, and may not happen above it. -/
def NumeralText.number? (n : NumeralText) : Option Number :=
  match Numeral.read .sign n.magnitudeChars with
  | .ok m => (m.value n.negative).toOption
  | .error _ => none

/-- The reader's conversion leads to some number. -/
def NumeralText.Convertible (n : NumeralText) : Prop := ∃ m, n.number? = some m

mutual

/-- The value that is written, unless a surrogate stands alone in it or a numeral is one that the reader
cannot convert. -/
def Tree.value? : Tree → Option Json
  | .null => some .null
  | .bool b => some (.bool b)
  | .number n => n.number?.map .number
  | .string pieces => (meaning? pieces).map fun text => .string (String.ofList text)
  | .emptyArray _ => some (.array [])
  | .array items => items.values?.map .array
  | .emptyObject _ => some (.object [])
  | .object members => members.values?.map fun members => .object (Fields.putAll [] members)

def Items.values? : Items → Option (List Json)
  | .last _ item _ => item.value?.map fun v => [v]
  | .more _ item _ rest =>
    match item.value?, rest.values? with
    | some v, some vs => some (v :: vs)
    | _, _ => none

def Members.values? : Members → Option (List (String × Json))
  | .last name _ value _ =>
    match meaning? name.pieces, value.value? with
    | some key, some v => some [(String.ofList key, v)]
    | _, _ => none
  | .more name _ value _ rest =>
    match meaning? name.pieces, value.value?, rest.values? with
    | some key, some v, some vs => some ((String.ofList key, v) :: vs)
    | _, _, _ => none

end

structure Document where
  before : Blanks
  tree : Tree
  after : Blanks

namespace Document

def chars (d : Document) : List Char := d.before.chars ++ (d.tree.chars ++ d.after.chars)

def text (d : Document) : String := String.ofList d.chars

end Document

end Json

end MetricUpload
