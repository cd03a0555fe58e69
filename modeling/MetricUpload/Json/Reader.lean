import MetricUpload.Json.Numeral

namespace MetricUpload

namespace Json

/-- A container around the value being read: the items before it, last first, or the members before
it and its own key. -/
inductive Frame where
  | item (before : List Json)
  | member (before : List (String × Json)) (key : String)

/-- What a string being read will be: a value, or the key after these members. -/
inductive Role where
  | value
  | key (before : List (String × Json))

/-- Where a reader stands between two tokens. -/
inductive Place where
  | value
  | firstItem
  | afterItem (items : List Json)
  | nextItem (items : List Json)
  | firstKey
  | afterMember (members : List (String × Json))
  | nextKey (members : List (String × Json))
  | colon (members : List (String × Json)) (key : String)
  | finished (v : Json)

/-- Where a reader stands inside a string. A `high` is the first half of a surrogate pair, of which
the second must follow. -/
inductive Quote where
  | plain
  | escape
  | hex (high : Option Nat) (count : Nat) (unit : Nat)
  | lowEscape (high : Nat)
  | lowMark (high : Nat)

/-- A place inside the open containers, innermost first. -/
structure Spot where
  frames : List Frame
  place : Place

/-- A reader between two characters. The text of a string is held last character first. -/
inductive State where
  | between (spot : Spot)
  | literal (frames : List Frame) (next : Char) (rest : List Char) (v : Json)
  | string (frames : List Frame) (role : Role) (text : List Char) (quote : Quote)
  | numeral (frames : List Frame) (negative : Bool) (n : Numeral)

/-- A character that is refused, and how many bytes behind its start the place to report lies. -/
structure Refusal where
  cause : Cause
  reach : Nat

def isBlank (c : Char) : Bool := c == ' ' || c == '\n' || c == '\t' || c == '\r'

/-- Most refusals are reported behind the first byte of the character. -/
def refuse {α : Type} (cause : Cause) : Except Refusal α := .error ⟨cause, 1⟩

/-- Hands a finished value to the innermost container. A repeated key keeps its first place and takes
the new value. -/
def deliver (v : Json) : List Frame → Spot
  | [] => ⟨[], .finished v⟩
  | .item before :: frames => ⟨frames, .afterItem (v :: before)⟩
  | .member before key :: frames => ⟨frames, .afterMember (Fields.put key v before)⟩

/-- So many containers may be open at once. -/
def nestingLimit : Nat := 127

/-- Opens a container inside these. -/
def opened (frames : List Frame) (place : Place) : Except Refusal State :=
  if nestingLimit ≤ frames.length then refuse .nestingTooDeep else .ok (.between ⟨frames, place⟩)

/-- The first character of a value inside these containers. -/
def begin (frames : List Frame) (c : Char) : Except Refusal State :=
  match c with
  | 'n' => .ok (.literal frames 'u' ['l', 'l'] .null)
  | 't' => .ok (.literal frames 'r' ['u', 'e'] (.bool true))
  | 'f' => .ok (.literal frames 'a' ['l', 's', 'e'] (.bool false))
  | '"' => .ok (.string frames .value [] .plain)
  | '-' => .ok (.numeral frames true .sign)
  | '[' => opened frames .firstItem
  | '{' => opened frames .firstKey
  | c =>
    match Numeral.sign.next c with
    | .more n => .ok (.numeral frames false n)
    | _ => refuse .expectedValue

/-- A character between tokens that is not blank. -/
def atSpot (spot : Spot) (c : Char) : Except Refusal State :=
  let frames := spot.frames
  match spot.place with
  | .value => begin frames c
  | .firstItem =>
    if c == ']' then .ok (.between (deliver (.array []) frames))
    else begin (.item [] :: frames) c
  | .afterItem items =>
    if c == ']' then .ok (.between (deliver (.array items.reverse) frames))
    else if c == ',' then .ok (.between ⟨frames, .nextItem items⟩)
    else refuse .expectedListEnd
  | .nextItem items =>
    if c == ']' then refuse .trailingComma else begin (.item items :: frames) c
  | .firstKey =>
    if c == '}' then .ok (.between (deliver (.object []) frames))
    else if c == '"' then .ok (.string frames (.key []) [] .plain)
    else refuse .keyNotString
  | .afterMember members =>
    if c == '}' then .ok (.between (deliver (.object members) frames))
    else if c == ',' then .ok (.between ⟨frames, .nextKey members⟩)
    else refuse .expectedObjectEnd
  | .nextKey members =>
    if c == '}' then refuse .trailingComma
    else if c == '"' then .ok (.string frames (.key members) [] .plain)
    else refuse .keyNotString
  | .colon members key =>
    if c == ':' then .ok (.between ⟨.member members key :: frames, .value⟩)
    else refuse .expectedColon
  | .finished _ => refuse .trailingCharacters

def between (spot : Spot) (c : Char) : Except Refusal State :=
  if isBlank c then .ok (.between spot) else atSpot spot c

/-- The closing quote. -/
def endString (frames : List Frame) (text : List Char) : Role → Spot
  | .value => deliver (.string (String.ofList text.reverse)) frames
  | .key members => ⟨frames, .colon members (String.ofList text.reverse)⟩

def shortEscape? (c : Char) : Option Char :=
  match c with
  | '"' => some '"'
  | '\\' => some '\\'
  | '/' => some '/'
  | 'b' => some '\x08'
  | 'f' => some '\x0c'
  | 'n' => some '\n'
  | 'r' => some '\r'
  | 't' => some '\t'
  | _ => none

def hexDigit? (c : Char) : Option Nat :=
  if '0' ≤ c ∧ c ≤ '9' then some (c.toNat - '0'.toNat)
  else if 'a' ≤ c ∧ c ≤ 'f' then some (c.toNat - 'a'.toNat + 10)
  else if 'A' ≤ c ∧ c ≤ 'F' then some (c.toNat - 'A'.toNat + 10)
  else none

def isHighSurrogate (unit : Nat) : Bool := 0xD800 ≤ unit && unit < 0xDC00

def isLowSurrogate (unit : Nat) : Bool := 0xDC00 ≤ unit && unit < 0xE000

/-- A unit of four hexadecimal digits stands alone, opens a surrogate pair, or closes the one that
`high` opened. -/
def endUnit (high : Option Nat) (unit : Nat) (text : List Char) :
    Except Refusal (List Char × Quote) :=
  match high with
  | none =>
    if isLowSurrogate unit then refuse .loneSurrogate
    else if isHighSurrogate unit then .ok (text, .lowEscape unit)
    else .ok (Char.ofNat unit :: text, .plain)
  | some high =>
    if isLowSurrogate unit then
      .ok (Char.ofNat (0x10000 + (high - 0xD800) * 0x400 + (unit - 0xDC00)) :: text, .plain)
    else refuse .loneSurrogate

/-- A character inside a string, unless it is the closing quote. The four places of a unit are taken
together, so a wrong digit is reported at their end. -/
def inString (text : List Char) (quote : Quote) (c : Char) : Except Refusal (List Char × Quote) :=
  match quote with
  | .plain =>
    if c == '\\' then .ok (text, .escape)
    else if c.toNat < 0x20 then refuse .controlCharacter
    else .ok (c :: text, .plain)
  | .escape =>
    if c == 'u' then .ok (text, .hex none 0 0)
    else match shortEscape? c with
      | some escaped => .ok (escaped :: text, .plain)
      | none => refuse .invalidEscape
  | .hex high count unit =>
    match hexDigit? c with
    | none => .error ⟨.invalidEscape, 4 - count⟩
    | some d =>
      if count < 3 then .ok (text, .hex high (count + 1) (unit * 16 + d))
      else endUnit high (unit * 16 + d) text
  | .lowEscape high =>
    if c == '\\' then .ok (text, .lowMark high) else refuse .brokenSurrogatePair
  | .lowMark high =>
    if c == 'u' then .ok (text, .hex (some high) 0 0) else refuse .brokenSurrogatePair

def step (s : State) (c : Char) : Except Refusal State :=
  match s with
  | .between spot => between spot c
  | .literal frames next rest v =>
    if c == next then
      match rest with
      | [] => .ok (.between (deliver v frames))
      | next :: rest => .ok (.literal frames next rest v)
    else refuse .expectedLiteral
  | .string frames role text .plain =>
    if c == '"' then .ok (.between (endString frames text role))
    else (inString text .plain c).map fun (text, quote) => .string frames role text quote
  | .string frames role text quote =>
    (inString text quote c).map fun (text, quote) => .string frames role text quote
  | .numeral frames negative n =>
    match n.next c with
    | .more n => .ok (.numeral frames negative n)
    | .wrong cause => refuse cause
    | .over =>
      match n.value negative with
      | .ok amount => between (deliver (.number amount) frames) c
      | .error cause => .error ⟨cause, 0⟩

/-- Reads on from a state in which `offset` bytes have been read. -/
def run (offset : Nat) (s : State) : List Char → Except Stop State
  | [] => .ok s
  | c :: cs =>
    match step s c with
    | .ok s => run (offset + c.utf8Size) s cs
    | .error refusal => .error ⟨refusal.cause, offset + refusal.reach⟩

/-- What the end of the text means at a place. -/
def Place.atEnd : Place → Except Cause Json
  | .value | .nextItem _ | .nextKey _ => .error .endInValue
  | .firstItem | .afterItem _ => .error .endInList
  | .firstKey | .afterMember _ | .colon _ _ => .error .endInObject
  | .finished v => .ok v

def atEnd : State → Except Cause Json
  | .between spot => spot.place.atEnd
  | .literal _ _ _ _ => .error .endInValue
  | .string _ _ _ _ => .error .endInString
  | .numeral frames negative n => do
    let amount ← n.value negative
    (deliver (.number amount) frames).place.atEnd

def start : State := .between ⟨[], .value⟩

/-- The bytes of a text in UTF-8. -/
def byteCount : List Char → Nat
  | [] => 0
  | c :: cs => c.utf8Size + byteCount cs

/-- Reads a whole text. A refusal that lies beyond the end is the end inside a string: only the four
places of a unit reach past a character. -/
def scan (text : List Char) : Except Stop Json :=
  let size := byteCount text
  match run 0 start text with
  | .ok s => (atEnd s).mapError fun cause => ⟨cause, size⟩
  | .error stop => .error (if stop.offset ≤ size then stop else ⟨.endInString, size⟩)

/-- The document that a text is. -/
def read (text : String) : Except Fault Json :=
  (scan text.toList).mapError (Fault.ofStop text)

/-- The text between two quotes, its escapes resolved. -/
def unquoted? (raw : List Char) : Option String :=
  match raw.foldlM (fun (text, quote) c => inString text quote c) ([], Quote.plain) with
  | .ok (text, .plain) => some (String.ofList text.reverse)
  | _ => none

end Json

end MetricUpload
