import MetricUpload.Decimal
import MetricUpload.Json.Reader

namespace MetricUpload

/-- A value in a reply. Strings and keys are kept as they are written, and repeated keys stay. -/
inductive Reply.Value where
  | null
  | bool (b : Bool)
  | number (d : Decimal)
  | string (raw : List Char)
  | array (items : List Reply.Value)
  | object (members : List (List Char × Reply.Value))

namespace Reply

namespace Value

mutual

/-- How many containers are open at once, at most. -/
def depth : Value → Nat
  | .array items => depthOfItems items + 1
  | .object members => depthOfMembers members + 1
  | _ => 0

def depthOfItems : List Value → Nat
  | [] => 0
  | v :: items => Nat.max v.depth (depthOfItems items)

def depthOfMembers : List (List Char × Value) → Nat
  | [] => 0
  | (_, v) :: members => Nat.max v.depth (depthOfMembers members)

end

end Value

def skipBlanks (cs : List Char) : List Char := cs.dropWhile Json.isBlank

/-- What stands before the closing quote, and what follows it. A backslash shields the character
behind it, whatever that is. -/
def rawString? : List Char → Option (List Char × List Char)
  | [] => none
  | '"' :: cs => some ([], cs)
  | '\\' :: c :: cs => (rawString? cs).map fun (raw, rest) => ('\\' :: c :: raw, rest)
  | c :: cs =>
    if c.toNat < 0x20 then none
    else (rawString? cs).map fun (raw, rest) => (c :: raw, rest)

def isNumeralChar (c : Char) : Bool :=
  c.isDigit || c == '+' || c == '-' || c == '.' || c == 'e' || c == 'E'

/-- A numeral begins with a digit or a minus sign and is taken as long as its characters last. -/
def number? (cs : List Char) : Option (Value × List Char) :=
  match cs with
  | [] => none
  | c :: _ =>
    if c == '-' || c.isDigit then
      (Decimal.ofChars? (cs.takeWhile isNumeralChar)).map fun d =>
        (.number d, cs.dropWhile isNumeralChar)
    else none

mutual

/-- A value behind blanks, and what follows it. -/
def value? : Nat → List Char → Option (Value × List Char)
  | 0, _ => none
  | fuel + 1, cs =>
    match skipBlanks cs with
    | 'n' :: 'u' :: 'l' :: 'l' :: rest => some (.null, rest)
    | 't' :: 'r' :: 'u' :: 'e' :: rest => some (.bool true, rest)
    | 'f' :: 'a' :: 'l' :: 's' :: 'e' :: rest => some (.bool false, rest)
    | '"' :: rest => (rawString? rest).map fun (raw, rest) => (.string raw, rest)
    | '[' :: rest =>
      match skipBlanks rest with
      | ']' :: rest => some (.array [], rest)
      | _ => (items? fuel rest).map fun (items, rest) => (.array items, rest)
    | '{' :: rest =>
      match skipBlanks rest with
      | '}' :: rest => some (.object [], rest)
      | _ => (members? fuel rest).map fun (members, rest) => (.object members, rest)
    | rest => number? rest

/-- One item or more, up to the closing bracket. -/
def items? : Nat → List Char → Option (List Value × List Char)
  | 0, _ => none
  | fuel + 1, cs => do
    let (v, rest) ← value? fuel cs
    match skipBlanks rest with
    | ']' :: rest => some ([v], rest)
    | ',' :: rest =>
      let (items, rest) ← items? fuel rest
      some (v :: items, rest)
    | _ => none

/-- One member or more, up to the closing brace. -/
def members? : Nat → List Char → Option (List (List Char × Value) × List Char)
  | 0, _ => none
  | fuel + 1, cs =>
    match skipBlanks cs with
    | '"' :: rest => do
      let (key, rest) ← rawString? rest
      match skipBlanks rest with
      | ':' :: rest =>
        let (v, rest) ← value? fuel rest
        match skipBlanks rest with
        | '}' :: rest => some ([(key, v)], rest)
        | ',' :: rest =>
          let (members, rest) ← members? fuel rest
          some ((key, v) :: members, rest)
        | _ => none
      | _ => none
    | _ => none

end

/-- The value that a whole text is. A level takes two units of fuel and at least one character, a
neighbour takes one and at least two characters. -/
def Value.ofChars? (cs : List Char) : Option Value := do
  let (v, rest) ← value? (2 * cs.length + 2) cs
  if (skipBlanks rest).isEmpty then some v else none

end Reply

end MetricUpload
