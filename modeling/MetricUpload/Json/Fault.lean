namespace MetricUpload

namespace Json

/-- Why a text is not a JSON document. -/
inductive Cause where
  | endInValue
  | endInList
  | endInObject
  | endInString
  | expectedValue
  | expectedLiteral
  | expectedColon
  | expectedListEnd
  | expectedObjectEnd
  | trailingComma
  | trailingCharacters
  | keyNotString
  | controlCharacter
  | invalidEscape
  | loneSurrogate
  | brokenSurrogatePair
  | invalidNumber
  | numberOutOfRange
  | nestingTooDeep
  deriving DecidableEq

namespace Cause

def message : Cause → String
  | .endInValue => "EOF while parsing a value"
  | .endInList => "EOF while parsing a list"
  | .endInObject => "EOF while parsing an object"
  | .endInString => "EOF while parsing a string"
  | .expectedValue => "expected value"
  | .expectedLiteral => "expected ident"
  | .expectedColon => "expected `:`"
  | .expectedListEnd => "expected `,` or `]`"
  | .expectedObjectEnd => "expected `,` or `\x7d`"
  | .trailingComma => "trailing comma"
  | .trailingCharacters => "trailing characters"
  | .keyNotString => "key must be a string"
  | .controlCharacter => "control character (\\u0000-\\u001F) found while parsing a string"
  | .invalidEscape => "invalid escape"
  | .loneSurrogate => "lone leading surrogate in hex escape"
  | .brokenSurrogatePair => "unexpected end of hex escape"
  | .invalidNumber => "invalid number"
  | .numberOutOfRange => "number out of range"
  | .nestingTooDeep => "recursion limit exceeded"

end Cause

/-- A cause and the number of bytes up to and including the one at fault. -/
structure Stop where
  cause : Cause
  offset : Nat
  deriving DecidableEq

/-- A cause and where it arose: the line from 1, the bytes before it on that line. -/
structure Fault where
  cause : Cause
  line : Nat
  column : Nat
  deriving DecidableEq

namespace Fault

def lineBreak : UInt8 := 10

/-- Line and column after these bytes. -/
def position (bytes : List UInt8) : Nat × Nat :=
  (bytes.count lineBreak + 1, (bytes.reverse.takeWhile (· != lineBreak)).length)

def ofStop (text : String) (stop : Stop) : Fault :=
  let (line, column) := position (text.toUTF8.data.toList.take stop.offset)
  ⟨stop.cause, line, column⟩

def message (f : Fault) : String :=
  f.cause.message ++ " at line " ++ toString f.line ++ " column " ++ toString f.column

end Fault

end Json

end MetricUpload
