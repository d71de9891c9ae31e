import WordWalk.Json.Basic
import WordWalk.Text.Quoted

/-! # Faults in JSON texts

A fault has a cause and a place. The place is kept as the number of bytes that come
after it, from which line and column follow once the whole text is known. Columns count
the UTF-8 bytes since the last line break.
-/

namespace WordWalk.Json

inductive Found where
  | null
  | bool (b : Bool)
  | number (n : Number)
  | text (s : String)
  | list
  | object
  deriving DecidableEq, Repr

def Found.wording : Found → String
  | null => "null"
  | bool b => "boolean `" ++ (if b then "true" else "false") ++ "`"
  | number (.integer n) => "integer `" ++ toString n ++ "`"
  | number n => "floating point `" ++ n.text ++ "`"
  | text s => "string " ++ shown s
  | list => "sequence"
  | object => "map"

def found : Json → Found
  | .null => .null
  | .bool b => .bool b
  | .number n => .number n
  | .text s => .text s
  | .list _ => .list
  | .object _ => .object

inductive Expected where
  | text
  | list
  | object
  | pair
  | route
  deriving DecidableEq, Repr

def Expected.name : Expected → String
  | text => "a string"
  | list => "a sequence"
  | object => "a map"
  | pair => "a tuple of size 2"
  | route => "struct LabeledPath"

/-- The wording of an expectation about the number of items. -/
def Expected.sized : Expected → String
  | route => "struct LabeledPath with 2 elements"
  | other => other.name

inductive Cause where
  | endInValue
  | endInObject
  | endInList
  | endInText
  | expectedValue
  | expectedIdent
  | invalidNumber
  | numberOutOfRange
  | expectedColon
  | expectedCommaOrBrace
  | expectedCommaOrBracket
  | keyNotText
  | trailingComma
  | trailingCharacters
  | controlCharacter
  | invalidEscape
  | loneSurrogate
  | unfinishedSurrogatePair
  | recursionLimit
  | wrongType (found : Found) (expected : Expected)
  | wrongLength (length : Nat) (expected : Expected)
  | missingField (name : String)
  | duplicateField (name : String)
  deriving DecidableEq, Repr

def Cause.message : Cause → String
  | endInValue => "EOF while parsing a value"
  | endInObject => "EOF while parsing an object"
  | endInList => "EOF while parsing a list"
  | endInText => "EOF while parsing a string"
  | expectedValue => "expected value"
  | expectedIdent => "expected ident"
  | invalidNumber => "invalid number"
  | numberOutOfRange => "number out of range"
  | expectedColon => "expected `:`"
  | expectedCommaOrBrace => "expected `,` or `\x7d`"
  | expectedCommaOrBracket => "expected `,` or `]`"
  | keyNotText => "key must be a string"
  | trailingComma => "trailing comma"
  | trailingCharacters => "trailing characters"
  | controlCharacter => "control character (\\u0000-\\u001F) found while parsing a string"
  | invalidEscape => "invalid escape"
  | loneSurrogate => "lone leading surrogate in hex escape"
  | unfinishedSurrogatePair => "unexpected end of hex escape"
  | recursionLimit => "recursion limit exceeded"
  | wrongType found expected =>
      "invalid type: " ++ found.wording ++ ", expected " ++ expected.name
  | wrongLength length expected =>
      "invalid length " ++ toString length ++ ", expected " ++ expected.sized
  | missingField name => "missing field `" ++ name ++ "`"
  | duplicateField name => "duplicate field `" ++ name ++ "`"

def byteCount (cs : List Char) : Nat := cs.foldr (fun c n => c.utf8Size + n) 0

/-- A cause at a place in the text. -/
structure Fault where
  cause : Cause
  /-- The number of bytes after the place. -/
  unread : Nat
  deriving DecidableEq, Repr

/-- A fault in front of the rest of the text. -/
def Fault.before (cause : Cause) (rest : List Char) : Fault := ⟨cause, byteCount rest⟩

/-- A fault at the first byte of the rest of the text, which counts as read. At the end of
    the text there is no such byte. -/
def Fault.at (cause : Cause) (rest : List Char) : Fault := ⟨cause, byteCount rest - 1⟩

/-- Line and column after the first `bytes` bytes of a text that starts at `line` and
    `column`. -/
def locate (line column : Nat) : List Char → Nat → Nat × Nat
  | [], _ | _, 0 => (line, column)
  | c :: rest, bytes + 1 =>
      if bytes + 1 < c.utf8Size then (line, column + bytes + 1)
      else if c = '\n' then locate (line + 1) 0 rest bytes
      else locate line (column + c.utf8Size) rest (bytes + 1 - c.utf8Size)

structure Error where
  cause : Cause
  line : Nat
  column : Nat
  deriving DecidableEq, Repr

def Fault.locatedIn (fault : Fault) (text : List Char) : Error :=
  let (line, column) := locate 1 0 text (byteCount text - fault.unread)
  ⟨fault.cause, line, column⟩

def Error.message (e : Error) : String :=
  e.cause.message ++ s!" at line {e.line} column {e.column}"

end WordWalk.Json
