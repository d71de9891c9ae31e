import WordWalk.Json.Numeral

/-! # JSON readers

A reader takes a value from the front of a text and returns it with the rest, or a
fault. Readers for values of a fixed shape and the reader for all values share their
parts, so they agree on everything but the shape. Readers of lists and objects get fuel
for their items; the length of the text is always enough, since every item takes at
least one character.
-/

namespace WordWalk.Json

abbrev Reader (α : Type) := List Char → Except Fault (α × List Char)

namespace Reader

def maxDepth : Nat := 127

/-- Whether the character may stand between two tokens. -/
def isBlank (c : Char) : Bool := c == ' ' || c == '\n' || c == '\t' || c == '\r'

def skipBlanks (cs : List Char) : List Char := cs.dropWhile isBlank

def word : List Char → List Char → Except Fault (List Char)
  | [], rest => .ok rest
  | _ :: _, [] => .error (.before .endInValue [])
  | w :: ws, c :: rest =>
      if c = w then word ws rest else .error (.at .expectedIdent (c :: rest))

def hexValue? (c : Char) : Option Nat :=
  if c.isDigit then some (c.toNat - '0'.toNat)
  else if 'a' ≤ c ∧ c ≤ 'f' then some (c.toNat - 'a'.toNat + 10)
  else if 'A' ≤ c ∧ c ≤ 'F' then some (c.toNat - 'A'.toNat + 10)
  else none

def hexValue4? (a b c d : Char) : Option Nat := do
  return (((← hexValue? a) * 16 + (← hexValue? b)) * 16 + (← hexValue? c)) * 16 + (← hexValue? d)

/-- The fault of an escape without four hexadecimal digits: the text ends within the next
    four bytes, or one of these is no digit. -/
def hexFault (rest : List Char) : Fault :=
  if byteCount rest < 4 then .before .endInText [] else ⟨.invalidEscape, byteCount rest - 4⟩

/-- The character that a letter after a backslash stands for. -/
def escaped? : Char → Option Char
  | '"' => some '"'
  | '\\' => some '\\'
  | '/' => some '/'
  | 'b' => some '\x08'
  | 'f' => some '\x0c'
  | 'n' => some '\n'
  | 'r' => some '\r'
  | 't' => some '\t'
  | _ => none

def isHighSurrogate (n : Nat) : Bool := 0xD800 ≤ n && n ≤ 0xDBFF

def isLowSurrogate (n : Nat) : Bool := 0xDC00 ≤ n && n ≤ 0xDFFF

def surrogatePair (high low : Nat) : Char :=
  Char.ofNat (0x10000 + (high - 0xD800) * 0x400 + (low - 0xDC00))

/-- Reads a string after its opening quote. The characters read so far come latest first. -/
def stringFrom (read : List Char) : Reader String
  | [] => .error (.before .endInText [])
  | '"' :: rest => .ok (String.ofList read.reverse, rest)
  | ['\\'] => .error (.before .endInText [])
  | '\\' :: 'u' :: a :: b :: c :: d :: rest =>
      match hexValue4? a b c d with
      | none => .error (hexFault (a :: b :: c :: d :: rest))
      | some n =>
          if isLowSurrogate n then .error (.before .loneSurrogate rest)
          else if isHighSurrogate n then
            match rest with
            | [] | ['\\'] => .error (.before .endInText [])
            | '\\' :: 'u' :: e :: f :: g :: h :: rest =>
                match hexValue4? e f g h with
                | none => .error (hexFault (e :: f :: g :: h :: rest))
                | some m =>
                    if isLowSurrogate m then stringFrom (surrogatePair n m :: read) rest
                    else .error (.before .loneSurrogate rest)
            | '\\' :: 'u' :: rest => .error (hexFault rest)
            | '\\' :: rest => .error (.at .unfinishedSurrogatePair rest)
            | rest => .error (.at .unfinishedSurrogatePair rest)
          else stringFrom (Char.ofNat n :: read) rest
  | '\\' :: 'u' :: rest => .error (hexFault rest)
  | '\\' :: c :: rest =>
      match escaped? c with
      | some e => stringFrom (e :: read) rest
      | none => .error (.at .invalidEscape (c :: rest))
  | c :: rest =>
      if c.toNat < 0x20 then .error (.at .controlCharacter (c :: rest))
      else stringFrom (c :: read) rest

def string : Reader String := stringFrom []

/-- Reads a value that holds no others. -/
def scalar : Reader Json
  | [] => .error (.before .endInValue [])
  | 'n' :: rest => do return (.null, ← word "ull".toList rest)
  | 't' :: rest => do return (.bool true, ← word "rue".toList rest)
  | 'f' :: rest => do return (.bool false, ← word "alse".toList rest)
  | '"' :: rest => do
      let (s, rest) ← string rest
      return (.text s, rest)
  | '-' :: rest => do
      let (n, rest) ← numeral true rest
      return (.number n, rest)
  | c :: rest =>
      if c.isDigit then do
        let (n, rest) ← numeral false (c :: rest)
        return (.number n, rest)
      else .error (.at .expectedValue (c :: rest))

/-- Reports a value of another shape than expected, unless it is faulty itself. Lists and
    objects are not looked into. -/
def mismatch {α : Type} (expected : Expected) : Reader α
  | '[' :: rest => .error (.before (.wrongType .list expected) ('[' :: rest))
  | '\x7b' :: rest => .error (.before (.wrongType .object expected) ('\x7b' :: rest))
  | cs => do
      let (v, rest) ← scalar cs
      .error (.before (.wrongType v.found expected) rest)

/-- Reads the items of a list after the first of them. Those read so far come latest first. -/
def itemsFrom {α : Type} (item : Reader α) : Nat → List α → Reader (List α)
  | 0, _, cs => .error (.before .endInList cs)
  | fuel + 1, read, cs =>
      match skipBlanks cs with
      | [] => .error (.before .endInList [])
      | ']' :: rest => .ok (read.reverse, rest)
      | ',' :: rest =>
          match skipBlanks rest with
          | [] => .error (.before .endInValue [])
          | ']' :: rest => .error (.at .trailingComma (']' :: rest))
          | rest => do
              let (x, rest) ← item rest
              itemsFrom item fuel (x :: read) rest
      | rest => .error (.at .expectedCommaOrBracket rest)

def items {α : Type} (fuel : Nat) (item : Reader α) : Reader (List α) := fun cs =>
  match skipBlanks cs with
  | [] => .error (.before .endInList [])
  | ']' :: rest => .ok ([], rest)
  | rest => do
      let (x, rest) ← item rest
      itemsFrom item fuel [x] rest

def colon (cs : List Char) : Except Fault (List Char) :=
  match skipBlanks cs with
  | [] => .error (.before .endInObject [])
  | ':' :: rest => .ok rest
  | rest => .error (.at .expectedColon rest)

def member {α : Type} (value : Reader α) : Reader (String × α) := fun cs => do
  let (name, rest) ← string cs
  let (x, rest) ← value (← colon rest)
  return ((name, x), rest)

/-- Reads the members of an object after the first of them. Those read so far come latest
    first. -/
def membersFrom {α : Type} (value : Reader α) :
    Nat → List (String × α) → Reader (List (String × α))
  | 0, _, cs => .error (.before .endInObject cs)
  | fuel + 1, read, cs =>
      match skipBlanks cs with
      | [] => .error (.before .endInObject [])
      | '\x7d' :: rest => .ok (read.reverse, rest)
      | ',' :: rest =>
          match skipBlanks rest with
          | [] => .error (.before .endInValue [])
          | '"' :: rest => do
              let (m, rest) ← member value rest
              membersFrom value fuel (m :: read) rest
          | '\x7d' :: rest => .error (.at .trailingComma ('\x7d' :: rest))
          | rest => .error (.at .keyNotText rest)
      | rest => .error (.at .expectedCommaOrBrace rest)

/-- Reads an object after its opening brace. Members are in the order of the text. -/
def members {α : Type} (fuel : Nat) (value : Reader α) : Reader (List (String × α)) := fun cs =>
  match skipBlanks cs with
  | [] => .error (.before .endInObject [])
  | '\x7d' :: rest => .ok ([], rest)
  | '"' :: rest => do
      let (m, rest) ← member value rest
      membersFrom value fuel [m] rest
  | rest => .error (.at .keyNotText rest)

/-- Reads a value of any shape, with lists and objects nested up to some depth. -/
def any (fuel : Nat) : Nat → Reader Json
  | 0, cs =>
      match skipBlanks cs with
      | '[' :: rest => .error (.at .recursionLimit ('[' :: rest))
      | '\x7b' :: rest => .error (.at .recursionLimit ('\x7b' :: rest))
      | rest => scalar rest
  | depth + 1, cs =>
      match skipBlanks cs with
      | '[' :: rest => do
          let (xs, rest) ← items fuel (any fuel depth) rest
          return (.list xs, rest)
      | '\x7b' :: rest => do
          let (ms, rest) ← members fuel (any fuel depth) rest
          return (ofMembers ms, rest)
      | rest => scalar rest

def text : Reader String := fun cs =>
  match skipBlanks cs with
  | '"' :: rest => string rest
  | rest => mismatch .text rest

def listOf {α : Type} (fuel : Nat) (item : Reader α) : Reader (List α) := fun cs =>
  match skipBlanks cs with
  | '[' :: rest => items fuel item rest
  | rest => mismatch .list rest

def objectOf {α : Type} (fuel : Nat) (value : Reader α) : Reader (List (String × α)) := fun cs =>
  match skipBlanks cs with
  | '\x7b' :: rest => members fuel value rest
  | rest => mismatch .object rest

def closeList (cs : List Char) : Except Fault (List Char) :=
  match skipBlanks cs with
  | [] => .error (.before .endInList [])
  | ']' :: rest => .ok rest
  | ',' :: rest =>
      match skipBlanks rest with
      | ']' :: rest => .error (.at .trailingComma (']' :: rest))
      | rest => .error (.at .trailingCharacters rest)
  | rest => .error (.at .trailingCharacters rest)

/-- Reads a list of exactly two items after its opening bracket. -/
def twoItems {α : Type} (expected : Expected) (item : Reader α) : Reader (α × α) := fun cs =>
  match skipBlanks cs with
  | [] => .error (.before .endInList [])
  | ']' :: rest => .error (.before (.wrongLength 0 expected) rest)
  | rest => do
      let (x, rest) ← item rest
      match skipBlanks rest with
      | [] => .error (.before .endInList [])
      | ']' :: rest => .error (.before (.wrongLength 1 expected) rest)
      | ',' :: rest =>
          match skipBlanks rest with
          | [] => .error (.before .endInValue [])
          | ']' :: rest => .error (.at .trailingComma (']' :: rest))
          | rest => do
              let (y, rest) ← item rest
              return ((x, y), ← closeList rest)
      | rest => .error (.at .expectedCommaOrBracket rest)

/-- Reads a pair, written as a list of two items. -/
def pairOf {α : Type} (item : Reader α) : Reader (α × α) := fun cs =>
  match skipBlanks cs with
  | '[' :: rest => twoItems .pair item rest
  | rest => mismatch .pair rest

end Reader

/-- Applies a reader to a whole text. Nothing but blanks may follow the value. -/
def readAll {α : Type} (reader : Reader α) (cs : List Char) : Except Fault α := do
  let (x, rest) ← reader cs
  match Reader.skipBlanks rest with
  | [] => return x
  | rest => .error (.at .trailingCharacters rest)

def read {α : Type} (reader : Nat → Reader α) (document : String) : Except Error α :=
  let cs := document.toList
  match readAll (reader cs.length) cs with
  | .ok x => .ok x
  | .error fault => .error (fault.locatedIn cs)

def parse (document : String) : Except Error Json := read (Reader.any · Reader.maxDepth) document

end WordWalk.Json
