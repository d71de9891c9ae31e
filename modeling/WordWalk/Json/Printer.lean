import WordWalk.Json.Basic

/-! # Written JSON

The compact form has no blanks. The pretty form puts every item and every member on a
line of its own, two spaces deeper than the bracket around it, and leaves an empty list
or object as it is. Inside a string only the quote, the backslash and the characters
below the space are escaped.
-/

namespace WordWalk.Json

def hexDigit (n : Nat) : Char := (Nat.toDigits 16 n).getD 0 '0'

def escapeChar (c : Char) : List Char :=
  if c = '"' then ['\\', '"']
  else if c = '\\' then ['\\', '\\']
  else if c = '\x08' then ['\\', 'b']
  else if c = '\x0c' then ['\\', 'f']
  else if c = '\n' then ['\\', 'n']
  else if c = '\r' then ['\\', 'r']
  else if c = '\t' then ['\\', 't']
  else if c.toNat < 0x20 then
    ['\\', 'u', '0', '0', hexDigit (c.toNat / 16), hexDigit (c.toNat % 16)]
  else [c]

def quote (s : String) : List Char := '"' :: s.toList.flatMap escapeChar ++ ['"']

mutual
def compactChars : Json → List Char
  | .null => "null".toList
  | .bool b => (if b then "true" else "false").toList
  | .number n => n.text.toList
  | .text s => quote s
  | .list items => '[' :: compactItems items ++ [']']
  | .object members => '\x7b' :: compactMembers members ++ ['\x7d']

def compactItems : List Json → List Char
  | [] => []
  | [item] => compactChars item
  | item :: rest => compactChars item ++ ',' :: compactItems rest

def compactMembers : List (String × Json) → List Char
  | [] => []
  | [(name, value)] => quote name ++ ':' :: compactChars value
  | (name, value) :: rest =>
      quote name ++ ':' :: compactChars value ++ ',' :: compactMembers rest
end

def compact (v : Json) : String := String.ofList (compactChars v)

def newLine (depth : Nat) : List Char := '\n' :: List.replicate (2 * depth) ' '

mutual
/-- The characters of the pretty form, for a value at some depth. -/
def prettyChars (depth : Nat) : Json → List Char
  | .null => "null".toList
  | .bool b => (if b then "true" else "false").toList
  | .number n => n.text.toList
  | .text s => quote s
  | .list [] => ['[', ']']
  | .list (item :: rest) =>
      '[' :: newLine (depth + 1) ++ prettyChars (depth + 1) item ++
        prettyItems (depth + 1) rest ++ newLine depth ++ [']']
  | .object [] => ['\x7b', '\x7d']
  | .object ((name, value) :: rest) =>
      '\x7b' :: newLine (depth + 1) ++ quote name ++ ':' :: ' ' ::
        prettyChars (depth + 1) value ++ prettyMembers (depth + 1) rest ++
        newLine depth ++ ['\x7d']

def prettyItems (depth : Nat) : List Json → List Char
  | [] => []
  | item :: rest =>
      ',' :: newLine depth ++ prettyChars depth item ++ prettyItems depth rest

def prettyMembers (depth : Nat) : List (String × Json) → List Char
  | [] => []
  | (name, value) :: rest =>
      ',' :: newLine depth ++ quote name ++ ':' :: ' ' :: prettyChars depth value ++
        prettyMembers depth rest
end

def pretty (v : Json) : String := String.ofList (prettyChars 0 v)

end WordWalk.Json
