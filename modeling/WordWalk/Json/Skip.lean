import WordWalk.Json.Reader

/-! # Skipped values

A value that nobody asks for is passed over. It has to be well formed as far as its
brackets, strings and numerals go, but what its escapes and numerals stand for is not
looked at, and it may be nested to any depth. Every part takes at least one character,
so the length of the text is enough fuel.
-/

namespace WordWalk.Json.Reader

/-- Passes over a string after its opening quote. A control character is reported in
    front of it. -/
def skipString : List Char → Except Fault (List Char)
  | [] | ['\\'] => .error (.before .endInText [])
  | '"' :: rest => .ok rest
  | '\\' :: 'u' :: a :: b :: c :: d :: rest =>
      match hexValue4? a b c d with
      | none => .error (hexFault (a :: b :: c :: d :: rest))
      | some _ => skipString rest
  | '\\' :: 'u' :: rest => .error (hexFault rest)
  | '\\' :: c :: rest =>
      match escaped? c with
      | some _ => skipString rest
      | none => .error (.at .invalidEscape (c :: rest))
  | c :: rest =>
      if c.toNat < 0x20 then .error (.before .controlCharacter (c :: rest)) else skipString rest

def skipDigits (cs : List Char) : Except Fault (List Char) :=
  match digits cs with
  | ([], rest) => .error (.at .invalidNumber rest)
  | (_, rest) => .ok rest

def skipExponent : List Char → Except Fault (List Char)
  | 'e' :: rest | 'E' :: rest =>
      match rest with
      | '+' :: rest | '-' :: rest => skipDigits rest
      | rest => skipDigits rest
  | rest => .ok rest

def skipNumeral (cs : List Char) : Except Fault (List Char) :=
  match digits cs with
  | ([], rest) => .error (.at .invalidNumber rest)
  | ('0' :: d :: ds, rest) => .error (.at .invalidNumber (d :: ds ++ rest))
  | (_, '.' :: rest) => do skipExponent (← skipDigits rest)
  | (_, rest) => skipExponent rest

def skipScalar : List Char → Except Fault (List Char)
  | [] => .error (.before .endInValue [])
  | 'n' :: rest => word "ull".toList rest
  | 't' :: rest => word "rue".toList rest
  | 'f' :: rest => word "alse".toList rest
  | '"' :: rest => skipString rest
  | '-' :: rest => skipNumeral rest
  | c :: rest =>
      if c.isDigit then skipNumeral (c :: rest) else .error (.at .expectedValue (c :: rest))

def skipName (cs : List Char) : Except Fault (List Char) :=
  match skipBlanks cs with
  | [] => .error (.before .endInObject [])
  | '"' :: rest => do colon (← skipString rest)
  | rest => .error (.at .keyNotText rest)

mutual
def skipValue : Nat → List Char → Except Fault (List Char)
  | 0, cs => .error (.before .endInValue cs)
  | fuel + 1, cs =>
      match skipBlanks cs with
      | '[' :: rest =>
          match skipBlanks rest with
          | [] => .error (.before .endInList [])
          | ']' :: rest => .ok rest
          | rest => do skipItems fuel (← skipValue fuel rest)
      | '\x7b' :: rest =>
          match skipBlanks rest with
          | [] => .error (.before .endInObject [])
          | '\x7d' :: rest => .ok rest
          | rest => do skipMembers fuel (← skipValue fuel (← skipName rest))
      | rest => skipScalar rest

def skipItems : Nat → List Char → Except Fault (List Char)
  | 0, cs => .error (.before .endInList cs)
  | fuel + 1, cs =>
      match skipBlanks cs with
      | [] => .error (.before .endInList [])
      | ']' :: rest => .ok rest
      | ',' :: rest => do skipItems fuel (← skipValue fuel rest)
      | rest => .error (.at .expectedCommaOrBracket rest)

def skipMembers : Nat → List Char → Except Fault (List Char)
  | 0, cs => .error (.before .endInObject cs)
  | fuel + 1, cs =>
      match skipBlanks cs with
      | [] => .error (.before .endInObject [])
      | '\x7d' :: rest => .ok rest
      | ',' :: rest => do skipMembers fuel (← skipValue fuel (← skipName rest))
      | rest => .error (.at .expectedCommaOrBrace rest)
end

end WordWalk.Json.Reader
