import WordWalk.Json.Fault

/-! # Numerals

A numeral without fraction and exponent is a whole number as long as it fits into 64
bits, unsigned or, after a minus sign, signed; the negative zero is not whole. Every
other numeral is a binary fraction. Its digits are collected into a number of 64 bits,
further ones are dropped, and the result is scaled by a power of ten.
-/

namespace WordWalk.Json

/-- The greatest number that digits are collected into. -/
def maxDigits : Nat := UInt64.size - 1

/-- The greatest exponent that is read digit by digit. -/
def maxExponent : Nat := 2147483647

/-- The greatest whole number that may follow a minus sign. -/
def maxNegated : Nat := 9223372036854775808

def digitValue (c : Char) : Nat := c.toNat - '0'.toNat

/-- Collects digits as long as the number stays within 64 bits, and counts them. -/
def collect (n used : Nat) : List Char → Nat × Nat
  | [] => (n, used)
  | d :: rest =>
      let next := n * 10 + digitValue d
      if maxDigits < next then (n, used) else collect next (used + 1) rest

def digits (cs : List Char) : List Char × List Char := cs.span Char.isDigit

/-- The number that digits and a power of ten stand for. -/
def realNumber (negative : Bool) (n : Nat) (exponent : Int) (rest : List Char) :
    Except Fault (Number × List Char) :=
  match Binary.ofDecimal? n exponent with
  | some magnitude => .ok (.real negative magnitude, rest)
  | none => .error (.before .numberOutOfRange rest)

/-- Reads the digits of an exponent. When they exceed the greatest exponent the digits
    that are left are returned in place of a value. -/
def exponentValue (n : Nat) : List Char → Except (List Char) Nat
  | [] => .ok n
  | d :: rest =>
      let next := n * 10 + digitValue d
      if maxExponent < next then .error rest else exponentValue next rest

/-- Reads what comes after the mark of an exponent. An exponent beyond all bounds makes the
    number too large, or zero. -/
def exponent (negative : Bool) (n : Nat) (shift : Int) (cs : List Char) :
    Except Fault (Number × List Char) :=
  let (down, cs) := match cs with
    | '-' :: rest => (true, rest)
    | '+' :: rest => (false, rest)
    | cs => (false, cs)
  match digits cs with
  | ([], []) => .error (.before .endInValue [])
  | ([], rest) => .error (.at .invalidNumber rest)
  | (ds, rest) =>
      match exponentValue 0 ds with
      | .ok e => realNumber negative n (if down then shift - e else shift + e) rest
      | .error left =>
          if n ≠ 0 ∧ !down then .error (.before .numberOutOfRange (left ++ rest))
          else .ok (.real negative .zero, rest)

/-- Reads what comes after the digits: an exponent, or nothing more. -/
def scaled (negative : Bool) (n : Nat) (shift : Int) :
    List Char → Except Fault (Number × List Char)
  | 'e' :: rest | 'E' :: rest => exponent negative n shift rest
  | rest => realNumber negative n shift rest

def fraction (negative : Bool) (n : Nat) (shift : Int) (cs : List Char) :
    Except Fault (Number × List Char) :=
  match digits cs with
  | ([], []) => .error (.before .endInValue [])
  | ([], rest) => .error (.at .invalidNumber rest)
  | (ds, rest) =>
      let (n, used) := collect n 0 ds
      scaled negative n (shift - used) rest

def wholeNumber (negative : Bool) (n : Nat) (rest : List Char) :
    Except Fault (Number × List Char) :=
  if !negative then .ok (.integer n, rest)
  else if n ≠ 0 ∧ n ≤ maxNegated then .ok (.integer (-n), rest)
  else realNumber true n 0 rest

def numeral (negative : Bool) (cs : List Char) : Except Fault (Number × List Char) :=
  match digits cs with
  | ([], []) => .error (.before .endInValue [])
  | ([], rest) => .error (.at .invalidNumber rest)
  | ('0' :: d :: ds, rest) => .error (.at .invalidNumber (d :: ds ++ rest))
  | (ds, rest) =>
      let (n, used) := collect 0 0 ds
      let dropped := ds.length - used
      match rest with
      | '.' :: rest => fraction negative n dropped rest
      | rest =>
          if dropped = 0 ∧ rest.head? ≠ some 'e' ∧ rest.head? ≠ some 'E' then
            wholeNumber negative n rest
          else scaled negative n dropped rest

end WordWalk.Json
