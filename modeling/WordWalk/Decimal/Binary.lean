/-! # Binary fractions of 53 bits

The finite values that a double-precision number can take, sign apart. A quotient of
naturals is rounded to the nearest of them, and to the one with an even mantissa when
two are equally near.
-/

namespace WordWalk

/-- The value `mantissa * 2 ^ exponent`. -/
structure Binary where
  mantissa : Nat
  exponent : Int
  deriving DecidableEq, Repr

namespace Binary

/-- Mantissas have 53 bits. -/
def mantissaBound : Nat := 1 <<< 53

def minExponent : Int := -1074

def maxExponent : Int := 971

def zero : Binary := ⟨0, minExponent⟩

def num (x : Binary) : Nat := x.mantissa <<< x.exponent.toNat

def den (x : Binary) : Nat := 1 <<< (-x.exponent).toNat

/-- The natural nearest to a quotient, the even one if two are. -/
def nearestEven (num den : Nat) : Nat :=
  let floor := num / den
  match compare (2 * (num % den)) den with
  | .lt => floor
  | .gt => floor + 1
  | .eq => floor + floor % 2

/-- The value nearest to a quotient. There is none when the quotient is too large. -/
def ofQuotient? (num den : Nat) : Option Binary :=
  if num = 0 then some zero
  else
    let scaled (e : Int) : Nat × Nat := (num <<< (-e).toNat, den <<< e.toNat)
    let estimate := max ((num.log2 : Int) - den.log2 - 53) minExponent
    let (a, b) := scaled estimate
    let exponent := if mantissaBound ≤ a / b then estimate + 1 else estimate
    let (a, b) := scaled exponent
    let rounded := nearestEven a b
    let (mantissa, exponent) :=
      if rounded = mantissaBound then (mantissaBound / 2, exponent + 1) else (rounded, exponent)
    if maxExponent < exponent then none else some ⟨mantissa, exponent⟩

def mul? (x y : Binary) : Option Binary := ofQuotient? (x.num * y.num) (x.den * y.den)

def div? (x y : Binary) : Option Binary := ofQuotient? (x.num * y.den) (x.den * y.num)

def tenTo (n : Nat) : Nat := Nat.pow 10 n

/-- The greatest power of ten that is a value. -/
def maxPowerOfTen : Nat := 308

/-- The value nearest to a power of ten. -/
def powerOfTen? (n : Nat) : Option Binary := ofQuotient? (tenTo n) 1

/-- Divides repeatedly by the greatest power of ten, as long as something is left. -/
def lower? (x : Binary) : Nat → Option Binary
  | 0 => some x
  | n + 1 =>
      if x.mantissa = 0 then some x
      else do
        let power ← powerOfTen? maxPowerOfTen
        (← x.div? power).lower? n

/-- A whole number times a power of ten, each step rounded: the number is turned into a
    value first and then multiplied or divided once by a power of ten. Exponents below
    that of the greatest power take several divisions. -/
def ofDecimal? (digits : Nat) (exponent : Int) : Option Binary := do
  let x ← ofQuotient? digits 1
  if 0 ≤ exponent then
    if x.mantissa = 0 then some x
    else if maxPowerOfTen < exponent.toNat then none
    else x.mul? (← powerOfTen? exponent.toNat)
  else
    let size := exponent.natAbs
    let times := (size - 1) / maxPowerOfTen
    let x ← x.lower? times
    x.div? (← powerOfTen? (size - times * maxPowerOfTen))

end Binary

end WordWalk
