import WordWalk.Decimal.Binary

/-! # Shortest decimals

Every value has an interval of reals that round to it. Among the decimals in that
interval the ones with the fewest digits are looked at, and of these the nearest to the
value is taken, the even one if two are equally near.
-/

namespace WordWalk

/-- The value `digits * 10 ^ exponent`. -/
structure Decimal where
  digits : Nat
  exponent : Int
  deriving DecidableEq, Repr

namespace Binary

/-- Compares `a * 10 ^ i` with `b * 2 ^ j`. -/
def compareScaled (a : Nat) (i : Int) (b : Nat) (j : Int) : Ordering :=
  compare ((a * tenTo i.toNat) <<< (-j).toNat) ((b * tenTo (-i).toNat) <<< j.toNat)

/-- Whether the decimal rounds to the value. The ends of the interval do so exactly when
    the mantissa is even, and below a power of two the interval is half as wide. -/
def readsBack (x : Binary) (d : Decimal) : Bool :=
  let narrow := x.mantissa == mantissaBound / 2 && minExponent < x.exponent
  let low := if narrow then 4 * x.mantissa - 1 else 4 * x.mantissa - 2
  let high := 4 * x.mantissa + 2
  let closed := x.mantissa % 2 == 0
  let below := compareScaled d.digits d.exponent low (x.exponent - 2)
  let above := compareScaled d.digits d.exponent high (x.exponent - 2)
  (below == .gt || (closed && below == .eq)) && (above == .lt || (closed && above == .eq))

def decimalLength (n : Nat) : Nat := (Nat.toDigits 10 n).length

/-- The least power of ten that exceeds a value other than zero. -/
def magnitude (x : Binary) : Int :=
  if x.den ≤ x.num then decimalLength (x.num / x.den)
  else
    let zeros := decimalLength (x.den / x.num) - 1
    if x.num * tenTo zeros < x.den then -(zeros : Int) else 1 - zeros

/-- The decimal with at most `count` digits that rounds to the value and is nearest to it. -/
def withDigits? (x : Binary) (count : Nat) : Option Decimal :=
  let exponent := x.magnitude - count
  let a := x.num * tenTo (-exponent).toNat
  let b := x.den * tenTo exponent.toNat
  let floor := a / b
  let down : Decimal := ⟨floor, exponent⟩
  let up : Decimal := ⟨floor + 1, exponent⟩
  match x.readsBack down, x.readsBack up with
  | false, false => none
  | true, false => some down
  | false, true => some up
  | true, true =>
      match compare (2 * (a % b)) b with
      | .lt => some down
      | .gt => some up
      | .eq => some (if floor % 2 = 0 then down else up)

/-- The shortest decimal that rounds to the value. Seventeen digits are always enough. -/
def shortest (x : Binary) : Decimal :=
  if x.mantissa = 0 then ⟨0, 0⟩
  else ((List.range 17).findSome? fun n => x.withDigits? (n + 1)).getD ⟨0, 0⟩

end Binary

namespace Decimal

/-- The digits without the zeros at their end, and the exponent that goes with them. -/
def trimmed (d : Decimal) : List Char × Int :=
  let digits := Nat.toDigits 10 d.digits
  let kept := (digits.reverse.dropWhile (· == '0')).reverse
  (kept, d.exponent + (digits.length - kept.length : Nat))

/-- Decimals are written out when the leading digit stands between the fifth place after
    the point and the sixteenth before it; a whole number then ends in `.0`. All others
    have one digit before the point, if there is a point, and a signed exponent. -/
def text (d : Decimal) : String :=
  if d.digits = 0 then "0.0"
  else
    let (digits, exponent) := d.trimmed
    let leading := exponent + digits.length - 1
    let zeros (n : Int) : List Char := List.replicate n.toNat '0'
    String.ofList <|
      if -5 ≤ leading && leading ≤ 15 then
        if 0 ≤ exponent then digits ++ zeros exponent ++ ['.', '0']
        else if 0 ≤ leading then
          let whole := (leading + 1).toNat
          digits.take whole ++ '.' :: digits.drop whole
        else '0' :: '.' :: zeros (-leading - 1) ++ digits
      else
        let fraction := digits.drop 1
        let point := if fraction.isEmpty then [] else ['.']
        let sign := if leading < 0 then '-' else '+'
        digits.take 1 ++ point ++ fraction ++ 'e' :: sign :: Nat.toDigits 10 leading.natAbs

end Decimal

end WordWalk
