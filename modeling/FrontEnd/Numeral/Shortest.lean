import FrontEnd.Numeral.Remainder

/-!
The shortest decimal that is rounded to a given number: the first hit on decimal grids that get
finer and finer, and on the first grid with a hit the one nearest to the number.
-/

namespace FrontEnd

/-- The number `digits · 10 ^ exponent`. -/
structure ShortDecimal where
  digits : Nat
  exponent : Int
  deriving DecidableEq, Repr

namespace BinaryFormat

variable (f : BinaryFormat)

/-- What is rounded to a number, in quarters of the number's last place: a number in the middle,
and the ends of the interval. Below a power of two the numbers lie closer. -/
def roundingInterval (bits : Nat) : Nat × Nat × Nat :=
  let (m, q) := f.split bits
  let below := if m = Nat.pow 2 f.fractionBits ∧ f.leastExponent < q then 1 else 2
  (4 * m - below, 4 * m, 4 * m + 2)

/-- A decimal on the grid of step `10 ^ exponent` that is rounded to a number, if there is one: of
two the nearer, of two equally near the greater. The ends of the interval belong to it if the
significand is even. -/
def nearestOn? (bits : Nat) (exponent : Int) : Option ShortDecimal :=
  let (m, q) := f.split bits
  let (low, middle, high) := f.roundingInterval bits
  let a := Nat.pow 2 (q - 2).toNat * Nat.pow 10 (-exponent).toNat
  let b := Nat.pow 2 (2 - q).toNat * Nat.pow 10 exponent.toNat
  let hits (digits : Nat) : Bool :=
    if m % 2 = 0 then low * a ≤ digits * b && digits * b ≤ high * a
    else low * a < digits * b && digits * b < high * a
  let floor := middle * a / b
  let down := hits floor
  let up := hits (floor + 1)
  if down && up then
    some ⟨if middle * a - floor * b < (floor + 1) * b - middle * a then floor else floor + 1,
      exponent⟩
  else if down then some ⟨floor, exponent⟩
  else if up then some ⟨floor + 1, exponent⟩
  else none

/-- The first hit on the grids with `exponent` and so many smaller exponents. -/
def firstHit (bits : Nat) (exponent : Int) : Nat → ShortDecimal
  | 0 => ⟨0, 0⟩
  | grids + 1 =>
    match f.nearestOn? bits exponent with
    | some d => d
    | none => firstHit bits (exponent - 1) grids

/-- The shortest decimal for a positive finite number. No number reaches the first grid, and every
number lies on the last one. -/
def shortest (bits : Nat) : ShortDecimal :=
  let first : Int := Nat.pow 2 (f.exponentBits - 1) / 3
  f.firstHit bits first (first - f.leastExponent + 1).toNat

end BinaryFormat

namespace ShortDecimal

/-- With a decimal point and at least one digit on each side of it. -/
def positional (d : ShortDecimal) : String :=
  let digits := Nat.toDigits 10 d.digits
  let point := digits.length + d.exponent
  if point ≤ 0 then "0." ++ String.ofList (List.replicate (-point).toNat '0' ++ digits)
  else if digits.length ≤ point then
    String.ofList (digits ++ List.replicate (point - digits.length).toNat '0') ++ ".0"
  else
    String.ofList (digits.take point.toNat) ++ "." ++ String.ofList (digits.drop point.toNat)

/-- With one digit in front of the decimal point and a power of ten. -/
def scientific (d : ShortDecimal) : String :=
  let digits := Nat.toDigits 10 d.digits
  let fraction := if digits.length = 1 then "" else "." ++ String.ofList (digits.drop 1)
  String.ofList (digits.take 1) ++ fraction ++ "e" ++ toString (digits.length + d.exponent - 1)

end ShortDecimal

/-- Text of the number with some bits: positional from `10 ^ -4` up to below `10 ^ 16`. -/
def BinaryFormat.text (f : BinaryFormat) (bits : Nat) : String :=
  let magnitude := bits % f.signBit
  if f.infinity < magnitude then "NaN"
  else
    (if f.signBit ≤ bits then "-" else "") ++
      if magnitude = f.infinity then "inf"
      else if magnitude = 0 then "0.0"
      else if f.round 1 (Nat.pow 10 4) ≤ magnitude ∧ magnitude < f.round (Nat.pow 10 16) 1 then
        (f.shortest magnitude).positional
      else (f.shortest magnitude).scientific

end FrontEnd
