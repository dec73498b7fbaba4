import FrontEnd.Numeral.Rounding

/-!
The remainder of a division of floating-point numbers whose quotient is truncated. It is exact:
both magnitudes are multiples of one power of two, and so is the remainder.
-/

namespace FrontEnd

namespace BinaryFormat

variable (f : BinaryFormat)

/-- A finite magnitude as `m · 2 ^ q`. -/
def split (bits : Nat) : Nat × Int :=
  let fraction := bits % Nat.pow 2 f.fractionBits
  let exponent := bits / Nat.pow 2 f.fractionBits % Nat.pow 2 f.exponentBits
  if exponent = 0 then (fraction, f.leastExponent)
  else (fraction + Nat.pow 2 f.fractionBits, f.leastExponent + exponent - 1)

/-- Remainder of two positive finite magnitudes. -/
def remainderMagnitude (a b : Nat) : Nat :=
  let (m, p) := f.split a
  let (n, q) := f.split b
  let low := min p q
  let r := (m * Nat.pow 2 (p - low).toNat) % (n * Nat.pow 2 (q - low).toNat)
  f.round (r * Nat.pow 2 low.toNat) (Nat.pow 2 (-low).toNat)

/-- Bits of the remainder. It has the sign of the dividend; there is none of an infinite
dividend or by zero. -/
def remainder (a b : Nat) : Nat :=
  let sign := a / f.signBit * f.signBit
  let x := a % f.signBit
  let y := b % f.signBit
  if f.infinity ≤ x ∨ f.infinity < y ∨ y = 0 then f.quietNaN
  else if y = f.infinity then a
  else sign + f.remainderMagnitude x y

end BinaryFormat

end FrontEnd
