/-!
Rounding of exact fractions to binary floating point: to the nearest number of the format, an
exact half to the even significand.
-/

namespace FrontEnd

/-- A binary interchange format: bits of the significand (the leading one included) and bits of
the exponent field. -/
structure BinaryFormat where
  precision : Nat
  exponentBits : Nat
  deriving DecidableEq, Repr

namespace BinaryFormat

def single : BinaryFormat := ⟨24, 8⟩

def double : BinaryFormat := ⟨53, 11⟩

/-- Stored bits of the significand. -/
def fractionBits (f : BinaryFormat) : Nat := f.precision - 1

/-- Exponent of the last bit of the smallest numbers. -/
def leastExponent (f : BinaryFormat) : Int := 3 - Nat.pow 2 (f.exponentBits - 1) - f.precision

/-- Bits of the positive infinity: the exponent field is full and the fraction empty. -/
def infinity (f : BinaryFormat) : Nat := (Nat.pow 2 f.exponentBits - 1) <<< f.fractionBits

/-- The bit that holds the sign. -/
def signBit (f : BinaryFormat) : Nat := 1 <<< (f.fractionBits + f.exponentBits)

/-- A number that is not one: a full exponent field and the top bit of the fraction. -/
def quietNaN (f : BinaryFormat) : Nat := f.infinity ||| 1 <<< (f.fractionBits - 1)

end BinaryFormat

/-- `n / d` to the nearest natural number, a half to the even one. -/
def divRoundEven (n d : Nat) : Nat :=
  let q := n / d
  let r := n % d
  if d < 2 * r ∨ (2 * r = d ∧ q % 2 = 1) then q + 1 else q

/-- The greatest `e` with `2 ^ e ≤ n / d`, for positive `n` and `d`. -/
def floorLog2 (n d : Nat) : Int :=
  let e : Int := n.log2 - d.log2
  if d * Nat.pow 2 e.toNat ≤ n * Nat.pow 2 (-e).toNat then e else e - 1

/-- Bits of the number of the format nearest to the fraction `n / d`, without its sign; what
lies beyond the greatest number becomes infinity. -/
def BinaryFormat.round (f : BinaryFormat) (n d : Nat) : Nat :=
  if n = 0 then 0
  else
    let q := max (floorLog2 n d - f.fractionBits) f.leastExponent
    let m := divRoundEven (n * Nat.pow 2 (-q).toNat) (d * Nat.pow 2 q.toNat)
    let bits :=
      if m < Nat.pow 2 f.fractionBits then m
      else (q - f.leastExponent + 1).toNat <<< f.fractionBits + (m - Nat.pow 2 f.fractionBits)
    min bits f.infinity

end FrontEnd
