import FrontEnd.Numeral.Rounding

/-! Numbers read from decimal text. -/

namespace FrontEnd

/-- Value of a string of digits. -/
def digitsValue (digits : List Char) : Nat :=
  digits.foldl (fun value c => 10 * value + (c.toNat - '0'.toNat)) 0

/-- An optional sign, and what follows it; the flag is set by a minus. -/
def takeSign : List Char → Bool × List Char
  | '-' :: rest => (true, rest)
  | '+' :: rest => (false, rest)
  | text => (false, text)

/-- An integer: an optional sign and at least one digit, nothing else. -/
def readInt? (text : List Char) : Option Int :=
  let (negative, digits) := takeSign text
  if digits ≠ [] ∧ digits.all Char.isDigit then
    some (if negative then -(digitsValue digits : Int) else digitsValue digits)
  else none

/-- The magnitude of a decimal number: `digits · 10 ^ exponent`, infinite, or no number. -/
inductive Decimal
  | finite (digits : Nat) (exponent : Int)
  | infinite
  | notANumber
  deriving DecidableEq, Repr

namespace Decimal

/-- An exponent part, `e` and an integer, which may be missing. -/
def readExponent? : List Char → Option Int
  | [] => some 0
  | c :: rest => if c = 'e' ∨ c = 'E' then readInt? rest else none

/-- The words that stand for infinity and for no number, in any case. -/
def ofWord? (text : List Char) : Option Decimal :=
  let word := text.map Char.toLower
  if word = "inf".toList ∨ word = "infinity".toList then some .infinite
  else if word = "nan".toList then some .notANumber
  else none

/-- Digits, a point and more digits, of which some may be missing but not all, and an optional
exponent. -/
def read? (text : List Char) : Option Decimal :=
  let (whole, rest) := text.span Char.isDigit
  let (fraction, rest) := match rest with
    | '.' :: rest => rest.span Char.isDigit
    | _ => ([], rest)
  if whole ++ fraction = [] then ofWord? text
  else (readExponent? rest).map fun exponent =>
    .finite (digitsValue (whole ++ fraction)) (exponent - fraction.length)

/-- Beyond this power of ten a number is infinite, and below its inverse zero, in every format
used here. -/
def settled : Int := 400

/-- Bits of the nearest number of the format. -/
def round (f : BinaryFormat) : Decimal → Nat
  | .infinite => f.infinity
  | .notANumber => f.quietNaN
  | .finite digits exponent =>
    let leading := exponent + (Nat.toDigits 10 digits).length
    if digits = 0 ∨ leading < -settled then 0
    else if settled < leading then f.infinity
    else f.round (digits * Nat.pow 10 exponent.toNat) (Nat.pow 10 (-exponent).toNat)

/-- Bits of the number of the format nearest to a signed decimal text. -/
def readBits? (f : BinaryFormat) (text : List Char) : Option Nat :=
  let (negative, magnitude) := takeSign text
  (read? magnitude).map fun d => d.round f + if negative then f.signBit else 0

end Decimal

end FrontEnd
