import FrontEnd.Constant.Value
import FrontEnd.Numeral.Decimal

/-! Reading of written values. -/

namespace FrontEnd

/-- The value of a hexadecimal digit. -/
def hexDigit? (c : Char) : Option Nat :=
  if '0' ≤ c ∧ c ≤ '9' then some (c.toNat - 48)
  else if 'a' ≤ c ∧ c ≤ 'f' then some (c.toNat - 87)
  else if 'A' ≤ c ∧ c ≤ 'F' then some (c.toNat - 55)
  else none

/-- Bits in hexadecimal, or none that are a number. -/
def readBits? (f : BinaryFormat) (text : String) : Option Nat :=
  match text.toList with
  | ['n', 'a', 'n'] => some f.quietNaN
  | '0' :: 'x' :: digits =>
    digits.foldlM (fun bits c => (hexDigit? c).map (bits * 16 + ·)) 0
  | _ => none

/-- The value that `Value.text` writes so. -/
def Value.ofText? (text : String) : Option Value :=
  match text.splitOn " " with
  | ["char", v] => (readInt? v.toList).map fun i => .char (UInt8.ofInt i)
  | ["int", v] => (readInt? v.toList).map fun i => .int (Int32.ofInt i)
  | ["long", v] => (readInt? v.toList).map fun i => .long (Int64.ofInt i)
  | ["float", v] => (readBits? .single v).map fun bits => .float (Float32.ofBits bits.toUInt32)
  | ["double", v] => (readBits? .double v).map fun bits => .double (Float.ofBits bits.toUInt64)
  | ["bool", "true"] => some (.bool true)
  | ["bool", "false"] => some (.bool false)
  | _ => none

end FrontEnd
