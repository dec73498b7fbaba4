import FrontEnd.Numeral.Rounding

/-! Values of literals and constant expressions. -/

namespace FrontEnd

/-- Kinds of values. All but `bool` are numeric, in widening order. -/
inductive ValueKind
  | char | integer | long | float | double | bool
  deriving DecidableEq, Repr

namespace ValueKind

def name : ValueKind → String
  | .char => "Char"
  | .integer => "Integer"
  | .long => "Long"
  | .float => "Float"
  | .double => "Double"
  | .bool => "Bool"

def rank (k : ValueKind) : Nat := k.ctorIdx

/-- The kind in which two numbers meet; there is none with a bool. -/
def wider (k l : ValueKind) : Option ValueKind :=
  if k = .bool ∨ l = .bool then none
  else some (if k.rank ≤ l.rank then l else k)

def isIntegral : ValueKind → Bool
  | .char | .integer | .long => true
  | _ => false

end ValueKind

inductive Value
  | char (v : UInt8)
  | int (v : Int32)
  | long (v : Int64)
  | float (v : Float32)
  | double (v : Float)
  | bool (v : Bool)
  deriving DecidableEq, Repr

namespace Value

def kind : Value → ValueKind
  | .char _ => .char
  | .int _ => .integer
  | .long _ => .long
  | .float _ => .float
  | .double _ => .double
  | .bool _ => .bool

/-! A value in a wider kind, if it has one there. -/

def asChar? : Value → Option UInt8
  | .char v => some v
  | _ => none

def asInt? : Value → Option Int32
  | .char v => some (Int32.ofNat v.toNat)
  | .int v => some v
  | _ => none

def asLong? : Value → Option Int64
  | .char v => some (Int64.ofNat v.toNat)
  | .int v => some v.toInt64
  | .long v => some v
  | _ => none

def asFloat? : Value → Option Float32
  | .char v => some v.toFloat32
  | .int v => some v.toFloat32
  | .long v => some v.toFloat32
  | .float v => some v
  | _ => none

def asDouble? : Value → Option Float
  | .char v => some v.toFloat
  | .int v => some v.toFloat
  | .long v => some v.toFloat
  | .float v => some v.toFloat
  | .double v => some v
  | .bool _ => none

end Value

/-! ### Written values -/

/-- Bits in hexadecimal, padded with zeros. -/
def hexBits (width : Nat) (bits : Nat) : String :=
  let digits := Nat.toDigits 16 bits
  "0x" ++ String.ofList (List.replicate (width - digits.length) '0' ++ digits)

def floatBits (v : Float32) : String := if v.isNaN then "nan" else hexBits 8 v.toBits.toNat

def doubleBits (v : Float) : String := if v.isNaN then "nan" else hexBits 16 v.toBits.toNat

/-- Kind and value; floating-point numbers are written as their bits. -/
def Value.text : Value → String
  | .char v => "char " ++ toString v.toNat
  | .int v => "int " ++ toString v.toInt
  | .long v => "long " ++ toString v.toInt
  | .float v => "float " ++ floatBits v
  | .double v => "double " ++ doubleBits v
  | .bool v => "bool " ++ toString v

end FrontEnd
