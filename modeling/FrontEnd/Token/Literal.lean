import FrontEnd.Numeral.Decimal
import FrontEnd.Constant.Value
import FrontEnd.Token.Basic

/-!
Values of literal lexemes. No value means that the lexeme is well formed and its value does not
fit.
-/

namespace FrontEnd

namespace Literal

/-- What precedes a last character that satisfies `p`. -/
def stripLast? (p : Char → Bool) (text : List Char) : Option (List Char) :=
  match text.getLast? with
  | some c => if p c then some text.dropLast else none
  | none => none

/-- What lies between two marks, one at each end. -/
def between? (mark : Char) : List Char → Option (List Char)
  | c :: rest => if c = mark then stripLast? (· == mark) rest else none
  | [] => none

def intValue? (lexeme : String) : Option Int32 :=
  match readInt? lexeme.toList with
  | some v =>
    if Int32.minValue.toInt ≤ v ∧ v ≤ Int32.maxValue.toInt then some (Int32.ofInt v) else none
  | none => none

def longValue? (lexeme : String) : Option Int64 :=
  match (stripLast? (fun c => c == 'l' || c == 'L') lexeme.toList).bind readInt? with
  | some v =>
    if Int64.minValue.toInt ≤ v ∧ v ≤ Int64.maxValue.toInt then some (Int64.ofInt v) else none
  | none => none

def floatValue? (lexeme : String) : Option Float32 := do
  let text ← stripLast? (fun c => c == 'f' || c == 'F') lexeme.toList
  let bits ← Decimal.readBits? .single text
  return Float32.ofBits bits.toUInt32

/-- The suffix of a double may be missing. -/
def doubleValue? (lexeme : String) : Option Float := do
  let text := (stripLast? (fun c => c == 'd' || c == 'D') lexeme.toList).getD lexeme.toList
  let bits ← Decimal.readBits? .double text
  return Float.ofBits bits.toUInt64

/-- The byte that an escaped character stands for. -/
def escape? : Char → Option UInt8
  | 'n' => some 10
  | 't' => some 9
  | 'r' => some 13
  | '0' => some 0
  | '\\' => some 92
  | '\x27' => some 39
  | '\x22' => some 34
  | _ => none

/-- Only ASCII characters fit. -/
def charValue? (lexeme : String) : Option UInt8 :=
  match between? '\x27' lexeme.toList with
  | some [c] => if c.toNat < 128 then some c.toNat.toUInt8 else none
  | some [mark, c] => if mark = '\\' then escape? c else none
  | _ => none

/-- What stands between the quotation marks, escapes as written. -/
def stringContents (lexeme : String) : String :=
  match between? '\x22' lexeme.toList with
  | some text => String.ofList text
  | none => lexeme

end Literal

/-- Value of a numeric, character or truth literal. -/
def literalValue? (kind : TokenKind) (lexeme : String) : Option Value :=
  match kind with
  | .intLit => (Literal.intValue? lexeme).map .int
  | .longLit => (Literal.longValue? lexeme).map .long
  | .floatLit => (Literal.floatValue? lexeme).map .float
  | .doubleLit => (Literal.doubleValue? lexeme).map .double
  | .charLit => (Literal.charValue? lexeme).map .char
  | .kwTrue => some (.bool true)
  | .kwFalse => some (.bool false)
  | _ => none

end FrontEnd
