import FrontEnd.Token.Kind

/-! Operators of unary, binary and assignment expressions. -/

namespace FrontEnd

inductive BinaryOp
  | add | sub | mul | div | mod
  | bitAnd | bitOr | bitXor | shl | shr
  | eq | notEq | lt | ltEq | gt | gtEq
  | and | or
  deriving DecidableEq, Repr

namespace BinaryOp

def all : List BinaryOp :=
  [.add, .sub, .mul, .div, .mod, .bitAnd, .bitOr, .bitXor, .shl, .shr, .eq, .notEq, .lt, .ltEq,
   .gt, .gtEq, .and, .or]

def symbol : BinaryOp → String
  | .add => "+"
  | .sub => "-"
  | .mul => "*"
  | .div => "/"
  | .mod => "%"
  | .bitAnd => "&"
  | .bitOr => "|"
  | .bitXor => "^"
  | .shl => "<<"
  | .shr => ">>"
  | .eq => "=="
  | .notEq => "!="
  | .lt => "<"
  | .ltEq => "<="
  | .gt => ">"
  | .gtEq => ">="
  | .and => "&&"
  | .or => "||"

def name : BinaryOp → String
  | .add => "Add"
  | .sub => "Sub"
  | .mul => "Mul"
  | .div => "Div"
  | .mod => "Mod"
  | .bitAnd => "BitAnd"
  | .bitOr => "BitOr"
  | .bitXor => "BitXor"
  | .shl => "Shl"
  | .shr => "Shr"
  | .eq => "Eq"
  | .notEq => "NotEq"
  | .lt => "Lt"
  | .ltEq => "LtEq"
  | .gt => "Gt"
  | .gtEq => "GtEq"
  | .and => "And"
  | .or => "Or"

def ofToken? : TokenKind → Option BinaryOp
  | .plus => some .add
  | .minus => some .sub
  | .star => some .mul
  | .slash => some .div
  | .percent => some .mod
  | .amp => some .bitAnd
  | .pipe => some .bitOr
  | .caret => some .bitXor
  | .shiftLeft => some .shl
  | .shiftRight => some .shr
  | .equalEqual => some .eq
  | .bangEqual => some .notEq
  | .less => some .lt
  | .lessEqual => some .ltEq
  | .greater => some .gt
  | .greaterEqual => some .gtEq
  | .ampAmp => some .and
  | .pipePipe => some .or
  | _ => none

end BinaryOp

inductive UnaryOp
  | neg | plus | not | bitNot | preInc | preDec
  deriving DecidableEq, Repr

namespace UnaryOp

def all : List UnaryOp := [.neg, .plus, .not, .bitNot, .preInc, .preDec]

def symbol : UnaryOp → String
  | .neg => "-"
  | .plus => "+"
  | .not => "!"
  | .bitNot => "~"
  | .preInc => "++"
  | .preDec => "--"

def name : UnaryOp → String
  | .neg => "Neg"
  | .plus => "Plus"
  | .not => "Not"
  | .bitNot => "BitNot"
  | .preInc => "PreInc"
  | .preDec => "PreDec"

def ofToken? : TokenKind → Option UnaryOp
  | .minus => some .neg
  | .plus => some .plus
  | .bang => some .not
  | .tilde => some .bitNot
  | .plusPlus => some .preInc
  | .minusMinus => some .preDec
  | _ => none

/-- Whether the operand is modified, and so must be assignable. -/
def mutates : UnaryOp → Bool
  | .preInc | .preDec => true
  | _ => false

end UnaryOp

inductive AssignOp
  | assign
  | compound (op : BinaryOp)
  /-- Stores the bitwise complement of the value. -/
  | complement
  deriving DecidableEq, Repr

namespace AssignOp

def ofToken? : TokenKind → Option AssignOp
  | .equal => some .assign
  | .plusEqual => some (.compound .add)
  | .minusEqual => some (.compound .sub)
  | .starEqual => some (.compound .mul)
  | .slashEqual => some (.compound .div)
  | .percentEqual => some (.compound .mod)
  | .ampEqual => some (.compound .bitAnd)
  | .pipeEqual => some (.compound .bitOr)
  | .caretEqual => some (.compound .bitXor)
  | .tildeEqual => some .complement
  | _ => none

/-- The spelling; a compound operator without one is written as its binary operator. -/
def symbol : AssignOp → String
  | .assign => "="
  | .compound .add => "+="
  | .compound .sub => "-="
  | .compound .mul => "*="
  | .compound .div => "/="
  | .compound .mod => "%="
  | .compound .bitAnd => "&="
  | .compound .bitOr => "|="
  | .compound .bitXor => "^="
  | .compound op => op.symbol
  | .complement => "~="

end AssignOp

end FrontEnd
