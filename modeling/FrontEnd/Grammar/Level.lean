import FrontEnd.Token.Kind

/-! How tightly infix operators bind. -/

namespace FrontEnd

/-- Levels of infix tokens, the weakest first. -/
inductive Level
  /-- Not an infix token. -/
  | none
  /-- Assignments, which group to the right. -/
  | assign
  | logOr | logAnd | bitOr | bitXor | bitAnd | equality | compare | shift | term | factor
  /-- Calls and member accesses. -/
  | call
  deriving DecidableEq, Repr

namespace Level

def all : List Level :=
  [.none, .assign, .logOr, .logAnd, .bitOr, .bitXor, .bitAnd, .equality, .compare, .shift, .term,
   .factor, .call]

def rank (l : Level) : Nat := l.ctorIdx

/-- The next tighter level: that of the right operand of an operator that groups to the left. -/
def next (l : Level) : Level := all[l.rank + 1]?.getD .call

def name : Level → String
  | .none => "None"
  | .assign => "Assign"
  | .logOr => "LogOr"
  | .logAnd => "LogAnd"
  | .bitOr => "BitOr"
  | .bitXor => "BitXor"
  | .bitAnd => "BitAnd"
  | .equality => "Equality"
  | .compare => "Compare"
  | .shift => "Shift"
  | .term => "Term"
  | .factor => "Factor"
  | .call => "Call"

def of : TokenKind → Level
  | .equal | .plusEqual | .minusEqual | .starEqual | .slashEqual | .percentEqual | .ampEqual
  | .pipeEqual | .caretEqual | .tildeEqual => .assign
  | .pipePipe => .logOr
  | .ampAmp => .logAnd
  | .pipe => .bitOr
  | .caret => .bitXor
  | .amp => .bitAnd
  | .equalEqual | .bangEqual => .equality
  | .less | .lessEqual | .greater | .greaterEqual => .compare
  | .shiftLeft | .shiftRight => .shift
  | .plus | .minus => .term
  | .star | .slash | .percent => .factor
  | .openParen | .dot => .call
  | _ => .none

end Level

end FrontEnd
