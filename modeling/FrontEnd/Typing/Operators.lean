import FrontEnd.Syntax.Operator
import FrontEnd.Types.Table

/-!
Which operands an operator accepts, and the type of the result. A rejected application still has
a nominal type, so that checking can go on above it.
-/

namespace FrontEnd

/-- Outcome for one application of an operator. -/
inductive Application
  | accepted (type : TypeId)
  | mismatch (nominal : TypeId)
  deriving DecidableEq, Repr

namespace Application

def type : Application → TypeId
  | .accepted type => type
  | .mismatch nominal => nominal

def isAccepted : Application → Bool
  | .accepted _ => true
  | .mismatch _ => false

end Application

/-- Groups of binary operators with one rule for their operands. -/
inductive OperatorGroup
  /-- Sums: two numbers; the result has the wider type. -/
  | term
  /-- Products: as sums. -/
  | factor
  /-- Two integral numbers; the result has the wider type. -/
  | bitwise
  /-- Two numbers, or two values of one type other than void. -/
  | equality
  /-- Two numbers. -/
  | comparison
  /-- Two bools. -/
  | logical
  deriving DecidableEq, Repr

namespace OperatorGroup

def of : BinaryOp → OperatorGroup
  | .add | .sub => .term
  | .mul | .div | .mod => .factor
  | .bitAnd | .bitOr | .bitXor | .shl | .shr => .bitwise
  | .eq | .notEq => .equality
  | .lt | .ltEq | .gt | .gtEq => .comparison
  | .and | .or => .logical

def name : OperatorGroup → String
  | .term => "Term"
  | .factor => "Factor"
  | .bitwise => "Bitwise"
  | .equality => "Equality"
  | .comparison => "Comparison"
  | .logical => "Logical"

def nominal : OperatorGroup → TypeId
  | .term | .factor | .bitwise => .integer
  | .equality | .comparison | .logical => .bool

/-- Whether both types have a property; the right one is only looked at if the left one has. -/
def both (p : TypeId → Except Fault Bool) (left right : TypeId) : Except Fault Bool := do
  if ← p left then p right else return false

/-- Type of the result if the operands are accepted. -/
def accepts (types : TypeTable) (left right : TypeId) : OperatorGroup → Except Fault (Option TypeId)
  | .term | .factor => do
    if ← both types.isNumeric left right then return some (← types.wider left right)
    return none
  | .bitwise => do
    if ← both types.isIntegral left right then return some (← types.wider left right)
    return none
  | .equality => do
    if ← both types.isNumeric left right then return some .bool
    if ← types.equal left right then return if left = .void then none else some .bool
    return none
  | .comparison => do
    if ← both types.isNumeric left right then return some .bool
    return none
  | .logical => return if left = .bool ∧ right = .bool then some .bool else none

end OperatorGroup

/-- Checks `left op right`. An invalid operand was reported where it arose, so it is accepted. -/
def checkBinary (types : TypeTable) (op : BinaryOp) (left right : TypeId) :
    Except Fault Application := do
  let group := OperatorGroup.of op
  if left = .invalid ∨ right = .invalid then return .accepted group.nominal
  match ← group.accepts types left right with
  | some type => return .accepted type
  | none => return .mismatch group.nominal

namespace UnaryOp

def nominal : UnaryOp → TypeId
  | .not => .bool
  | _ => .integer

def accepts (types : TypeTable) (operand : TypeId) : UnaryOp → Except Fault Bool
  | .neg | .plus | .preInc | .preDec => types.isNumeric operand
  | .bitNot => types.isIntegral operand
  | .not => return operand = .bool

end UnaryOp

/-- Checks a unary application; the result has the type of the operand. -/
def checkUnary (types : TypeTable) (op : UnaryOp) (operand : TypeId) :
    Except Fault Application := do
  if operand = .invalid then return .accepted op.nominal
  if ← op.accepts types operand then return .accepted operand
  return .mismatch op.nominal

end FrontEnd
