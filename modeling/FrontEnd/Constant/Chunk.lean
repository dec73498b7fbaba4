import FrontEnd.Constant.Value
import FrontEnd.Name.Interner
import FrontEnd.Syntax.Operator

/-!
Code for constant expressions. An instruction is one byte; a push and a load are followed by an
index into the table of constants or names.
-/

namespace FrontEnd

inductive Opcode
  | push | pop
  /-- Pushes the value of a named constant. -/
  | load
  | add | sub | mul | div | mod
  | bitAnd | bitOr | bitXor | shl | shr
  | eq | notEq | lt | ltEq | gt | gtEq
  | and | or
  | neg | not | bitNot
  deriving DecidableEq, Repr

namespace Opcode

/-- The opcodes in the order of their bytes. -/
def all : List Opcode :=
  [.push, .pop, .load, .add, .sub, .mul, .div, .mod, .bitAnd, .bitOr, .bitXor, .shl, .shr, .eq,
   .notEq, .lt, .ltEq, .gt, .gtEq, .and, .or, .neg, .not, .bitNot]

def byte (op : Opcode) : UInt8 := op.ctorIdx.toUInt8

def ofByte? (byte : UInt8) : Option Opcode := all[byte.toNat]?

theorem ofByte?_byte (op : Opcode) : ofByte? op.byte = some op := by cases op <;> rfl

def mnemonic : Opcode → String
  | .push => "PUSH"
  | .pop => "POP"
  | .load => "LOAD"
  | .add => "ADD"
  | .sub => "SUB"
  | .mul => "MUL"
  | .div => "DIV"
  | .mod => "MOD"
  | .bitAnd => "AND"
  | .bitOr => "OR"
  | .bitXor => "XOR"
  | .shl => "SHL"
  | .shr => "SHR"
  | .eq => "EQ"
  | .notEq => "NE"
  | .lt => "LT"
  | .ltEq => "LE"
  | .gt => "GT"
  | .gtEq => "GE"
  | .and => "LAND"
  | .or => "LOR"
  | .neg => "NEG"
  | .not => "NOT"
  | .bitNot => "BNOT"

def ofMnemonic? (text : String) : Option Opcode := all.find? (·.mnemonic == text)

def ofBinary : BinaryOp → Opcode
  | .add => .add
  | .sub => .sub
  | .mul => .mul
  | .div => .div
  | .mod => .mod
  | .bitAnd => .bitAnd
  | .bitOr => .bitOr
  | .bitXor => .bitXor
  | .shl => .shl
  | .shr => .shr
  | .eq => .eq
  | .notEq => .notEq
  | .lt => .lt
  | .ltEq => .ltEq
  | .gt => .gt
  | .gtEq => .gtEq
  | .and => .and
  | .or => .or

/-- The opcode of a unary operator. A plus has no code, and what modifies its operand is never
constant. -/
def ofUnary? : UnaryOp → Option Opcode
  | .neg => some .neg
  | .not => some .not
  | .bitNot => some .bitNot
  | .plus | .preInc | .preDec => none

end Opcode

/-- Entries of the table of constants, and of the table of names: an index is one byte. -/
def tableLimit : Nat := 256

/-- Why an expression has no constant value. -/
inductive EvalError
  | notConstant
  | divisionByZero
  | operands (op : Opcode)
  | tooManyConstants
  | stackUnderflow
  | unbalanced (depth : Nat)
  | badOpcode (byte : UInt8)
  | unbound
  deriving DecidableEq, Repr

def EvalError.message : EvalError → String
  | .notConstant => "expression is not constant"
  | .divisionByZero => "integral division by zero"
  | .operands op => "`" ++ op.mnemonic ++ "` cannot be applied to these operands"
  | .tooManyConstants => "more than " ++ toString tableLimit ++ " constants in one chunk"
  | .stackUnderflow => "value stack underflow"
  | .unbalanced depth => toString depth ++ " values left on the stack"
  | .badOpcode byte => "invalid opcode " ++ hexBits 2 byte.toNat
  | .unbound => "constant binding no longer in scope"

structure Chunk where
  code : Array UInt8
  constants : Array Value
  names : Array Name
  deriving DecidableEq, Repr

namespace Chunk

def empty : Chunk := ⟨#[], #[], #[]⟩

def isEmpty (c : Chunk) : Bool := c.code.isEmpty

def op (c : Chunk) (op : Opcode) : Chunk := { c with code := c.code.push op.byte }

/-- An opcode and its index. -/
def indexed (c : Chunk) (op : Opcode) (index : Nat) : Chunk :=
  { c with code := (c.code.push op.byte).push index.toUInt8 }

/-- Pushes a new constant. -/
def pushConstant (c : Chunk) (value : Value) : Except EvalError Chunk :=
  let index := c.constants.size
  if index < tableLimit then
    .ok ({ c with constants := c.constants.push value }.indexed .push index)
  else .error .tooManyConstants

/-- Loads a name, which gets an entry the first time. -/
def load (c : Chunk) (name : Name) : Except EvalError Chunk :=
  match c.names.finIdxOf? name with
  | some index => .ok (c.indexed .load index)
  | none =>
    let index := c.names.size
    if index < tableLimit then .ok ({ c with names := c.names.push name }.indexed .load index)
    else .error .tooManyConstants

end Chunk

end FrontEnd
