import FrontEnd.Constant.Chunk
import FrontEnd.Numeral.Remainder

/-!
The stack machine that runs chunks. Arithmetic is done in the wider kind of the two operands;
integers wrap around.
-/

namespace FrontEnd

namespace Machine

def unary (op : Opcode) (value : Value) : Except EvalError Value :=
  match op, value with
  | .neg, .char v => .ok (.char (-v))
  | .neg, .int v => .ok (.int (-v))
  | .neg, .long v => .ok (.long (-v))
  | .neg, .float v => .ok (.float (-v))
  | .neg, .double v => .ok (.double (-v))
  | .not, .bool v => .ok (.bool (!v))
  | .bitNot, .char v => .ok (.char (~~~v))
  | .bitNot, .int v => .ok (.int (~~~v))
  | .bitNot, .long v => .ok (.long (~~~v))
  | _, _ => .error (.operands op)

/-! ### Arithmetic in one kind -/

/-- By how many bits a number of `width` bits is shifted. A count that does not fit 32 bits acts
as the greatest count that does. -/
def shiftCount (width : Nat) (count : Int) : Nat :=
  (if 0 ≤ count ∧ count < UInt32.size then count.toNat else UInt32.size - 1) % width

def charArithmetic (op : Opcode) (a b : UInt8) : Except EvalError UInt8 :=
  let count := (shiftCount 8 b.toNat).toUInt8
  match op with
  | .add => .ok (a + b)
  | .sub => .ok (a - b)
  | .mul => .ok (a * b)
  | .div => if b = 0 then .error .divisionByZero else .ok (a / b)
  | .mod => if b = 0 then .error .divisionByZero else .ok (a % b)
  | .bitAnd => .ok (a &&& b)
  | .bitOr => .ok (a ||| b)
  | .bitXor => .ok (a ^^^ b)
  | .shl => .ok (a <<< count)
  | .shr => .ok (a >>> count)
  | _ => .error (.operands op)

def intArithmetic (op : Opcode) (a b : Int32) : Except EvalError Int32 :=
  let count := Int32.ofNat (shiftCount 32 b.toInt)
  match op with
  | .add => .ok (a + b)
  | .sub => .ok (a - b)
  | .mul => .ok (a * b)
  | .div => if b = 0 then .error .divisionByZero else .ok (a / b)
  | .mod => if b = 0 then .error .divisionByZero else .ok (a % b)
  | .bitAnd => .ok (a &&& b)
  | .bitOr => .ok (a ||| b)
  | .bitXor => .ok (a ^^^ b)
  | .shl => .ok (a <<< count)
  | .shr => .ok (a >>> count)
  | _ => .error (.operands op)

def longArithmetic (op : Opcode) (a b : Int64) : Except EvalError Int64 :=
  let count := Int64.ofNat (shiftCount 64 b.toInt)
  match op with
  | .add => .ok (a + b)
  | .sub => .ok (a - b)
  | .mul => .ok (a * b)
  | .div => if b = 0 then .error .divisionByZero else .ok (a / b)
  | .mod => if b = 0 then .error .divisionByZero else .ok (a % b)
  | .bitAnd => .ok (a &&& b)
  | .bitOr => .ok (a ||| b)
  | .bitXor => .ok (a ^^^ b)
  | .shl => .ok (a <<< count)
  | .shr => .ok (a >>> count)
  | _ => .error (.operands op)

def floatArithmetic (op : Opcode) (a b : Float32) : Except EvalError Float32 :=
  match op with
  | .add => .ok (a + b)
  | .sub => .ok (a - b)
  | .mul => .ok (a * b)
  | .div => .ok (a / b)
  | .mod =>
    .ok (Float32.ofBits (BinaryFormat.single.remainder a.toBits.toNat b.toBits.toNat).toUInt32)
  | _ => .error (.operands op)

def doubleArithmetic (op : Opcode) (a b : Float) : Except EvalError Float :=
  match op with
  | .add => .ok (a + b)
  | .sub => .ok (a - b)
  | .mul => .ok (a * b)
  | .div => .ok (a / b)
  | .mod =>
    .ok (Float.ofBits (BinaryFormat.double.remainder a.toBits.toNat b.toBits.toNat).toUInt64)
  | _ => .error (.operands op)

/-! ### Binary operations -/

/-- Applies `f` to both operands, read by `as?`. -/
def both {α β : Type} (op : Opcode) (as? : Value → Option α) (f : α → α → Except EvalError β)
    (left right : Value) : Except EvalError β :=
  match as? left, as? right with
  | some a, some b => f a b
  | _, _ => .error (.operands op)

def arithmetic (op : Opcode) (left right : Value) : Except EvalError Value :=
  match left.kind.wider right.kind with
  | some .char => .char <$> both op Value.asChar? (charArithmetic op) left right
  | some .integer => .int <$> both op Value.asInt? (intArithmetic op) left right
  | some .long => .long <$> both op Value.asLong? (longArithmetic op) left right
  | some .float => .float <$> both op Value.asFloat? (floatArithmetic op) left right
  | some .double => .double <$> both op Value.asDouble? (doubleArithmetic op) left right
  | some .bool | none => .error (.operands op)

/-- Order of two numbers: integers as long ones, others as doubles. A double that is not a number
has no order. -/
def compare (op : Opcode) (left right : Value) : Except EvalError Ordering :=
  match left.kind.wider right.kind with
  | none => .error (.operands op)
  | some kind =>
    if kind.isIntegral then
      both op Value.asLong? (fun a b => .ok (compareOfLessAndEq a b)) left right
    else
      both op Value.asDouble?
        (fun a b =>
          if a < b then .ok .lt else if b < a then .ok .gt
          else if a == b then .ok .eq else .error (.operands op))
        left right

def equal (op : Opcode) (left right : Value) : Except EvalError Bool :=
  match left, right with
  | .bool a, .bool b => .ok (a == b)
  | _, _ => (· == .eq) <$> compare op left right

def binary (op : Opcode) (left right : Value) : Except EvalError Value :=
  match op with
  | .and | .or =>
    match left, right with
    | .bool a, .bool b => .ok (.bool (if op = .and then a && b else a || b))
    | _, _ => .error (.operands op)
  | .eq => .bool <$> equal op left right
  | .notEq => (fun same => .bool (!same)) <$> equal op left right
  | .lt => (fun order => .bool order.isLT) <$> compare op left right
  | .ltEq => (fun order => .bool order.isLE) <$> compare op left right
  | .gt => (fun order => .bool order.isGT) <$> compare op left right
  | .gtEq => (fun order => .bool order.isGE) <$> compare op left right
  | _ => arithmetic op left right

/-! ### Runs -/

/-- What an opcode without an index does to the stack, whose top comes first. -/
def apply (op : Opcode) (stack : List Value) : Except EvalError (List Value) :=
  match op, stack with
  | .pop, _ :: stack => .ok stack
  | .neg, v :: stack | .not, v :: stack | .bitNot, v :: stack => (· :: stack) <$> unary op v
  | .pop, [] | .neg, [] | .not, [] | .bitNot, [] => .error .stackUnderflow
  | _, right :: left :: stack => (· :: stack) <$> binary op left right
  | _, _ => .error .stackUnderflow

/-- The value that a push or load finds at its index. -/
def fetch (chunk : Chunk) (bindings : Name → Option Value) (op : Opcode) (index : Nat) :
    Except EvalError Value :=
  if op = .push then
    match chunk.constants[index]? with
    | some value => .ok value
    | none => .error (.badOpcode op.byte)
  else
    match chunk.names[index]? with
    | some name =>
      match bindings name with
      | some value => .ok value
      | none => .error .unbound
    | none => .error (.badOpcode op.byte)

/-- Runs the rest of the code. -/
def exec (chunk : Chunk) (bindings : Name → Option Value) :
    List UInt8 → List Value → Except EvalError (List Value)
  | [], stack => .ok stack
  | byte :: code, stack =>
    match Opcode.ofByte? byte with
    | none => .error (.badOpcode byte)
    | some op =>
      if op = .push ∨ op = .load then
        match code with
        | [] => .error .stackUnderflow
        | index :: code => do
          let value ← fetch chunk bindings op index.toNat
          exec chunk bindings code (value :: stack)
      else do
        let stack ← apply op stack
        exec chunk bindings code stack

/-- Runs a chunk, which must leave one value. -/
def run (chunk : Chunk) (bindings : Name → Option Value) : Except EvalError Value := do
  match ← exec chunk bindings chunk.code.toList [] with
  | [value] => .ok value
  | stack => .error (.unbalanced stack.length)

end Machine

end FrontEnd
