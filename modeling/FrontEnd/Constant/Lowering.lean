import FrontEnd.Constant.Chunk
import FrontEnd.Syntax.Tree

/-!
Code for expressions: literals are pushed, bound names loaded, and operators follow their
operands. Nothing else is constant.
-/

namespace FrontEnd

/-- Appends code to a chunk. What was appended before a failure stays there. -/
abbrev Lowering := EStateM (Halt EvalError) Chunk

namespace Lowering

/-- One step of code generation. -/
def emit (step : Chunk → Except EvalError Chunk) : Lowering Unit := do
  match step (← get) with
  | .ok chunk => set chunk
  | .error e => throw (.cause e)

def emitOp (op : Opcode) : Lowering Unit := emit fun chunk => .ok (chunk.op op)

variable (tree : Tree) (isBound : Name → Bool)

/-- Code for one node, given code for its children. -/
def node (lower : ExprId → Lowering Unit) (id : ExprId) : Lowering Unit := do
  let e ← ofExcept (Halt.liftFault (tree.expr id))
  match e.kind with
  | .literal value => emit (·.pushConstant value)
  | .group inner => lower inner
  | .var name =>
    if e.isConstant && isBound name then emit (·.load name) else throw (.cause .notConstant)
  | .binary op left right =>
    lower left
    lower right
    emitOp (Opcode.ofBinary op)
  | .unary op operand =>
    if op.mutates then throw (.cause .notConstant)
    lower operand
    if let some code := Opcode.ofUnary? op then emitOp code
  | _ => throw (.cause .notConstant)

/-- Code for a node and what is below it, at most `depth` levels. -/
def within : Nat → ExprId → Lowering Unit
  | 0, _ => throw (.fault .endless)
  | depth + 1, id => node tree isBound (within depth) id

/-- Appends the code that computes an expression. -/
def expr (id : ExprId) : Lowering Unit := within tree isBound (tree.exprs.capacity + 1) id

end Lowering

end FrontEnd
