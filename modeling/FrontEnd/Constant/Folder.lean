import FrontEnd.Constant.Lowering
import FrontEnd.Constant.Machine
import FrontEnd.Symbol.Scope
import Std.Data.HashMap

/-!
The values of constants in scope, and the replacement of constant subtrees by literals. A subtree
without a value stays as it is.
-/

namespace FrontEnd

/-- Values of constants by name and depth. -/
structure Folder where
  bindings : Std.HashMap ScopedKey Value

namespace Folder

def empty : Folder := ⟨∅⟩

def size (f : Folder) : Nat := f.bindings.size

def isEmpty (f : Folder) : Bool := f.bindings.isEmpty

def bind (f : Folder) (key : ScopedKey) (value : Value) : Folder := ⟨f.bindings.insert key value⟩

def unbind (f : Folder) (key : ScopedKey) : Folder := ⟨f.bindings.erase key⟩

/-- The constant declared exactly there. -/
def bindingAt (f : Folder) (key : ScopedKey) : Option Value := f.bindings[key]?

/-- The constant that is visible at a depth: the innermost one. -/
def binding (f : Folder) (name : Name) : Nat → Option Value
  | 0 => f.bindingAt ⟨name, 0⟩
  | depth + 1 => f.bindingAt ⟨name, depth + 1⟩ <|> f.binding name depth

def isBound (f : Folder) (name : Name) (depth : Nat) : Bool := (f.binding name depth).isSome

/-- Drops the constants declared at a depth. -/
def leaveScope (f : Folder) (depth : Nat) : Folder :=
  ⟨f.bindings.filter fun key _ => key.depth != depth⟩

variable (f : Folder) (depth : Nat)

/-- Code for an expression at a depth, with the outcome of its generation. -/
def lower (tree : Tree) (id : ExprId) : EStateM.Result (Halt EvalError) Chunk Unit :=
  (Lowering.expr tree (f.isBound · depth) id).run .empty

/-- Value of an expression at a depth. -/
def evaluate (tree : Tree) (id : ExprId) : Except (Halt EvalError) Value := do
  match f.lower depth tree id with
  | .ok _ chunk => Halt.liftCause (Machine.run chunk (f.binding · depth))
  | .error e _ => throw e

/-- Children that are folded on their own: lambda bodies and the targets of assignments are
not. -/
def foldedChildren (tree : Tree) : ExprKind → List ExprId
  | .unary _ operand => [operand]
  | .binary _ left right => [left, right]
  | .assign _ _ value => [value]
  | .call _ args _ => tree.exprList args
  | .member object _ => [object]
  | .group inner => [inner]
  | .error | .literal _ | .str _ | .var _ | .lambda .. => []

/-- Folds one node, given folding for its children. -/
def foldNode (fold : ExprId → EStateM Fault Tree (Option Value)) (id : ExprId) :
    EStateM Fault Tree (Option Value) := do
  let e ← ofExcept ((← get).expr id)
  if let .literal value := e.kind then return some value
  if e.isConstant then
    match f.evaluate depth (← get) id with
    | .ok value =>
      set (← ofExcept ((← get).replaceExpr id (Expr.ofValue value e.span))).2
      return some value
    | .error (.cause _) => pure ()
    | .error (.fault fault) => throw fault
  for child in foldedChildren (← get) e.kind do
    let _ ← fold child
  return none

/-- Folds a node and what is below it, at most `levels` levels. -/
def foldWithin : Nat → ExprId → EStateM Fault Tree (Option Value)
  | 0, _ => throw .endless
  | levels + 1, id => f.foldNode depth (foldWithin levels) id

/-- Replaces every maximal subtree that has a value by a literal; the result is the value of the
whole, if it has one. -/
def fold (id : ExprId) : EStateM Fault Tree (Option Value) := do
  f.foldWithin depth ((← get).exprs.capacity + 1) id

end Folder

end FrontEnd
