import FrontEnd.Source.Span
import FrontEnd.Syntax.Operator
import FrontEnd.Types.Basic

/-! Nodes of syntax trees. Children are named by handles, lists of children by ranges. -/

namespace FrontEnd

structure ExprId where
  slot : Nat
  deriving DecidableEq, Repr, Inhabited

structure StmtId where
  slot : Nat
  deriving DecidableEq, Repr, Inhabited

/-- A list of nodes inside the table of all such lists. -/
structure ListRange where
  start : Nat
  len : Nat
  deriving DecidableEq, Repr

inductive ExprKind
  /-- Stands for an expression that could not be read. -/
  | error
  | literal (value : Value)
  /-- A string literal: what stands between the quotation marks, escapes as written. -/
  | str (text : Name)
  | unary (op : UnaryOp) (operand : ExprId)
  | binary (op : BinaryOp) (left right : ExprId)
  | assign (op : AssignOp) (target value : ExprId)
  | var (name : Name)
  /-- `mangled` is set once an overload is chosen. -/
  | call (callee : Name) (args : ListRange) (mangled : Option Name)
  | member (object : ExprId) (field : Name)
  | lambda (type : TypeId) (body : StmtId)
  | group (inner : ExprId)
  deriving DecidableEq, Repr

structure Expr where
  kind : ExprKind
  /-- Invalid until checked. -/
  type : TypeId
  canAssign : Bool
  /-- Every leaf is a literal or the name of a folded constant. -/
  isConstant : Bool
  span : Span
  deriving DecidableEq, Repr

def Expr.new (kind : ExprKind) (span : Span) : Expr :=
  { kind, type := .invalid, canAssign := false, isConstant := false, span }

/-- The literal that holds a value: typed and constant. -/
def Expr.ofValue (v : Value) (span : Span) : Expr :=
  { kind := .literal v, type := v.kind.type, canAssign := false, isConstant := true, span }

inductive StmtKind
  /-- Stands for a statement that could not be read. -/
  | error
  | expr (e : ExprId)
  | block (body : ListRange)
  | ret (value : Option ExprId)
  | print (value : ExprId)
  | varDecl (name : Name) (type : TypeId) (init : Option ExprId) (isConst : Bool)
  /-- A native function has no body. -/
  | funcDecl (name mangled : Name) (type : TypeId) (body : Option StmtId) (isNative : Bool)
  | structDecl (name : Name) (type : TypeId)
  | enumDecl (name : Name) (type : TypeId)
  | cond (cond : ExprId) (thenBranch : StmtId) (elseBranch : Option StmtId)
  | loop (cond : ExprId) (body : StmtId)
  | doLoop (body : StmtId) (cond : ExprId)
  | namesp (name : Name) (body : ListRange)
  | using (target : Name)
  deriving DecidableEq, Repr

structure Stmt where
  kind : StmtKind
  span : Span
  deriving DecidableEq, Repr

/-- Handle of a node of either sort. -/
inductive NodeId
  | expr (id : ExprId)
  | stmt (id : StmtId)
  deriving DecidableEq, Repr

end FrontEnd
