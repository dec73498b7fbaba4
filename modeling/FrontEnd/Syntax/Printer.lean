import FrontEnd.Syntax.Tree
import FrontEnd.Types.Printer

/-!
Text of trees. A node is written in parentheses, its children inside it, with its span behind it;
an expression has its type and flags there too.
-/

namespace FrontEnd

/-- What the text of a tree depends on. -/
structure Printer where
  tree : Tree
  types : TypeTable
  names : Interner
  /-- Write the slots of nodes and types. -/
  withIds : Bool

namespace Printer

variable (p : Printer)

def name (n : Name) : String := p.names.lookup n

def type (id : TypeId) : Except Fault String := p.types.typeText p.names p.withIds id

/-- A node around its words. -/
def node (slot : Nat) (words : List String) (span : Span) : String :=
  "(" ++ " ".intercalate words ++ ")" ++ (if p.withIds then "#" ++ toString slot else "") ++ "@" ++
    toString span

def flags (e : Expr) : String :=
  (if e.canAssign then "!a" else "") ++ if e.isConstant then "!c" else ""

/-- The words of an assignment operator. -/
def assignWords : AssignOp → List String
  | .complement => ["assign", "complement", AssignOp.complement.symbol]
  | op => ["assign", op.symbol]

/-- Text of the children of a node, given the text of one. -/
def texts (text : NodeId → Except Fault String) (nodes : List NodeId) :
    Except Fault (List String) := nodes.mapM text

/-- Words of an expression, given the text of its children. -/
def exprWords (text : NodeId → Except Fault String) (kind : ExprKind) :
    Except Fault (List String) := do
  match kind with
  | .error => return ["error"]
  | .literal value => return [value.text]
  | .str contents => return ["str", "\"" ++ p.name contents ++ "\""]
  | .unary op operand => return ["unary", op.symbol] ++ (← texts text [.expr operand])
  | .binary op left right =>
    return ["binary", op.symbol] ++ (← texts text [.expr left, .expr right])
  | .assign op target value => return assignWords op ++ (← texts text [.expr target, .expr value])
  | .var name => return ["var", p.name name]
  | .call callee args mangled =>
    return ["call", p.name callee, (mangled.map p.name).getD "?"] ++
      (← texts text ((p.tree.exprList args).map .expr))
  | .member object field => return "member" :: (← texts text [.expr object]) ++ [p.name field]
  | .lambda type body => return ["lambda", ← p.type type] ++ (← texts text [.stmt body])
  | .group inner => return "group" :: (← texts text [.expr inner])

/-- Names of the parameters of a function type. -/
def paramNames (type : TypeId) : Except Fault String := do
  let names := (← p.types.function? type).elim [] Signature.paramNames
  return "[" ++ ",".intercalate (names.map p.name) ++ "]"

/-- Words of a statement, given the text of its children. -/
def stmtWords (text : NodeId → Except Fault String) (kind : StmtKind) :
    Except Fault (List String) := do
  match kind with
  | .error => return ["error-stmt"]
  | .expr e => return "expr" :: (← texts text [.expr e])
  | .block body => return "block" :: (← texts text ((p.tree.stmtList body).map .stmt))
  | .ret value => return "return" :: (← texts text (value.map .expr).toList)
  | .print value => return "print" :: (← texts text [.expr value])
  | .varDecl name type init isConst =>
    return [if isConst then "const" else "decl", p.name name, ← p.type type] ++
      (← texts text (init.map .expr).toList)
  | .funcDecl name mangled type body isNative =>
    return [if isNative then "native" else "func", p.name name, p.name mangled, ← p.type type,
      ← p.paramNames type] ++ (← texts text (body.map .stmt).toList)
  | .structDecl name type =>
    return ["struct", p.name name, ← p.types.infoText p.names p.withIds type]
  | .enumDecl name type =>
    return ["enum", p.name name, ← p.types.infoText p.names p.withIds type]
  | .cond cond thenBranch elseBranch =>
    return "if" :: (← texts text ([.expr cond, .stmt thenBranch] ++ (elseBranch.map .stmt).toList))
  | .loop cond body => return "while" :: (← texts text [.expr cond, .stmt body])
  | .doLoop body cond => return "do" :: (← texts text [.stmt body, .expr cond])
  | .namesp name body =>
    return ["namespace", p.name name] ++ (← texts text ((p.tree.stmtList body).map .stmt))
  | .using target => return ["using", p.name target]

/-- Text of a node, given the text of its children. -/
def nodeText (text : NodeId → Except Fault String) : NodeId → Except Fault String
  | .expr id => do
    let e ← p.tree.expr id
    let words ← p.exprWords text e.kind
    return p.node id.slot words e.span ++ ":" ++ (← p.type e.type) ++ flags e
  | .stmt id => do
    let s ← p.tree.stmt id
    return p.node id.slot (← p.stmtWords text s.kind) s.span

/-- Text of a node and what is below it, at most `depth` levels. -/
def within : Nat → NodeId → Except Fault String
  | 0, _ => .error .endless
  | depth + 1, id => p.nodeText (within depth) id

def text (id : NodeId) : Except Fault String := p.within (p.tree.capacity + 1) id

end Printer

end FrontEnd
