import FrontEnd.Numeral.Shortest
import FrontEnd.Syntax.Node

/-! Text of a single node as a record, with its children as handles. -/

namespace FrontEnd

namespace Record

/-- A record with named fields. -/
def fields (name : String) (parts : List (String × String)) : String :=
  name ++ " \x7b " ++ ", ".intercalate (parts.map fun (field, value) => field ++ ": " ++ value) ++
    " \x7d"

/-- A record with one field that has no name. -/
def single (name value : String) : String := name ++ "(" ++ value ++ ")"

def option {α : Type} (text : α → String) : Option α → String
  | some a => single "Some" (text a)
  | none => "None"

def name (n : Name) : String := single "Name" (toString n.index)

def type (id : TypeId) : String := single "TypeId" (toString id.slot)

def expr (id : ExprId) : String := single "ExprId" (toString id.slot)

def stmt (id : StmtId) : String := single "StmtId" (toString id.slot)

def range (sort : String) (r : ListRange) : String :=
  fields sort [("start", toString r.start), ("len", toString r.len)]

def literal : Value → String
  | .char v => single "Char" (toString v.toNat)
  | .int v => single "Int" (toString v.toInt)
  | .long v => single "Long" (toString v.toInt)
  | .float v => single "Float" (BinaryFormat.single.text v.toBits.toNat)
  | .double v => single "Double" (BinaryFormat.double.text v.toBits.toNat)
  | .bool v => single "Bool" (toString v)

def assignOp : AssignOp → String
  | .assign => "Assign"
  | .compound op => single "Compound" op.name
  | .complement => "Complement"

def exprKind : ExprKind → String
  | .error => "Error"
  | .literal value => literal value
  | .str text => single "Str" (name text)
  | .unary op operand => fields "Unary" [("op", op.name), ("operand", expr operand)]
  | .binary op left right =>
    fields "Binary" [("op", op.name), ("left", expr left), ("right", expr right)]
  | .assign op target value =>
    fields "Assign" [("op", assignOp op), ("target", expr target), ("value", expr value)]
  | .var n => single "Var" (name n)
  | .call callee args mangled =>
    fields "Call" [("callee", name callee), ("args", range "ExprRange" args),
      ("mangled", option name mangled)]
  | .member object field => fields "Member" [("object", expr object), ("field", name field)]
  | .lambda ty body => fields "Lambda" [("ty", type ty), ("body", stmt body)]
  | .group inner => single "Group" (expr inner)

def stmtKind : StmtKind → String
  | .error => "Error"
  | .expr e => single "Expr" (expr e)
  | .block body => single "Block" (range "StmtRange" body)
  | .ret value => single "Return" (option expr value)
  | .print value => single "Print" (expr value)
  | .varDecl n ty init isConst =>
    fields "VarDecl" [("name", name n), ("ty", type ty), ("init", option expr init),
      ("is_const", toString isConst)]
  | .funcDecl n mangled ty body isNative =>
    fields "FuncDecl" [("name", name n), ("mangled", name mangled), ("ty", type ty),
      ("body", option stmt body), ("is_native", toString isNative)]
  | .structDecl n ty => fields "StructDecl" [("name", name n), ("ty", type ty)]
  | .enumDecl n ty => fields "EnumDecl" [("name", name n), ("ty", type ty)]
  | .cond cond thenBranch elseBranch =>
    fields "If" [("cond", expr cond), ("then_branch", stmt thenBranch),
      ("else_branch", option stmt elseBranch)]
  | .loop cond body => fields "While" [("cond", expr cond), ("body", stmt body)]
  | .doLoop body cond => fields "DoWhile" [("body", stmt body), ("cond", expr cond)]
  | .namesp n body => fields "Namespace" [("name", name n), ("body", range "StmtRange" body)]
  | .using target => single "Using" (name target)

end Record

def Expr.record (e : Expr) : String :=
  Record.exprKind e.kind ++ ": " ++ Record.type e.type ++ " @ " ++ toString e.span

def Stmt.record (s : Stmt) : String := Record.stmtKind s.kind ++ " @ " ++ toString s.span

end FrontEnd
