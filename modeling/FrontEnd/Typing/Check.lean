import FrontEnd.Report.Queue
import FrontEnd.Syntax.Tree
import FrontEnd.Typing.Lookup
import FrontEnd.Typing.Operators

/-!
The checker: infers the type of every node of an expression, records it there, and reports what
does not fit.
-/

namespace FrontEnd

/-- What the checker changes: types and link names in the tree, and the queue. -/
structure CheckState where
  tree : Tree
  reports : Queue

abbrev Check := EStateM Fault CheckState

namespace Check

variable (env : Env)

def expr (id : ExprId) : Check Expr := do ofExcept ((← get).tree.expr id)

def setExpr (id : ExprId) (e : Expr) : Check Unit := do
  let s ← get
  let tree ← ofExcept (s.tree.setExpr id e)
  set { s with tree }

def span (id : ExprId) : Check Span := return (← expr id).span

/-- Records the type of a node. -/
def record (id : ExprId) (type : TypeId) : Check Unit := do
  setExpr id { ← expr id with type }

def report (code : ErrorCode) (span : Span) (message label : String) : Check Unit := do
  let s ← get
  let reports ← ofExcept (s.reports.emitSpanned (Report.on code message span label) env.lines)
  set { s with reports }

def describe (type : TypeId) : Check String := ofExcept (env.types.describe env.names type)

/-- A type in the quotes that messages put around it. -/
def quote (type : TypeId) : Check String := return "`" ++ (← describe env type) ++ "`"

def quoteName (name : Name) : String := "`" ++ env.names.lookup name ++ "`"

/-! ### Inference -/

def inferVar (name : Name) (span : Span) : Check TypeId := do
  match env.resolveVar name with
  | some type => return type
  | none =>
    report env .undefinedVariable span ("undefined variable " ++ quoteName env name)
      "not found in this scope"
    return .invalid

/-- The type of an application, after a report if its operands do not fit. -/
def settle (result : Application) (span : Span) (message : Check String) (label : String) :
    Check TypeId := do
  unless result.isAccepted do report env .operands span (← message) label
  return result.type

def applyUnary (op : UnaryOp) (operand : TypeId) (span : Span) : Check TypeId := do
  settle env (← ofExcept (checkUnary env.types op operand)) span
    (do return "operator `" ++ op.symbol ++ "` cannot be applied to " ++ (← quote env operand))
    "invalid operand"

/-- The complaint about two operands of an operator. -/
def operandsMessage (symbol : String) (left right : TypeId) : Check String := do
  return "operator `" ++ symbol ++ "` cannot be applied to " ++ (← quote env left) ++ " and " ++
    (← quote env right)

def applyBinary (symbol : String) (op : BinaryOp) (left right : TypeId) (span : Span) :
    Check TypeId := do
  settle env (← ofExcept (checkBinary env.types op left right)) span
    (operandsMessage env symbol left right) "mismatched operands"

/-- Type of what an assignment stores. -/
def storedType (op : AssignOp) (target value : TypeId) (span : Span) : Check TypeId := do
  match op with
  | .assign => return value
  | .compound binary => applyBinary env op.symbol binary target value span
  | .complement =>
    settle env (← ofExcept (checkUnary env.types .bitNot value)) span
      (operandsMessage env op.symbol target value) "mismatched operands"

def inferCall (id : ExprId) (callee : Name) (args : List TypeId) (span : Span) :
    Check TypeId := do
  match ← ofExcept (env.resolveCall callee args) with
  | some resolved =>
    let call ← expr id
    if let .call callee list _ := call.kind then
      setExpr id { call with kind := .call callee list (some resolved.mangled) }
    return resolved.ret
  | none =>
    if env.functionDeclared callee then
      let listed := ", ".intercalate (← args.mapM (quote env))
      report env .noOverload span
        ("no overload of " ++ quoteName env callee ++ " accepts (" ++ listed ++ ")")
        "no matching overload"
    else
      report env .undefinedFunction span ("undefined function " ++ quoteName env callee)
        "not found in this scope"
    return .invalid

def unknownMember (type : TypeId) (field : Name) (span : Span) : Check TypeId := do
  report env .unknownMember span
    ((← quote env type) ++ " has no member " ++ quoteName env field) "unknown member"
  return .invalid

/-- A variant of a type, which is the type itself; only enums have any. -/
def variantType (type : TypeId) (variant : Name) (span : Span) : Check TypeId := do
  match ← ofExcept (env.types.kind type) with
  | .enum _ variants =>
    if variants.contains variant then return type else unknownMember env type variant span
  | _ => unknownMember env type variant span

/-- Type of a member of a value: that of a field, or the enum of a variant. -/
def memberType (type : TypeId) (field : Name) (span : Span) : Check TypeId := do
  match ← ofExcept (env.types.kind type) with
  | .basic .invalid => return .invalid
  | .struct _ fields =>
    match fields.find? (·.name == field) with
    | some found => return found.type
    | none => unknownMember env type field span
  | _ => variantType env type field span

/-- The type that the object of a member access names: a name that is no variable may be that of
an enum or a struct. -/
def typeNamed? (object : Expr) : Option TypeId :=
  match object.kind with
  | .var name => if (env.resolveVar name).isNone then env.resolveType name else none
  | _ => none

/-- Infers the type of one node, given inference for its children. -/
def inferNode (infer : ExprId → Check TypeId) (id : ExprId) : Check TypeId := do
  let e ← expr id
  match e.kind with
  | .error => return .invalid
  | .literal value => return value.kind.type
  | .str _ => return .cstring
  | .group inner => infer inner
  | .lambda type _ => return type
  | .var name => inferVar env name e.span
  | .unary op operand => applyUnary env op (← infer operand) e.span
  | .binary op left right =>
    let lhs ← infer left
    let rhs ← infer right
    applyBinary env op.symbol op lhs rhs e.span
  | .assign op target value =>
    let targetType ← infer target
    let valueType ← infer value
    let stored ← storedType env op targetType valueType e.span
    unless ← ofExcept (env.types.compatible stored targetType) do
      let message := "cannot assign " ++ (← quote env stored) ++ " to " ++ (← quote env targetType)
      report env .assignedType (← span value) message "assigned here"
    return targetType
  | .call callee args _ =>
    let args ← ((← get).tree.exprList args).mapM infer
    inferCall env id callee args e.span
  | .member object field =>
    match typeNamed? env (← expr object) with
    | some type =>
      record object type
      variantType env type field e.span
    | none => memberType env (← infer object) field e.span

/-- Infers the types of a node and of what is below it, at most `depth` levels. -/
def inferWithin : Nat → ExprId → Check TypeId
  | 0, _ => throw .endless
  | depth + 1, id => do
    let type ← inferNode env (inferWithin depth) id
    record id type
    return type

/-- Type of an expression, recorded in every node of it outside lambda bodies. -/
def infer (id : ExprId) : Check TypeId := do
  inferWithin env ((← get).tree.exprs.capacity + 1) id

/-! ### Statements -/

/-- `return` with or without a value; outside functions every value will do. -/
def checkReturn (value : Option ExprId) (expected : Option TypeId) (statement : Span) :
    Check Unit := do
  let actual ← value.mapM fun id => return (id, ← infer env id)
  let some expected := expected.filter (· ≠ .invalid) | return
  match actual with
  | none =>
    if expected ≠ .void then
      report env .returnType statement
        ("missing return value of type " ++ (← quote env expected)) "return without a value"
  | some (id, type) =>
    if type = .invalid then return
    if expected = .void then
      if type ≠ .void then
        let message :=
          "function returning `Void` cannot return a value of type " ++ (← quote env type)
        report env .returnType (← span id) message "unexpected value"
    else
      let fits ← if type = .void then pure false else ofExcept (env.types.compatible type expected)
      unless fits do
        let message := "expected return type " ++ (← quote env expected) ++ ", found " ++
          (← quote env type)
        report env .returnType (← span id) message "returned here"

/-- Whether values of a type can be printed. -/
def isPrintable (type : TypeId) : Except Fault Bool := do
  if type = .invalid ∨ type = .bool ∨ type = .cstring then return true
  if ← env.types.isNumeric type then return true
  match ← env.types.kind type with
  | .enum .. => return true
  | _ => return false

def checkPrint (value : ExprId) : Check Unit := do
  let type ← infer env value
  unless ← ofExcept (isPrintable env type) do
    let message := "cannot print a value of type " ++ (← quote env type)
    report env .printType (← span value) message "not printable"

def checkCondition (cond : ExprId) : Check Unit := do
  let type ← infer env cond
  let fits ←
    if type = .invalid ∨ type = .bool then pure true else ofExcept (env.types.isNumeric type)
  unless fits do
    let message := "condition must be `Bool` or numeric, found " ++ (← quote env type)
    report env .condition (← span cond) message "condition"

/-- The type that a variable gets: the declared one, or else that of its initializer. -/
def checkInitializer (name : Name) (declared : TypeId) (init : ExprId) : Check TypeId := do
  let type ← infer env init
  if declared = .invalid then return type
  unless ← ofExcept (env.types.compatible type declared) do
    let message := quoteName env name ++ " is declared " ++ (← quote env declared) ++
      " but initialized with " ++ (← quote env type)
    report env .initializer (← span init) message "initializer"
  return declared

end Check

end FrontEnd
