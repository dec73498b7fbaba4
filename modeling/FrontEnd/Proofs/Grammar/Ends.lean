import FrontEnd.Grammar.Program

/-! How a production goes on from a point that it reaches in several ways. -/

namespace FrontEnd

namespace Parse

section

variable (parse : Productions)

/-- A signature, from its closing parenthesis on. -/
def signatureEnd (params : List (TypeId × Name) × Bool) : Parse TypeId := do
  let _ ← expect .closeParen
  let ret ← if ← eat .thinArrow then parse .type else pure .void
  addFunction ⟨params.1.map Prod.fst, params.1.map Prod.snd, ret, params.2⟩

/-- A function that has a link name, from its body on. -/
def bodyEnd (stored mangled : Name) (type : TypeId) (start : Span) : Parse StmtId := do
  let body ← functionBody parse type
  addStmt (.funcDecl stored mangled type (some body) false) (← spanFrom start)

/-- A declaration of a function, once its type is settled. -/
def functionEnd (name : Name) (type : TypeId) (start : Span) : Parse StmtId := do
  let stored ← declaredName name
  let mangled ← match ← ofFault ((← get).types.function? type) with
    | some signature => declareFunction stored type signature false
    | none => pure stored
  bodyEnd parse stored mangled type start

/-- A declaration, from the value that follows its equals sign on. -/
def initializerEnd (name : Name) (declared : Option TypeId) (isConst : Bool) (start : Span) :
    Parse StmtId := do
  if ← currentIs .kwFunc then functionDecl parse name declared start
  else
    let init ← parse .value
    variableDecl name declared (some init) isConst start

/-- A declaration, from behind its type on. -/
def declarationEnd (name : Name) (declared : Option TypeId) (isConst : Bool) (start : Span) :
    Parse StmtId := do
  if ← eat .equal then initializerEnd parse name declared isConst start
  else variableDecl name declared none isConst start

/-- A struct or enum, the members of which a production reads. -/
def typeDecl (members : Production) (kind : members.Result → Name → TypeKind)
    (form : Name → TypeId → StmtKind) : Parse StmtId := do
  let start := (← advance).span
  let (name, _) ← expectName
  let _ ← expect .openBrace
  let read ← parse members
  let span ← closeType start
  let (stored, type) ← declareType name fun types stored => types.add (kind read stored) stored
  addStmt (form stored type) span

theorem structDecl_eq : structDecl parse =
    typeDecl parse (.fields []) (fun fields stored => .struct stored fields) .structDecl := rfl

theorem enumDecl_eq : enumDecl parse =
    typeDecl parse .variants (fun variants stored => .enum stored variants) .enumDecl := rfl

/-- How a body goes on after a statement that began at `start`. -/
def afterItem (start : Span) : Except Stop StmtId → Parse (List StmtId)
  | .ok id => return id :: (← parse .items)
  | .error .reported => do
    synchronize start
    parse .items
  | .error stop => throw stop

/-- How a program goes on. -/
def afterStmt (start : Span) : Except Stop StmtId → Parse (List StmtId)
  | .ok id => return id :: (← parse .program)
  | .error .reported => do
    synchronize start
    parse .program
  | .error (.exhausted cause) => do
    reportExhausted cause
    return []
  | .error (.fault f) => throw (.fault f)

end

/-! ### Expressions -/

def groupEnd (inner : ExprId) (span : Span) : Parse ExprId := do
  addConstant (.group inner) span (← expr inner).isConstant

def unaryEnd (op : UnaryOp) (start : Span) (id : ExprId) : Parse ExprId := do
  let operand ← expr id
  let span := start.merge operand.span
  if op.mutates && !operand.canAssign then
    report .invalidTarget operand.span ("`" ++ op.symbol ++ "` needs an assignable operand")
      "cannot be modified"
    release id
    errorExpr span
  else
    addConstant (.unary op id) span (operand.isConstant && !op.mutates)

def binaryEnd (op : BinaryOp) (left right : ExprId) : Parse ExprId := do
  let lhs ← expr left
  let rhs ← expr right
  addConstant (.binary op left right) (lhs.span.merge rhs.span) (lhs.isConstant && rhs.isConstant)

def assignmentEnd (op : AssignOp) (target value : ExprId) : Parse ExprId := do
  let lhs ← expr target
  let span := lhs.span.merge (← expr value).span
  if lhs.canAssign then
    addExpr (.assign op target value) span
  else
    report .invalidTarget lhs.span ("invalid left-hand side of `" ++ op.symbol ++ "`")
      "cannot be assigned to"
    release target
    release value
    errorExpr span

/-- The name of a function becomes the call of it. -/
def makeCall (left : ExprId) (callee : Name) (args : List ExprId) (span : Span) :
    Parse ExprId := do
  let s ← get
  let (list, tree) := s.tree.addExprList args
  let tree ← ofFault (tree.setExpr left (Expr.new (.call callee list none) span))
  set { s with tree }
  return left

def callEnd (left : ExprId) (object : Expr) (args : List ExprId) (span : Span) : Parse ExprId := do
  match object.kind with
  | .var callee =>
    let s ← get
    let (list, tree) := s.tree.addExprList args
    let tree ← ofFault (tree.setExpr left (Expr.new (.call callee list none) span))
    set { s with tree }
    return left
  | _ =>
    report .unexpectedToken object.span "only named functions can be called"
      "not a function name"
    release left
    args.forM release
    errorExpr span

theorem callEnd_of_var {object : Expr} {callee : Name} (hk : object.kind = .var callee)
    (left : ExprId) (args : List ExprId) (span : Span) :
    callEnd left object args span = makeCall left callee args span := by
  unfold callEnd makeCall
  rw [hk]

theorem callEnd_of_other {object : Expr} (hk : ∀ callee, object.kind ≠ .var callee)
    (left : ExprId) (args : List ExprId) (span : Span) :
    callEnd left object args span = (do
      report .unexpectedToken object.span "only named functions can be called"
        "not a function name"
      (left :: args).forM release
      errorExpr span) := by
  unfold callEnd
  split
  next callee h => exact absurd h (hk callee)
  next => simp only [List.forM_eq_forM, List.forM_cons, bind_assoc]

/-- A call, from behind its arguments on. -/
def endCall (left : ExprId) (object : Expr) (args : List ExprId) : Parse ExprId := do
  let _ ← expect .closeParen
  callEnd left object args (← spanFrom object.span)

/-! ### Statements -/

/-- A `return`, from behind its value on. -/
def returnEnd (start : Span) (value : Option ExprId) : Parse StmtId := do
  let expected := (← get).returns.head?
  let span ← spanFrom start
  check fun env => Check.checkReturn env value expected span
  if let some id := value then
    let _ ← fold id
  addStmt (.ret value) (← closeStmt start)

/-- A native function, from its semicolon on. -/
def nativeEnd (name : Name) (type : TypeId) (signature : Option Signature) (start : Span) :
    Parse StmtId := do
  let _ ← expect .semicolon
  let span ← spanFrom start
  match signature with
  | none => addStmt .error span
  | some signature =>
    let stored ← declaredName name
    let mangled ← declareFunction stored type signature true
    addStmt (.funcDecl stored mangled type none true) span

/-- A variable, from the semicolon of its declaration on. -/
def variableEnd (name : Name) (type : TypeId) (init : Option ExprId) (isConst : Bool)
    (value : Option Value) (start : Span) : Parse StmtId := do
  let _ ← expect .semicolon
  let span ← spanFrom start
  let stored ← declaredName name
  declareVariable stored type isConst value
  addStmt (.varDecl stored type init isConst) span

end Parse

end FrontEnd
