import FrontEnd.Grammar.Body
import FrontEnd.Grammar.TypeName
import FrontEnd.Token.Literal

/-!
Expressions, by precedence climbing. A unary operator binds tighter than every infix operator and
looser than calls and member accesses. A node is constant if all its leaves are literals or folded
constants, and assignable if it is a variable or a member of one.
-/

namespace FrontEnd

namespace Parse

variable (parse : Productions)

/-- Stands for an expression that was read and reported. -/
def errorExpr (span : Span) : Parse ExprId := addExpr .error span

/-! ### Operands -/

/-- How messages name the type of a literal. -/
def literalType : TokenKind → String
  | .intLit => "int"
  | .longLit => "long"
  | .floatLit => "float"
  | .doubleLit => "double"
  | .charLit => "char"
  | _ => "bool"

def literal (token : Token) : Parse ExprId := do
  let lexeme := (← get).window.lexeme token
  let _ ← advance
  match literalValue? token.kind lexeme with
  | some value => addConstant (.literal value) token.span true
  | none =>
    report .literalRange token.span
      ("literal `" ++ lexeme ++ "` does not fit in `" ++ literalType token.kind ++ "`")
      "out of range"
    errorExpr token.span

def stringLiteral (token : Token) : Parse ExprId := do
  let lexeme := (← get).window.lexeme token
  let _ ← advance
  let text ← intern (Literal.stringContents lexeme)
  addExpr (.str text) token.span

/-- Whether the innermost declaration of a name is a folded constant. -/
def isConstantName (name : Name) : Parse Bool := do
  let s ← get
  match VarTable.resolve s.symbols.vars name s.scope.depth with
  | some (_, depth) => return (s.folder.bindingAt ⟨name, depth⟩).isSome
  | none => return false

/-- The name of a variable, which can be assigned, or of a folded constant. -/
def nameExpr : Parse ExprId := do
  let (name, span) ← expectName
  if ← isConstantName name then addConstant (.var name) span true
  else addTarget (.var name) span true

def group : Parse ExprId := do
  let start := (← advance).span
  let inner ← parse .value
  let _ ← expect .closeParen
  addConstant (.group inner) (← spanFrom start) (← expr inner).isConstant

/-- A function literal. -/
def lambda : Parse ExprId := do
  let start := (← advance).span
  let type ← signature parse
  let body ← functionBody parse type
  addExpr (.lambda type body) (← spanFrom start)

def primary : Parse ExprId := do
  let token ← current
  match token.kind with
  | .intLit | .longLit | .floatLit | .doubleLit | .charLit | .kwTrue | .kwFalse => literal token
  | .stringLit => stringLiteral token
  | .ident => nameExpr
  | .openParen => group parse
  | .kwFunc => lambda parse
  | _ => expected .expectedExpression "expression"

/-- Prefix operators and what they apply to. -/
def unary : Parse ExprId := do
  match UnaryOp.ofToken? (← current).kind with
  | none => primary parse
  | some op =>
    let start := (← advance).span
    let id ← parse (.expr .call true)
    let operand ← expr id
    let span := start.merge operand.span
    if op.mutates && !operand.canAssign then
      report .invalidTarget operand.span ("`" ++ op.symbol ++ "` needs an assignable operand")
        "cannot be modified"
      release id
      errorExpr span
    else
      addConstant (.unary op id) span (operand.isConstant && !op.mutates)

/-! ### Infix forms -/

def binary (left : ExprId) (level : Level) : Parse ExprId := do
  match BinaryOp.ofToken? (← current).kind with
  | none => unexpected "a binary operator"
  | some op =>
    let _ ← advance
    let right ← parse (.expr level.next true)
    let lhs ← expr left
    let rhs ← expr right
    addConstant (.binary op left right) (lhs.span.merge rhs.span) (lhs.isConstant && rhs.isConstant)

def assignment (target : ExprId) : Parse ExprId := do
  match AssignOp.ofToken? (← current).kind with
  | none => unexpected "an assignment operator"
  | some op =>
    let _ ← advance
    let value ← parse (.expr .assign false)
    let lhs ← expr target
    let span := lhs.span.merge (← expr value).span
    if lhs.canAssign then
      addExpr (.assign op target value) span
    else
      report .invalidTarget lhs.span ("invalid left-hand side of `" ++ op.symbol ++ "`")
        "cannot be assigned to"
      release target
      release value
      errorExpr span

def member (left : ExprId) (object : Expr) : Parse ExprId := do
  let (field, span) ← expectName
  addTarget (.member left field) (object.span.merge span) object.canAssign

def args : Parse (List ExprId) := do
  let arg ← parse .value
  if ← eat .comma then return arg :: (← parse .args)
  return [arg]

/-- A call of a named function: its name becomes the call. -/
def call (left : ExprId) (object : Expr) : Parse ExprId := do
  let _ ← expect .openParen
  let args ← if ← currentIs .closeParen then pure [] else parse .args
  let _ ← expect .closeParen
  let span ← spanFrom object.span
  match object.kind with
  | .var callee =>
    let s ← get
    let (list, tree) := s.tree.addExprList args
    let tree ← ofFault (tree.setExpr left (Expr.new (.call callee list none) span))
    set { s with tree }
    return left
  | _ =>
    report .unexpectedToken object.span "only named functions can be called"
      "not a function name"
    release left
    args.forM release
    errorExpr span

def postfixForm (left : ExprId) : Parse ExprId := do
  let object ← expr left
  if ← eat .dot then member left object else call parse left object

def infixes (left : ExprId) (least : Level) (isValue : Bool) : Parse ExprId := do
  let level := Level.of (← current).kind
  if level = .none ∨ level.rank < least.rank ∨ (level = .assign ∧ isValue) then return left
  let whole ←
    match level with
    | .assign => assignment parse left
    | .call => postfixForm parse left
    | _ => binary parse left level
  parse (.infixes whole least isValue)

def expression (least : Level) (isValue : Bool) : Parse ExprId := do
  parse (.infixes (← unary parse) least isValue)

end Parse

end FrontEnd
