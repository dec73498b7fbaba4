import FrontEnd.Grammar.Declaration

/-! Statements. A complete expression is checked and then folded. -/

namespace FrontEnd

namespace Parse

variable (parse : Productions)

/-- The expression is checked before the semicolon is taken: what follows it may hold lexical
errors of the next statement. -/
def exprStmt : Parse StmtId := do
  let id ← parse (.expr .assign false)
  let _ ← check fun env => Check.infer env id
  let _ ← fold id
  let _ ← expect .semicolon
  addStmt (.expr id) (← spanFrom (← expr id).span)

/-- The end of a statement. -/
def closeStmt (start : Span) : Parse Span := do
  let _ ← expect .semicolon
  spanFrom start

def returnStmt : Parse StmtId := do
  let start := (← advance).span
  let value ← if ← currentIs .semicolon then pure none else some <$> parse .value
  let expected := (← get).returns.head?
  let span ← spanFrom start
  check fun env => Check.checkReturn env value expected span
  if let some id := value then
    let _ ← fold id
  addStmt (.ret value) (← closeStmt start)

def printStmt : Parse StmtId := do
  let start := (← advance).span
  let value ← parse .value
  check fun env => Check.checkPrint env value
  let _ ← fold value
  addStmt (.print value) (← closeStmt start)

def condition : Parse ExprId := do
  let cond ← parse .value
  check fun env => Check.checkCondition env cond
  let _ ← fold cond
  return cond

def ifStmt : Parse StmtId := do
  let start := (← advance).span
  let cond ← condition parse
  let thenBranch ← parse .stmt
  let elseBranch ← if ← eat .kwElse then some <$> parse .stmt else pure none
  addStmt (.cond cond thenBranch elseBranch) (← spanFrom start)

def whileStmt : Parse StmtId := do
  let start := (← advance).span
  let cond ← condition parse
  let body ← parse .stmt
  addStmt (.loop cond body) (← spanFrom start)

/-- The condition stands behind the body, so it counts as a statement of its own. -/
def doStmt : Parse StmtId := do
  let start := (← advance).span
  let body ← parse .stmt
  beginStatement
  let _ ← expect .kwWhile
  let cond ← condition parse
  addStmt (.doLoop body cond) (← closeStmt start)

def emptyStmt : Parse StmtId := do
  let span := (← advance).span
  addStmt (.block (← addStmtList [])) span

def statement : Parse StmtId := do
  beginStatement
  match (← current).kind with
  | .kwReturn => returnStmt parse
  | .kwPrint => printStmt parse
  | .kwIf => ifStmt parse
  | .kwWhile => whileStmt parse
  | .kwDo => doStmt parse
  | .openBrace => block parse
  | .kwStruct => structDecl parse
  | .kwEnum => enumDecl parse
  | .kwNamespace => namespaceDecl parse
  | .kwUsing => usingDecl parse
  | .kwNative => native parse
  | .kwConst => constant parse
  | .semicolon => emptyStmt
  | .ident =>
    if ← nextIs .colon then declaration parse false (← currentSpan) else exprStmt parse
  | _ => exprStmt parse

end Parse

end FrontEnd
