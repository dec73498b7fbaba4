import FrontEnd.Grammar.Production

/-! Statements in braces: blocks and the bodies of functions. -/

namespace FrontEnd

namespace Parse

variable (parse : Productions)

/-- The statements of a body, stored as a list. -/
def bodyItems : Parse ListRange := do addStmtList (← parse .items)

/-- A block, whose declarations end with it. -/
def block : Parse StmtId := do
  let brace ← expect .openBrace
  let body ← inScope (bodyItems parse)
  addStmt (.block body) (← spanFrom brace.span)

/-- Declares the named parameters in the current scope. -/
def declareParams (signature : Signature) : Parse Unit :=
  modify fun s =>
    let vars := (signature.params.zip signature.paramNames).foldl
      (fun vars (type, name) =>
        if name = .empty then vars else (vars.insert ⟨name, s.scope.depth⟩ type).2)
      s.symbols.vars
    { s with symbols := { s.symbols with vars } }

/-- Runs `p` where a `return` must fit a type. -/
def returning {α : Type} (ret : TypeId) (p : Parse α) : Parse α := do
  modify fun s => { s with returns := ret :: s.returns }
  ensuring p fun s => { s with returns := s.returns.tail }

/-- The body of a function, in a scope that holds its parameters. -/
def functionBody (type : TypeId) : Parse StmtId := do
  let brace ← expect .openBrace
  let signature ← ofFault ((← get).types.function? type)
  let body ← inScope do
    signature.forM declareParams
    returning ((signature.map Signature.ret).getD .invalid) (bodyItems parse)
  addStmt (.block body) (← spanFrom brace.span)

def items : Parse (List StmtId) := do
  if ← eat .closeBrace then return []
  if ← truncated then return []
  if ← atEnd then unexpected "`\x7d`"
  let start ← currentSpan
  match ← attempt (parse .stmt) with
  | .ok id => return id :: (← parse .items)
  | .error .reported =>
    synchronize start
    parse .items
  | .error stop => throw stop

end Parse

end FrontEnd
