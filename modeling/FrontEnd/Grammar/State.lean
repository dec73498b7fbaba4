import FrontEnd.Constant.Folder
import FrontEnd.Token.KindSet
import FrontEnd.Token.Window
import FrontEnd.Typing.Check

/-!
The state of reading a program, and the small steps from which productions are made: taking
tokens, reporting, storing nodes, and opening scopes.
-/

namespace FrontEnd

/-- Why a production gives up. -/
inductive Stop
  /-- A syntax error was reported; the statement is abandoned. -/
  | reported
  /-- A storage ran out; reading ends. -/
  | exhausted (cause : StorageError)
  | fault (fault : Fault)
  deriving DecidableEq, Repr

def Stop.ofHalt : Halt StorageError → Stop
  | .cause e => .exhausted e
  | .fault f => .fault f

structure ParseState where
  window : Window
  lines : Lines
  tree : Tree
  types : TypeTable
  names : Interner
  symbols : Symbols
  scope : Scope
  folder : Folder
  reports : Queue
  /-- Return types of the enclosing function bodies, the innermost first. -/
  returns : List TypeId
  /-- Whether constant subtrees become literals. -/
  folds : Bool
  /-- Reservation of a scratch arena. -/
  scratch : Nat

def ParseState.env (s : ParseState) : Env :=
  { types := s.types, names := s.names, symbols := s.symbols, scope := s.scope, lines := s.lines
    scratch := s.scratch }

abbrev Parse := EStateM Stop ParseState

namespace Parse

variable {α : Type}

/-! ### Outcomes of other parts -/

def ofFault : Except Fault α → Parse α
  | .ok a => return a
  | .error f => throw (.fault f)

def ofStorage : Except StorageError α → Parse α
  | .ok a => return a
  | .error e => throw (.exhausted e)

def ofHalting : Except (Halt StorageError) α → Parse α
  | .ok a => return a
  | .error h => throw (.ofHalt h)

/-- Runs `p` and then `after`, also if `p` stops. -/
def ensuring (p : Parse α) (after : ParseState → ParseState) : Parse α := fun s =>
  match p s with
  | .ok a s => .ok a (after s)
  | .error e s => .error e (after s)

/-- The outcome of `p`, whatever it is. -/
def attempt (p : Parse α) : Parse (Except Stop α) := fun s =>
  match p s with
  | .ok a s => .ok (.ok a) s
  | .error e s => .ok (.error e) s

/-! ### Tokens -/

def current : Parse Token := return (← get).window.current

def currentIs (k : TokenKind) : Parse Bool := return (← get).window.currentIs k

def nextIs (k : TokenKind) : Parse Bool := return (← get).window.next.kind == k

def atEnd : Parse Bool := return (← get).window.atEnd

def currentSpan : Parse Span := return (← current).span

def previousSpan : Parse Span := return (← get).window.previous

/-- From `start` to the end of the last token. -/
def spanFrom (start : Span) : Parse Span := return start.merge (← previousSpan)

/-- Reports an error token. -/
def reportToken (reports : Queue) (t : Token) : Queue :=
  match t.error with
  | some e => reports.emitLexical (Report.on (.lexical e) e.message t.span e.message) t.line t.col
  | none => reports

/-- Reports and drops the error tokens at the front of the window. -/
def skipErrors : Parse Unit :=
  modify fun s =>
    let (errors, window) := s.window.skipErrors
    { s with window, reports := errors.foldl reportToken s.reports }

/-- Takes the current token. -/
def advance : Parse Token := do
  let token ← current
  modify fun s => { s with window := s.window.bump }
  skipErrors
  return token

/-- Takes the current token if it is of a kind. -/
def eat (k : TokenKind) : Parse Bool := do
  if ← currentIs k then
    let _ ← advance
    return true
  return false

/-! ### Reports -/

def report (code : ErrorCode) (span : Span) (message label : String) : Parse Unit := do
  let s ← get
  let reports ← ofFault (s.reports.emitSpanned (Report.on code message span label) s.lines)
  set { s with reports }

/-- Reports the current token and gives up. -/
def reject (code : ErrorCode) (message label : String) : Parse α := do
  let found ← current
  modify fun s =>
    { s with
      reports := s.reports.emit (Report.on code message found.span label) found.line found.col }
  throw .reported

/-- Something else was wanted where the current token is. -/
def expected (code : ErrorCode) (wanted : String) : Parse α := do
  let found ← current
  reject code ("expected " ++ wanted ++ ", found " ++ found.kind.quoted) ("expected " ++ wanted)

def unexpected (wanted : String) : Parse α := expected .unexpectedToken wanted

def expect (k : TokenKind) : Parse Token := do
  if ← currentIs k then advance else unexpected ("`" ++ k.describe ++ "`")

def beginStatement : Parse Unit := modify fun s => { s with reports := s.reports.beginStatement }

def truncated : Parse Bool := return (← get).reports.truncated

/-! ### Names and types -/

def intern (text : String) : Parse Name := do
  let s ← get
  let (name, names) ← ofStorage (s.names.intern text)
  set { s with names }
  return name

def lookup (name : Name) : Parse String := return (← get).names.lookup name

/-- A name in the quotes that messages put around it. -/
def quote (name : Name) : Parse String := return "`" ++ (← lookup name) ++ "`"

/-- A type in the quotes that messages put around it. -/
def quoteType (type : TypeId) : Parse String := do
  let s ← get
  return "`" ++ (← ofFault (s.types.describe s.names type)) ++ "`"

/-- Takes an identifier. -/
def expectName : Parse (Name × Span) := do
  if ← currentIs .ident then
    let token ← advance
    return (← intern ((← get).window.lexeme token), token.span)
  else expected .expectedName "identifier"

/-- The member `name` of the namespace `outer`. -/
def qualify (outer name : Name) : Parse Name := do
  let s ← get
  let (qualified, names) ← ofStorage (Qualified.make s.names s.scratch outer name)
  set { s with names }
  return qualified

/-- The name under which a declaration is stored: qualified with the open namespace. -/
def declaredName (name : Name) : Parse Name := do
  match (← get).scope.namespace? with
  | some outer => qualify outer name
  | none => return name

def addFunction (signature : Signature) : Parse TypeId := fun s =>
  match TypeTable.addFunction s.scratch signature (s.types, s.names) with
  | .ok id (types, names) => .ok id { s with types, names }
  | .error h (types, names) => .error (.ofHalt h) { s with types, names }

/-! ### Nodes -/

def expr (id : ExprId) : Parse Expr := do ofFault ((← get).tree.expr id)

def addNode (e : Expr) : Parse ExprId := do
  let s ← get
  let (id, tree) ← ofStorage (s.tree.addExpr e)
  set { s with tree }
  return id

def addExpr (kind : ExprKind) (span : Span) : Parse ExprId := addNode (.new kind span)

def addConstant (kind : ExprKind) (span : Span) (isConstant : Bool) : Parse ExprId :=
  addNode { Expr.new kind span with isConstant }

def addTarget (kind : ExprKind) (span : Span) (canAssign : Bool) : Parse ExprId :=
  addNode { Expr.new kind span with canAssign }

def release (id : ExprId) : Parse Unit :=
  modify fun s => { s with tree := (s.tree.release (.expr id)).2 }

def addStmt (kind : StmtKind) (span : Span) : Parse StmtId := do
  let s ← get
  let (id, tree) ← ofStorage (s.tree.addStmt ⟨kind, span⟩)
  set { s with tree }
  return id

def addStmtList (ids : List StmtId) : Parse ListRange :=
  modifyGet fun s =>
    let (range, tree) := s.tree.addStmtList ids
    (range, { s with tree })

/-! ### Checking, folding, scopes -/

def check (p : Env → Check α) : Parse α := fun s =>
  match p s.env ⟨s.tree, s.reports⟩ with
  | .ok a t => .ok a { s with tree := t.tree, reports := t.reports }
  | .error f t => .error (.fault f) { s with tree := t.tree, reports := t.reports }

/-- Folds a checked expression. -/
def fold (id : ExprId) : Parse (Option Value) := fun s =>
  if s.folds then
    match s.folder.fold s.scope.depth id s.tree with
    | .ok value tree => .ok value { s with tree }
    | .error f tree => .error (.fault f) { s with tree }
  else .ok none s

/-- The key of a name declared here. -/
def key (name : Name) : Parse ScopedKey := return ⟨name, (← get).scope.depth⟩

def enterScope : Parse Unit := modify fun s => { s with scope := s.scope.enter }

/-- Closes the current scope and drops everything declared in it. -/
def leaveScope (s : ParseState) : ParseState :=
  { s with
    scope := s.scope.leave
    symbols := s.symbols.leaveDepth s.scope.depth
    folder := s.folder.leaveScope s.scope.depth }

/-- Runs `p` in a scope of its own. -/
def inScope (p : Parse α) : Parse α := do
  enterScope
  ensuring p leaveScope

/-! ### Recovery -/

/-- Skips to the next boundary, passing at most so many tokens. A semicolon is passed too. -/
def skipToBoundary : Nat → Parse Unit
  | 0 => return
  | limit + 1 => do
    let kind := (← current).kind
    if kind = .semicolon then
      let _ ← advance
    else if !KindSet.boundary.contains kind then
      let _ ← advance
      skipToBoundary limit

/-- Goes on after a statement that began at `start` and failed. If it took no token, one is
skipped, so that reading always moves on. -/
def synchronize (start : Span) : Parse Unit := do
  if (← currentSpan) = start ∧ !(← atEnd) then
    let _ ← advance
  skipToBoundary (← get).window.unread

end Parse

end FrontEnd
