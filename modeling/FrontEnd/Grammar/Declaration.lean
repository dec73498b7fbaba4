import FrontEnd.Grammar.Body
import FrontEnd.Grammar.TypeName

/-!
Declarations. Inside a namespace a name is stored qualified; namespaces open no scope of their
own.
-/

namespace FrontEnd

namespace Parse

variable (parse : Productions)

/-! ### Variables and constants -/

/-- Type of a variable: that of its initializer is checked against the declared one. -/
def variableType (name : Name) (declared : TypeId) (init : Option ExprId) (isConst : Bool)
    (start : Span) : Parse TypeId := do
  match init with
  | some init => check fun env => Check.checkInitializer env name declared init
  | none =>
    if isConst then
      let span ← spanFrom start
      report .expectedExpression span ("constant " ++ (← quote name) ++ " needs a value")
        "missing initializer"
    return declared

/-- Declares a variable. A constant whose folded value has its type is bound to that value; any
other declaration ends an earlier binding of the name. -/
def declareVariable (name : Name) (type : TypeId) (isConst : Bool) (value : Option Value) :
    Parse Unit := do
  let s ← get
  let key ← key name
  let vars := (s.symbols.vars.insert key type).2
  let isValueOfType ← match value with
    | some v => if isConst then ofFault (s.types.equal v.kind.type type) else pure false
    | none => pure false
  let folder := match value with
    | some v => if isValueOfType then s.folder.bind key v else s.folder.unbind key
    | none => s.folder.unbind key
  set { s with symbols := { s.symbols with vars }, folder }

def variableDecl (name : Name) (declared : Option TypeId) (init : Option ExprId) (isConst : Bool)
    (start : Span) : Parse StmtId := do
  let type ← variableType name (declared.getD .invalid) init isConst start
  let value ← match init with
    | some init => fold init
    | none => pure none
  let _ ← expect .semicolon
  let span ← spanFrom start
  let stored ← declaredName name
  declareVariable stored type isConst value
  addStmt (.varDecl stored type init isConst) span

/-! ### Functions -/

/-- Adds an overload in the current scope and returns its link name. -/
def declareFunction (stored : Name) (type : TypeId) (signature : Signature) (isNative : Bool) :
    Parse Name := do
  let s ← get
  let (mangled, names) ← ofHalting
    (LinkName.make s.types s.names s.scratch stored signature.params signature.variadic)
  set { s with names }
  let overload : Overload :=
    { mangled, params := signature.params, variadic := signature.variadic, isNative
      ret := signature.ret, type }
  let (_, funcs) ← ofFault (FuncTable.declare s.symbols.funcs s.types (← key stored) overload)
  modify fun s => { s with symbols := { s.symbols with funcs } }
  return mangled

/-- A declaration that a function literal completes. The function is declared before its body, so
that it can call itself. -/
def functionDecl (name : Name) (declared : Option TypeId) (start : Span) : Parse StmtId := do
  let func := (← advance).span
  let type ← signature parse
  let span ← spanFrom func
  if let some declared := declared.filter (· ≠ .invalid) then
    unless ← ofFault ((← get).types.equal declared type) do
      let message := (← quote name) ++ " is declared " ++ (← quoteType declared) ++
        " but initialized with " ++ (← quoteType type)
      report .initializer span message "initializer"
  let stored ← declaredName name
  let mangled ← match ← ofFault ((← get).types.function? type) with
    | some signature => declareFunction stored type signature false
    | none => pure stored
  let body ← functionBody parse type
  addStmt (.funcDecl stored mangled type (some body) false) (← spanFrom start)

/-- A function that is defined elsewhere. -/
def native : Parse StmtId := do
  let start := (← advance).span
  let (name, _) ← expectName
  let _ ← expect .colon
  let typeStart ← currentSpan
  let type ← parse .type
  let typeSpan ← spanFrom typeStart
  let signature ← ofFault ((← get).types.function? type)
  if signature.isNone ∧ type ≠ .invalid then
    let message := "native " ++ (← quote name) ++ " must have a function type, found " ++
      (← quoteType type)
    report .expectedType typeSpan message "expected `func(...)`"
  let _ ← expect .semicolon
  let span ← spanFrom start
  match signature with
  | none => addStmt .error span
  | some signature =>
    let stored ← declaredName name
    let mangled ← declareFunction stored type signature true
    addStmt (.funcDecl stored mangled type none true) span

/-! ### Declarations by form -/

/-- A name, a colon, and a type or an initializer or both. -/
def declaration (isConst : Bool) (start : Span) : Parse StmtId := do
  let (name, _) ← expectName
  let _ ← expect .colon
  let declared ← if ← currentIs .equal then pure none else some <$> parse .type
  if ← eat .equal then
    if ← currentIs .kwFunc then functionDecl parse name declared start
    else
      let init ← parse .value
      variableDecl name declared (some init) isConst start
  else variableDecl name declared none isConst start

def constant : Parse StmtId := do
  let ahead := (← get).window.bump
  let start := (← advance).span
  if ahead.currentIs .ident && ahead.next.kind == .colon then declaration parse true start
  else unexpected "`name :` after `const`"

def fields (done : List Field) : Parse (List Field) := do
  if ← currentIs .closeBrace then return done
  if ← atEnd then return done
  let (name, span) ← expectName
  let _ ← expect .colon
  let type ← parse .type
  let _ ← expect .semicolon
  if done.any (·.name == name) then
    report .unknownMember span ("field " ++ (← quote name) ++ " is declared twice")
      "duplicate field"
    parse (.fields done)
  else parse (.fields (done ++ [⟨name, type⟩]))

def variants : Parse (List Name) := do
  if ← currentIs .closeBrace then return []
  let (variant, _) ← expectName
  if ← eat .comma then return variant :: (← parse .variants)
  return [variant]

/-- The end of a struct or enum. -/
def closeType (start : Span) : Parse Span := do
  let _ ← expect .closeBrace
  let _ ← eat .semicolon
  spanFrom start

/-- Adds a struct or enum to the types and declares its name. -/
def declareType (name : Name)
    (add : TypeTable → Name → Except StorageError (TypeId × TypeTable)) :
    Parse (Name × TypeId) := do
  let stored ← declaredName name
  let s ← get
  let (type, types) ← ofStorage (add s.types stored)
  let named := (s.symbols.types.insert (← key stored) type).2
  set { s with types, symbols := { s.symbols with types := named } }
  return (stored, type)

def structDecl : Parse StmtId := do
  let start := (← advance).span
  let (name, _) ← expectName
  let _ ← expect .openBrace
  let fields ← parse (.fields [])
  let span ← closeType start
  let (stored, type) ← declareType name fun types stored => types.addStruct stored fields
  addStmt (.structDecl stored type) span

def enumDecl : Parse StmtId := do
  let start := (← advance).span
  let (name, _) ← expectName
  let _ ← expect .openBrace
  let variants ← parse .variants
  let span ← closeType start
  let (stored, type) ← declareType name fun types stored => types.addEnum stored variants
  addStmt (.enumDecl stored type) span

def namespaceDecl : Parse StmtId := do
  let start := (← advance).span
  let (name, _) ← expectName
  let qualified ← declaredName name
  let _ ← expect .openBrace
  modify fun s => { s with scope := s.scope.pushNamespace qualified }
  let body ← ensuring (bodyItems parse) fun s => { s with scope := s.scope.popNamespace.2 }
  addStmt (.namesp qualified body) (← spanFrom start)

def path (name : Name) : Parse Name := do
  if ← eat .dot then
    let (segment, _) ← expectName
    parse (.path (← qualify name segment))
  else return name

/-- The namespace that a path names: preferably one inside the open namespace. -/
def usingTarget (path : Name) : Parse Name := do
  let s ← get
  let inner := s.scope.namespace?.bind fun outer => Qualified.find? s.names s.scratch outer path
  return inner.getD path

def usingDecl : Parse StmtId := do
  let start := (← advance).span
  let (first, _) ← expectName
  let path ← parse (.path first)
  let _ ← expect .semicolon
  let span ← spanFrom start
  let target ← usingTarget path
  modify fun s => { s with scope := s.scope.pushUsing target }
  addStmt (.using target) span

end Parse

end FrontEnd
