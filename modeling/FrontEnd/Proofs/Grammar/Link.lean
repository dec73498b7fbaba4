import FrontEnd.Proofs.Grammar.Reading
import FrontEnd.Proofs.Grammar.SteadyStatements
import FrontEnd.Proofs.Typing.TypingFaults

/-!
Two runs of reading that go together. A link tells how their states are related while something
is being read; what reading itself has to do with it are the laws of the link.
-/

namespace FrontEnd

/-- The window after the current token and the errors behind it. -/
def Window.after (w : Window) : Window := w.bump.skipErrors.2

/-- What a complete expression is for. -/
inductive Purpose
  /-- Any type will do. -/
  | free
  /-- It initializes a variable of this type. -/
  | stored (type : TypeId)
  /-- It is returned where this type is wanted, if any is. -/
  | returned (type : Option TypeId)

/-- What was read or entered and waits for its end, by its handles in both runs. -/
inductive Entry
  /-- An expression that is not yet checked, and the windows before and after it. -/
  | raw (i j : ExprId) (start stop : Window)
  /-- The same, and what its nodes say. -/
  | object (i j : ExprId) (x y : Expr) (start stop : Window)
  /-- An expression that was checked. -/
  | checked (i j : ExprId) (purpose : Purpose)
  /-- The same with the values that it has in both runs, if it has any. -/
  | folded (i j : ExprId) (v w : Option Value) (purpose : Purpose)
  | stmt (i j : StmtId)
  /-- A function that is declared, but has no statement yet. -/
  | function (mangled : Name) (type : TypeId)
  /-- A block that is open. -/
  | enter
  /-- The parameters of a function, declared in the block that is its body, where its type is the
  one to return. -/
  | params (type : TypeId)
  /-- The statements of a block that was left. -/
  | scoped (is js : List StmtId)
  /-- The statements of a function body that was left. -/
  | bodied (type : TypeId) (is js : List StmtId)
  /-- The body of a function. -/
  | bodyStmt (type : TypeId) (i j : StmtId)
  /-- A variable that is declared, but has no statement yet; `w` is the value of its initializer in
  the second run. -/
  | declared (stored : Name) (type : TypeId) (isConst : Bool) (w : Option Value)

namespace Entry

/-- The nodes that the first run has for an entry. -/
def left : Entry → List NodeId
  | .raw i .. | .object i .. | .checked i .. | .folded i .. => [.expr i]
  | .stmt i _ | .bodyStmt _ i _ => [.stmt i]
  | .scoped is _ | .bodied _ is _ => is.map .stmt
  | .function .. | .enter | .params .. | .declared .. => []

/-- Those that the second run has. -/
def right : Entry → List NodeId
  | .raw _ j .. | .object _ j .. | .checked _ j .. | .folded _ j .. => [.expr j]
  | .stmt _ j | .bodyStmt _ _ j => [.stmt j]
  | .scoped _ js | .bodied _ _ js => js.map .stmt
  | .function .. | .enter | .params .. | .declared .. => []

/-- Expressions that were read one after the other. -/
inductive Raws : List Entry → List ExprId → List ExprId → Prop
  | nil : Raws [] [] []
  | snoc {es is js i j start stop} : Raws es is js →
    Raws (raw i j start stop :: es) (is ++ [i]) (js ++ [j])

/-- Statements that were read one after the other. -/
inductive Stmts : List Entry → List StmtId → List StmtId → Prop
  | nil : Stmts [] [] []
  | snoc {es is js i j} : Stmts es is js → Stmts (stmt i j :: es) (is ++ [i]) (js ++ [j])

theorem Raws.cons {es : List Entry} {is js : List ExprId} {i j : ExprId} {start stop : Window}
    (h : Raws es is js) : Raws (es ++ [raw i j start stop]) (i :: is) (j :: js) := by
  induction h with
  | nil => exact .snoc .nil
  | snoc _ ih => exact .snoc ih

theorem Stmts.cons {es : List Entry} {is js : List StmtId} {i j : StmtId} (h : Stmts es is js) :
    Stmts (es ++ [stmt i j]) (i :: is) (j :: js) := by
  induction h with
  | nil => exact .snoc .nil
  | snoc _ ih => exact .snoc ih

/-- Entries that become parts of a statement, and its kinds in both runs, where values of the type
`ret` are returned. -/
inductive Forms (ret : Option TypeId) : List Entry → StmtKind → StmtKind → Prop
  | expr {i j v w purpose} : Forms ret [folded i j v w purpose] (.expr i) (.expr j)
  | ret : Forms ret [] (.ret .none) (.ret .none)
  | value {i j v w} : Forms ret [folded i j v w (.returned ret)] (.ret (some i)) (.ret (some j))
  | print {i j v w purpose} : Forms ret [folded i j v w purpose] (.print i) (.print j)
  | bare {name type isConst} : Forms ret [declared name type isConst .none]
    (.varDecl name type .none isConst) (.varDecl name type .none isConst)
  | var {name type i j isConst v w} :
    Forms ret [declared name type isConst w, folded i j v w (.stored type)]
    (.varDecl name type (some i) isConst) (.varDecl name type (some j) isConst)
  | alias {name mangled type i j} :
    Forms ret [bodyStmt type i j] (.funcDecl name mangled type (some i) false)
      (.funcDecl name mangled type (some j) false)
  | func {name mangled type i j} : Forms ret [bodyStmt type i j, function mangled type]
    (.funcDecl name mangled type (some i) false) (.funcDecl name mangled type (some j) false)
  | native {name mangled type} :
    Forms ret [function mangled type] (.funcDecl name mangled type .none true)
      (.funcDecl name mangled type .none true)
  | struct {name type} : Forms ret [] (.structDecl name type) (.structDecl name type)
  | enum {name type} : Forms ret [] (.enumDecl name type) (.enumDecl name type)
  | cond {k m c d v w purpose} :
    Forms ret [stmt k m, folded c d v w purpose] (.cond c k .none) (.cond d m .none)
  | other {i j k m c d v w purpose} :
    Forms ret [stmt i j, stmt k m, folded c d v w purpose] (.cond c k (some i)) (.cond d m (some j))
  | loop {k m c d v w purpose} :
    Forms ret [stmt k m, folded c d v w purpose] (.loop c k) (.loop d m)
  | doLoop {k m c d v w purpose} :
    Forms ret [folded c d v w purpose, stmt k m] (.doLoop k c) (.doLoop m d)
  | using {target} : Forms ret [] (.using target) (.using target)

/-- Entries whose statements become those of another one, its kind, given the list of them, and
the entry that it is. -/
inductive Closes : List Entry → List StmtId → List StmtId → (ListRange → StmtKind) →
    (StmtId → StmtId → Entry) → Prop
  | block {is js} : Closes [.scoped is js] is js .block stmt
  | body {type is js} : Closes [bodied type is js] is js .block (bodyStmt type)
  | namesp {es is js name} : Stmts es is js → Closes es is js (.namesp name) stmt
  | empty : Closes [] [] [] .block stmt

end Entry

/-- Two states that differ at most in their trees and in what is folded. -/
structure ParseState.Same (s t : ParseState) : Prop where
  window : s.window = t.window
  lines : s.lines = t.lines
  types : s.types = t.types
  names : s.names = t.names
  symbols : s.symbols = t.symbols
  scope : s.scope = t.scope
  reports : s.reports = t.reports
  returns : s.returns = t.returns
  scratch : s.scratch = t.scratch

namespace ParseState

/-- The state elsewhere in the text, with more names and reports. -/
def glide (s : ParseState) (window : Window) (names : Interner) (reports : Queue) : ParseState :=
  { s with window, names, reports }

/-- The state in another place of the program. -/
def shift (s : ParseState) (scope : Scope → Scope) (returns : List TypeId → List TypeId) :
    ParseState :=
  { s with scope := scope s.scope, returns := returns s.returns }

end ParseState

/-! ### The ends of productions -/

namespace Parse

/-- A statement that holds others. -/
def listStmt (form : ListRange → StmtKind) (span : Span) (ids : List StmtId) : Parse StmtId := do
  addStmt (form (← addStmtList ids)) span

end Parse

/-! ### Links -/

structure Link where
  /-- How states are related while these entries are open, the last one first. -/
  rel : List Entry → ParseState → ParseState → Prop
  /-- What is known of a type that is in use. -/
  knows : TypeId → ParseState → Prop
  /-- The runs can part for good. -/
  parts : Prop
  /-- The faults that are not ruled out. -/
  fails : Fault → Prop

namespace Link

structure Rel (l : Link) (es : List Entry) (s₁ s₂ : ParseState) : Prop where
  sound₁ : s₁.Sound
  sound₂ : s₂.Sound
  rel : l.rel es s₁ s₂

/-- The runs have parted, and one of them has reported something. -/
structure Apart (l : Link) (s₁ s₂ : ParseState) : Prop where
  sound₁ : s₁.Sound
  sound₂ : s₂.Sound
  parts : l.parts
  reports : 0 < s₁.reports.reports.size ∨ 0 < s₂.reports.reports.size

/-- What can end one run alone: a storage runs out, and the nodes that were read are there still; or
where the runs can part, there is a fault. -/
def Breaks (l : Link) (ids : List NodeId) : Stop → ParseState → Prop
  | .exhausted _, t => t.tree.Owns ids
  | .fault _, _ => l.parts
  | .reported, _ => False

/-- Reading stands at this window at some time. -/
def Sees (l : Link) (w : Window) : Prop := ∃ es s₁ s₂, l.Rel es s₁ s₂ ∧ s₁.window = w

/-- The types of a signature are in use. -/
def Knows (l : Link) (signature : Signature) (s : ParseState) : Prop :=
  (∀ type ∈ signature.params, l.knows type s) ∧ l.knows signature.ret s

/-- An identifier at this window was taken before this state; it stands after `const` if a constant
is declared. -/
def Taken (l : Link) (isConst : Bool) (a : Window) (s : ParseState) : Prop :=
  l.Sees a ∧ a.current.kind = .ident ∧
    (isConst = true → ∃ w : Window, l.Sees w ∧ w.current.kind = .kwConst ∧ a = w.after) ∧
    ∃ n, s.window = a.bump.drop n

/-- The name of a declaration is the text of an identifier. -/
def Called (l : Link) (isConst : Bool) (name : Name) (s : ParseState) : Prop :=
  ∃ a : Window, l.Taken isConst a s ∧ s.names.Has name (a.lexeme a.current)

/-- The stored name of a declaration is the text of an identifier or qualifies it. -/
def Origin (l : Link) (isConst : Bool) (stored : Name) (s : ParseState) : Prop :=
  ∃ a : Window, l.Taken isConst a s ∧
    ∃ text, s.names.Has stored text ∧ (text = a.lexeme a.current ∨
      ∃ outer, text = outer ++ "::" ++ a.lexeme a.current)

/-- The state in which a run ends. -/
def last {α : Type} : EStateM.Result Stop ParseState α → ParseState
  | .ok _ s | .error _ s => s

open Entry in
/-- Both runs end alike, or one of them breaks off. -/
inductive Firm {α : Type} (l : Link) (es : List Entry) (p₁ p₂ : Parse α) (s₁ s₂ : ParseState)
    (R : α → α → ParseState → ParseState → Prop) : Prop
  | ok {a b t₁ t₂} : p₁ s₁ = .ok a t₁ → p₂ s₂ = .ok b t₂ → R a b t₁ t₂ → Firm l es p₁ p₂ s₁ s₂ R
  | stop {t₁ t₂} : p₁ s₁ = .error .reported t₁ → p₂ s₂ = .error .reported t₂ → l.rel es t₁ t₂ →
    0 < t₁.reports.reports.size → Firm l es p₁ p₂ s₁ s₂ R
  | fault {f t₁ t₂} : p₁ s₁ = .error (.fault f) t₁ → p₂ s₂ = .error (.fault f) t₂ → l.fails f →
    Firm l es p₁ p₂ s₁ s₂ R
  | first {e t₁} : p₁ s₁ = .error e t₁ → l.Breaks (es.flatMap left) e t₁ → Firm l es p₁ p₂ s₁ s₂ R
  | second {e t₂} : p₂ s₂ = .error e t₂ → l.Breaks (es.flatMap right) e t₂ →
    Firm l es p₁ p₂ s₁ s₂ R

/-- The same, unless the runs part. -/
inductive Pair {α : Type} (l : Link) (es : List Entry) (p₁ p₂ : Parse α) (s₁ s₂ : ParseState)
    (R : α → α → ParseState → ParseState → Prop) : Prop
  | firm : l.Firm es p₁ p₂ s₁ s₂ R → Pair l es p₁ p₂ s₁ s₂ R
  | apart : l.Apart (last (p₁ s₁)) (last (p₂ s₂)) → Pair l es p₁ p₂ s₁ s₂ R

theorem Firm.congr {α : Type} {l : Link} {es : List Entry} {p₁ p₂ q₁ q₂ : Parse α}
    {s₁ s₂ : ParseState} {R : α → α → ParseState → ParseState → Prop}
    (h : l.Firm es p₁ p₂ s₁ s₂ R) (h₁ : q₁ s₁ = p₁ s₁) (h₂ : q₂ s₂ = p₂ s₂) :
    l.Firm es q₁ q₂ s₁ s₂ R := by
  cases h with
  | ok g₁ g₂ h => exact .ok (h₁.trans g₁) (h₂.trans g₂) h
  | stop g₁ g₂ h hpos => exact .stop (h₁.trans g₁) (h₂.trans g₂) h hpos
  | fault g₁ g₂ hf => exact .fault (h₁.trans g₁) (h₂.trans g₂) hf
  | first g₁ hb => exact .first (h₁.trans g₁) hb
  | second g₂ hb => exact .second (h₂.trans g₂) hb

theorem Pair.congr {α : Type} {l : Link} {es : List Entry} {p₁ p₂ q₁ q₂ : Parse α}
    {s₁ s₂ : ParseState} {R : α → α → ParseState → ParseState → Prop}
    (h : l.Pair es p₁ p₂ s₁ s₂ R) (h₁ : q₁ s₁ = p₁ s₁) (h₂ : q₂ s₂ = p₂ s₂) :
    l.Pair es q₁ q₂ s₁ s₂ R := by
  cases h with
  | firm h => exact .firm (h.congr h₁ h₂)
  | apart h => exact .apart (by rwa [h₁, h₂])

/-- The laws of links about moving on in the text. -/
class Moves (l : Link) : Prop where
  same {es s₁ s₂} : l.rel es s₁ s₂ → s₁.Same s₂
  owns {es s₁ s₂} : l.rel es s₁ s₂ →
    s₁.tree.Owns (es.flatMap Entry.left) ∧ s₂.tree.Owns (es.flatMap Entry.right)
  -- What is known does not fail, but columns may be too great.
  known {type s} : l.knows type s → Faults (s.types.desc type) l.fails
  overflow {verb} : l.fails (.overflow verb)
  -- What does not change any more.
  knows {type s t} : l.knows type s → s.types.Grows t.types → s.names.Grows t.names →
    s.reports.reports.size ≤ t.reports.reports.size → l.knows type t
  -- After a report nothing is wanted of what is given up.
  shed {x es s₁ s₂} : l.rel (x :: es) s₁ s₂ → 0 < s₁.reports.reports.size → l.rel es s₁ s₂
  -- Other places in the text and in the program. After a report a body may be given up.
  glide {es s₁ s₂ window names reports} : l.Rel es s₁ s₂ →
    window = s₁.window ∨ window = s₁.window.after →
    s₁.Onto 1 (s₁.glide window names reports) → s₂.Onto 1 (s₂.glide window names reports) →
    l.rel es (s₁.glide window names reports) (s₂.glide window names reports)
  shift {es s₁ s₂ scope} : l.Rel es s₁ s₂ → (∀ c : Scope, (scope c).depth = c.depth) →
    l.rel es (s₁.shift scope id) (s₂.shift scope id)
  resign {es s₁ s₂} : l.Rel es s₁ s₂ → 0 < s₁.reports.reports.size →
    l.rel es (s₁.shift id List.tail) (s₂.shift id List.tail)

open Entry Parse in
/-- The laws of a link: every step of reading keeps to it. -/
class Lawful (l : Link) : Prop extends l.Moves where
  enter {es s₁ s₂} : l.Rel es s₁ s₂ →
    l.rel (.enter :: es) (s₁.shift Scope.enter id) (s₂.shift Scope.enter id)
  leave {es es' s₁ s₂ is js} : l.Rel (es' ++ .enter :: es) s₁ s₂ → Stmts es' is js →
    0 < s₁.scope.depth → l.rel (.scoped is js :: es) (leaveScope s₁) (leaveScope s₂)
  leaveBody {es es' s₁ s₂ is js type} : l.Rel (es' ++ .params type :: .enter :: es) s₁ s₂ →
    Stmts es' is js → 0 < s₁.scope.depth → l.rel (.bodied type is js :: es)
      (leaveScope (s₁.shift id List.tail)) (leaveScope (s₂.shift id List.tail))
  abandon {es s₁ s₂} : l.Rel es s₁ s₂ → 0 < s₁.reports.reports.size → 0 < s₁.scope.depth →
    l.rel es (leaveScope s₁) (leaveScope s₂)
  -- Types.
  basic {es s₁ s₂ b} : l.Rel es s₁ s₂ → b ≠ .invalid → l.knows (BasicType.id b) s₁
  named {es s₁ s₂} : l.Rel es s₁ s₂ → l.Firm es namedType namedType s₁ s₂ fun a b t₁ t₂ =>
    a = b ∧ l.rel es t₁ t₂ ∧ l.knows a t₁
  signature {es s₁ s₂ type signature} : l.Rel es s₁ s₂ → l.knows type s₁ →
    s₁.types.function? type = .ok (some signature) → l.Knows signature s₁
  addFunction {es s₁ s₂ signature} : l.Rel es s₁ s₂ → l.Knows signature s₁ →
    l.Firm es (addFunction signature) (addFunction signature) s₁ s₂ fun a b t₁ t₂ =>
      a = b ∧ l.rel es t₁ t₂ ∧ l.knows a t₁
  -- Declarations.
  params {es s₁ s₂ type signature} : l.Rel (.enter :: es) s₁ s₂ → l.knows type s₁ →
    s₁.types.function? type = .ok signature →
    l.Firm (.enter :: es) (signature.forM declareParams) (signature.forM declareParams) s₁ s₂
      fun _ _ t₁ t₂ => l.rel (.params type :: .enter :: es)
        (t₁.shift id ((signature.map Signature.ret).getD .invalid :: ·))
        (t₂.shift id ((signature.map Signature.ret).getD .invalid :: ·))
  function {es s₁ s₂ stored type signature isNative} : l.Rel es s₁ s₂ → l.knows type s₁ →
    s₁.types.function? type = .ok (some signature) →
    l.Firm es (declareFunction stored type signature isNative)
      (declareFunction stored type signature isNative) s₁ s₂ fun a b t₁ t₂ =>
      a = b ∧ l.rel (.function a type :: es) t₁ t₂
  struct {es s₁ s₂ fields name} : l.Rel es s₁ s₂ → l.Called false name s₁ →
    (∀ field ∈ fields, l.knows field.type s₁) →
    l.Firm es (declareType name fun types stored => types.addStruct stored fields)
      (declareType name fun types stored => types.addStruct stored fields) s₁ s₂ fun a b t₁ t₂ =>
      a = b ∧ l.rel es t₁ t₂
  enum {es s₁ s₂ variants name} : l.Rel es s₁ s₂ → l.Called false name s₁ →
    l.Firm es (declareType name fun types stored => types.addEnum stored variants)
      (declareType name fun types stored => types.addEnum stored variants) s₁ s₂ fun a b t₁ t₂ =>
      a = b ∧ l.rel es t₁ t₂
  bare {es s₁ s₂ stored type isConst} : l.Rel es s₁ s₂ → l.knows type s₁ →
    l.Origin isConst stored s₁ →
    l.Firm es (declareVariable stored type isConst none) (declareVariable stored type isConst none)
      s₁ s₂ fun _ _ t₁ t₂ => l.rel (.declared stored type isConst none :: es) t₁ t₂
  var {es s₁ s₂ i j v w stored type isConst} : l.Rel (.folded i j v w (.stored type) :: es) s₁ s₂ →
    l.Origin isConst stored s₁ →
    l.Firm (.folded i j v w (.stored type) :: es) (declareVariable stored type isConst v)
      (declareVariable stored type isConst w) s₁ s₂ fun _ _ t₁ t₂ =>
      l.rel (.declared stored type isConst w :: .folded i j v w (.stored type) :: es) t₁ t₂
  -- Expressions.
  literal {es s₁ s₂} : l.Rel es s₁ s₂ →
    l.Firm es (literal s₁.window.current) (literal s₁.window.current) s₁ s₂ fun i j t₁ t₂ =>
      l.rel (.raw i j s₁.window t₁.window :: es) t₁ t₂
  str {es s₁ s₂} : l.Rel es s₁ s₂ →
    l.Firm es (stringLiteral s₁.window.current) (stringLiteral s₁.window.current) s₁ s₂
      fun i j t₁ t₂ => l.rel (.raw i j s₁.window t₁.window :: es) t₁ t₂
  name {es s₁ s₂} : l.Rel es s₁ s₂ →
    l.Firm es nameExpr nameExpr s₁ s₂ fun i j t₁ t₂ =>
      l.rel (.raw i j s₁.window t₁.window :: es) t₁ t₂
  group {es s₁ s₂ i j a b} (start : Window) (span : Span) : l.Rel (.raw i j a b :: es) s₁ s₂ →
    l.Firm es (groupEnd i span) (groupEnd j span) s₁ s₂ fun i' j' t₁ t₂ =>
      l.rel (.raw i' j' start t₁.window :: es) t₁ t₂
  lambda {es s₁ s₂ i j type} (start : Window) (span : Span) :
    l.Rel (.bodyStmt type i j :: es) s₁ s₂ → l.knows type s₁ →
    l.Firm es (addExpr (.lambda type i) span) (addExpr (.lambda type j) span) s₁ s₂
      fun i' j' t₁ t₂ => l.rel (.raw i' j' start t₁.window :: es) t₁ t₂
  unary {es s₁ s₂ i j w b op} (span : Span) : l.Rel (.raw i j w.after b :: es) s₁ s₂ →
    l.Sees w → UnaryOp.ofToken? w.current.kind = some op →
    l.Pair es (unaryEnd op span i) (unaryEnd op span j) s₁ s₂ fun i' j' t₁ t₂ =>
      l.rel (.raw i' j' w t₁.window :: es) t₁ t₂
  binary {es s₁ s₂ i j a b k m c d} (op : BinaryOp) :
    l.Rel (.raw k m c d :: .raw i j a b :: es) s₁ s₂ →
    l.Firm es (binaryEnd op i k) (binaryEnd op j m) s₁ s₂ fun i' j' t₁ t₂ =>
      l.rel (.raw i' j' a t₁.window :: es) t₁ t₂
  assign {es s₁ s₂ i j a b k m c d op} : l.Rel (.raw k m c d :: .raw i j a b :: es) s₁ s₂ →
    AssignOp.ofToken? b.current.kind = some op →
    l.Pair es (assignmentEnd op i k) (assignmentEnd op j m) s₁ s₂ fun i' j' t₁ t₂ =>
      l.rel (.raw i' j' a t₁.window :: es) t₁ t₂
  object {es s₁ s₂ i j a b} : l.Rel (.raw i j a b :: es) s₁ s₂ →
    l.Firm es (Parse.expr i) (Parse.expr j) s₁ s₂ fun x y t₁ t₂ =>
      s₁ = t₁ ∧ s₂ = t₂ ∧ l.rel (.object i j x y a b :: es) t₁ t₂
  member {es s₁ s₂ i j x y a b} : l.Rel (.object i j x y a b :: es) s₁ s₂ →
    b.current.kind = .dot → s₁.window = b.after →
    l.Firm es (member i x) (member j y) s₁ s₂ fun i' j' t₁ t₂ =>
      l.rel (.raw i' j' a t₁.window :: es) t₁ t₂
  call {es es' s₁ s₂ i j x y a b is js} (span : Span) :
    l.Rel (es' ++ .object i j x y a b :: es) s₁ s₂ → Raws es' is js →
    l.Firm es (callEnd i x is span) (callEnd j y js span) s₁ s₂ fun i' j' t₁ t₂ =>
      l.rel (.raw i' j' a t₁.window :: es) t₁ t₂
  callSpan {es s₁ s₂ i j x y a b} : l.rel (.object i j x y a b :: es) s₁ s₂ → x.span = y.span
  -- Expressions that are complete.
  infer {es s₁ s₂ i j a b} : l.Rel (.raw i j a b :: es) s₁ s₂ →
    l.Firm es (check fun env => Check.infer env i) (check fun env => Check.infer env j) s₁ s₂
      fun _ _ t₁ t₂ => l.rel (.checked i j .free :: es) t₁ t₂
  bareReturn {es s₁ s₂} (span : Span) : l.Rel es s₁ s₂ →
    l.Firm es (check fun env => Check.checkReturn env none s₁.returns.head? span)
      (check fun env => Check.checkReturn env none s₁.returns.head? span) s₁ s₂
      fun _ _ t₁ t₂ => l.rel es t₁ t₂
  value {es s₁ s₂ i j a b} (span : Span) : l.Rel (.raw i j a b :: es) s₁ s₂ →
    l.Firm es (check fun env => Check.checkReturn env (some i) s₁.returns.head? span)
      (check fun env => Check.checkReturn env (some j) s₁.returns.head? span) s₁ s₂
      fun _ _ t₁ t₂ => l.rel (.checked i j (.returned s₁.returns.head?) :: es) t₁ t₂
  print {es s₁ s₂ i j a b} : l.Rel (.raw i j a b :: es) s₁ s₂ →
    l.Firm es (check fun env => Check.checkPrint env i) (check fun env => Check.checkPrint env j)
      s₁ s₂ fun _ _ t₁ t₂ => l.rel (.checked i j .free :: es) t₁ t₂
  condition {es s₁ s₂ i j a b} : l.Rel (.raw i j a b :: es) s₁ s₂ →
    l.Firm es (check fun env => Check.checkCondition env i)
      (check fun env => Check.checkCondition env j) s₁ s₂
      fun _ _ t₁ t₂ => l.rel (.checked i j .free :: es) t₁ t₂
  initializer {es s₁ s₂ i j a b type} (name : Name) : l.Rel (.raw i j a b :: es) s₁ s₂ →
    type = .invalid ∨ l.knows type s₁ →
    l.Firm es (check fun env => Check.checkInitializer env name type i)
      (check fun env => Check.checkInitializer env name type j) s₁ s₂
      fun c d t₁ t₂ => c = d ∧ l.rel (.checked i j (.stored c) :: es) t₁ t₂
  fold {es s₁ s₂ i j purpose} : l.Rel (.checked i j purpose :: es) s₁ s₂ →
    l.Firm es (Parse.fold i) (Parse.fold j) s₁ s₂ fun v w t₁ t₂ =>
      l.rel (.folded i j v w purpose :: es) t₁ t₂
  span {es s₁ s₂ i j v w purpose} : l.Rel (.folded i j v w purpose :: es) s₁ s₂ →
    l.Firm es (Parse.expr i) (Parse.expr j) s₁ s₂ fun x y t₁ t₂ =>
      x.span = y.span ∧ s₁ = t₁ ∧ s₂ = t₂
  -- Statements.
  stmt {es es' s₁ s₂ j k} (span : Span) : Forms s₁.returns.head? es' j k →
    l.Rel (es' ++ es) s₁ s₂ →
    l.Firm es (addStmt j span) (addStmt k span) s₁ s₂ fun m n t₁ t₂ =>
      l.rel (.stmt m n :: es) t₁ t₂
  -- An error stands for a statement that was reported, or whose type is an invalid one.
  flaw {es s₁ s₂} (span : Span) : l.Rel es s₁ s₂ →
    0 < s₁.reports.reports.size ∨ l.knows .invalid s₁ →
    l.Firm es (addStmt .error span) (addStmt .error span) s₁ s₂ fun m n t₁ t₂ =>
      l.rel (.stmt m n :: es) t₁ t₂
  list {es es' s₁ s₂ is js form entry} (span : Span) : Closes es' is js form entry →
    l.Rel (es' ++ es) s₁ s₂ →
    l.Firm es (listStmt form span is) (listStmt form span js) s₁ s₂ fun m n t₁ t₂ =>
      l.rel (entry m n :: es) t₁ t₂

end Link

end FrontEnd
