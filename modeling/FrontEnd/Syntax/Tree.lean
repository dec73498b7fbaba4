import FrontEnd.Storage.Pool
import FrontEnd.Syntax.Node

/-! Storage of all nodes of one text, and the release of whole subtrees. -/

namespace FrontEnd

structure Tree where
  exprs : Pool Expr
  stmts : Pool Stmt
  exprLists : Array ExprId
  stmtLists : Array StmtId
  deriving DecidableEq, Repr

namespace Tree

/-- An empty tree; each of its pools holds up to `maxSlots` nodes. -/
def withMaxSlots (maxSlots : Nat) : Tree :=
  { exprs := Pool.withMaxSlots maxSlots, stmts := Pool.withMaxSlots maxSlots
    exprLists := #[], stmtLists := #[] }

def addExpr (t : Tree) (e : Expr) : Except StorageError (ExprId × Tree) := do
  let (slot, exprs) ← t.exprs.alloc e
  return (⟨slot⟩, { t with exprs })

def addStmt (t : Tree) (s : Stmt) : Except StorageError (StmtId × Tree) := do
  let (slot, stmts) ← t.stmts.alloc s
  return (⟨slot⟩, { t with stmts })

def addExprList (t : Tree) (ids : List ExprId) : ListRange × Tree :=
  (⟨t.exprLists.size, ids.length⟩, { t with exprLists := t.exprLists ++ ids })

def addStmtList (t : Tree) (ids : List StmtId) : ListRange × Tree :=
  (⟨t.stmtLists.size, ids.length⟩, { t with stmtLists := t.stmtLists ++ ids })

def expr (t : Tree) (id : ExprId) : Except Fault Expr := t.exprs.read id.slot

def stmt (t : Tree) (id : StmtId) : Except Fault Stmt := t.stmts.read id.slot

def setExpr (t : Tree) (id : ExprId) (e : Expr) : Except Fault Tree :=
  return { t with exprs := ← t.exprs.write id.slot e }

def setStmt (t : Tree) (id : StmtId) (s : Stmt) : Except Fault Tree :=
  return { t with stmts := ← t.stmts.write id.slot s }

def exprList (t : Tree) (r : ListRange) : List ExprId :=
  (t.exprLists.extract r.start (r.start + r.len)).toList

def stmtList (t : Tree) (r : ListRange) : List StmtId :=
  (t.stmtLists.extract r.start (r.start + r.len)).toList

/-- Slots of both pools: no path without repetition is longer. -/
def capacity (t : Tree) : Nat := t.exprs.capacity + t.stmts.capacity

/-! ### Children and release -/

/-- Children of an expression, the last first. -/
def exprChildren (t : Tree) : ExprKind → List NodeId
  | .unary _ operand => [.expr operand]
  | .binary _ left right => [.expr right, .expr left]
  | .assign _ target value => [.expr value, .expr target]
  | .call _ args _ => (t.exprList args).reverse.map .expr
  | .member object _ => [.expr object]
  | .lambda _ body => [.stmt body]
  | .group inner => [.expr inner]
  | .error | .literal _ | .str _ | .var _ => []

/-- Children of a statement, the last first. A condition counts as the first child of its loop,
wherever it stands. -/
def stmtChildren (t : Tree) : StmtKind → List NodeId
  | .expr e | .print e | .ret (some e) => [.expr e]
  | .block body | .namesp _ body => (t.stmtList body).reverse.map .stmt
  | .varDecl _ _ (some init) _ => [.expr init]
  | .funcDecl _ _ _ (some body) _ => [.stmt body]
  | .cond cond thenBranch elseBranch =>
    (elseBranch.map .stmt).toList ++ [.stmt thenBranch, .expr cond]
  | .loop cond body | .doLoop body cond => [.stmt body, .expr cond]
  | .error | .ret none | .varDecl _ _ none _ | .funcDecl _ _ _ none _ | .structDecl .. |
    .enumDecl .. | .using _ => []

/-- Frees one node and names its children; a dead node has none. -/
def free (t : Tree) : NodeId → Option (List NodeId × Tree)
  | .expr id =>
    (t.exprs.dealloc id.slot).map fun (e, exprs) => (t.exprChildren e.kind, { t with exprs })
  | .stmt id =>
    (t.stmts.dealloc id.slot).map fun (s, stmts) => (t.stmtChildren s.kind, { t with stmts })

/-- Live nodes of both pools. -/
def liveSlots (t : Tree) : Nat := t.exprs.liveSlots + t.stmts.liveSlots

theorem liveSlots_free {t u : Tree} {id : NodeId} {children : List NodeId}
    (h : t.free id = some (children, u)) : u.liveSlots + 1 = t.liveSlots := by
  cases id with
  | expr id =>
    obtain ⟨⟨e, exprs⟩, hd, he⟩ := Option.map_eq_some_iff.1 h
    have := Pool.liveSlots_dealloc hd
    simp only [Prod.mk.injEq] at he
    obtain ⟨-, rfl⟩ := he
    simp only [liveSlots]
    omega
  | stmt id =>
    obtain ⟨⟨s, stmts⟩, hd, he⟩ := Option.map_eq_some_iff.1 h
    have := Pool.liveSlots_dealloc hd
    simp only [Prod.mk.injEq] at he
    obtain ⟨-, rfl⟩ := he
    simp only [liveSlots]
    omega

/-- Frees the nodes of a work list and everything below them, the last child first; `released`
counts them. It ends on every graph, since a dead node is passed over. -/
def releaseAll (t : Tree) (released : Nat) : List NodeId → Nat × Tree
  | [] => (released, t)
  | id :: work =>
    match _h : t.free id with
    | some (children, u) => u.releaseAll (released + 1) (children ++ work)
    | none => t.releaseAll released work
termination_by work => (t.liveSlots, work.length)
decreasing_by
  · have := liveSlots_free _h
    exact Prod.Lex.left _ _ (by omega)
  · exact Prod.Lex.right _ (by simp)

/-- Frees a node and everything below it. -/
def release (t : Tree) (id : NodeId) : Nat × Tree := t.releaseAll 0 [id]

/-- Overwrites an expression and frees what was below it. -/
def replaceExpr (t : Tree) (id : ExprId) (e : Expr) : Except Fault (Nat × Tree) := do
  let old ← t.expr id
  let t ← t.setExpr id e
  return t.releaseAll 0 (t.exprChildren old.kind)

end Tree

end FrontEnd
