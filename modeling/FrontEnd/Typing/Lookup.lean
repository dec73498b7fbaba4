import FrontEnd.Symbol.LinkName
import FrontEnd.Symbol.Tables
import FrontEnd.Source.Lines

/-!
Names in scope. A name is tried bare, then as a member of every namespace that is open or used,
the innermost first; each candidate is looked up from the current depth outward.
-/

namespace FrontEnd

/-- What the checker consults. -/
structure Env where
  types : TypeTable
  names : Interner
  symbols : Symbols
  scope : Scope
  lines : Lines
  /-- Reservation of a scratch arena. -/
  scratch : Nat

/-- The overload chosen for a call. -/
structure Resolved where
  mangled : Name
  ret : TypeId
  /-- Parameters matched, not counting further arguments. -/
  matched : Nat
  depth : Nat
  deriving DecidableEq, Repr

namespace Env

variable (env : Env)

def candidates (name : Name) : List Name :=
  name :: env.scope.searched.filterMap (Qualified.find? env.names env.scratch · name)

/-- Keys under which a name is looked up, in order. -/
def keys (name : Name) : List ScopedKey :=
  (env.candidates name).flatMap fun candidate => env.scope.depths.map (⟨candidate, ·⟩)

/-- Type of the visible variable with this name. -/
def resolveVar (name : Name) : Option TypeId :=
  (env.candidates name).findSome? fun candidate =>
    (VarTable.resolve env.symbols.vars candidate env.scope.depth).map Prod.fst

/-- The visible struct or enum with this name. -/
def resolveType (name : Name) : Option TypeId := (env.keys name).findSome? env.symbols.types.get?

/-- Whether any overload with this name is visible. -/
def functionDeclared (name : Name) : Bool := (env.keys name).any env.symbols.funcs.contains

/-- The visible overloads of a name with their depths, in the order in which they are tried. -/
def visible (name : Name) : List (Overload × Nat) :=
  (env.keys name).flatMap fun key =>
    (FuncTable.overloads env.symbols.funcs key).map (·, key.depth)

/-- Among the overloads that accept the arguments, the first with the most parameters. -/
def best (args : List TypeId) (exact : Bool) (visible : List (Overload × Nat)) :
    Except Fault (Option Resolved) :=
  visible.foldlM
    (fun best (o, depth) => do
      if ← o.accepts env.types exact args then
        match best with
        | some r => if o.params.length ≤ r.matched then return best
        | none => pure ()
        return some ⟨o.mangled, o.ret, o.params.length, depth⟩
      return best)
    none

/-- The overload for a call: one that fits exactly, or else one that fits after widening. -/
def resolveCall (name : Name) (args : List TypeId) : Except Fault (Option Resolved) := do
  let visible := env.visible name
  match ← env.best args true visible with
  | some r => return some r
  | none => env.best args false visible

end Env

end FrontEnd
