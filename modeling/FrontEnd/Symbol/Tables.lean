import FrontEnd.Symbol.OpenTable
import FrontEnd.Symbol.Scope
import FrontEnd.Types.Table

/-! The tables of variables, functions and type names. -/

namespace FrontEnd

/-- One declared signature of a function name. -/
structure Overload where
  /-- The link name, which is composed from the names of the function and its parameter types. -/
  mangled : Name
  params : List TypeId
  variadic : Bool
  isNative : Bool
  ret : TypeId
  type : TypeId
  deriving DecidableEq, Repr

namespace Overload

/-- Whether two overloads have equal parameter lists. Return types do not count. -/
def sameParams (types : TypeTable) (o p : Overload) : Except Fault Bool :=
  if o.variadic = p.variadic ∧ o.params.length = p.params.length then
    (o.params.zip p.params).allM fun (a, b) => types.equal a b
  else return false

/-- Whether the number of arguments fits. -/
def fitsArity (o : Overload) (args : List TypeId) : Bool :=
  if o.variadic then o.params.length ≤ args.length else o.params.length == args.length

/-- Whether arguments of these types fit, exactly or after widening. -/
def accepts (types : TypeTable) (exact : Bool) (o : Overload) (args : List TypeId) :
    Except Fault Bool :=
  if o.fitsArity args then
    (o.params.zip args).allM fun (declared, actual) =>
      if exact then types.equal actual declared else types.compatible actual declared
  else return false

end Overload

abbrev VarTable := OpenTable ScopedKey TypeId

abbrev FuncTable := OpenTable ScopedKey (List Overload)

namespace VarTable

/-- The declaration of a name at `depth` or the nearest outer depth, with its depth. -/
def resolve (t : VarTable) (name : Name) : Nat → Option (TypeId × Nat)
  | 0 => (t.get? ⟨name, 0⟩).map (·, 0)
  | depth + 1 =>
    match t.get? ⟨name, depth + 1⟩ with
    | some type => some (type, depth + 1)
    | none => resolve t name depth

end VarTable

namespace FuncTable

/-- Overloads in the order of their declaration. -/
def overloads (t : FuncTable) (key : ScopedKey) : List Overload := (t.get? key).getD []

/-- A chain with an overload added: in the place of one with equal parameters, or else last. The
flag says that one was replaced. -/
def extend (types : TypeTable) (o : Overload) : List Overload → Except Fault (Bool × List Overload)
  | [] => return (false, [o])
  | p :: rest => do
    if ← p.sameParams types o then return (true, o :: rest)
    let (replaced, rest) ← extend types o rest
    return (replaced, p :: rest)

def declare (t : FuncTable) (types : TypeTable) (key : ScopedKey) (o : Overload) :
    Except Fault (Bool × FuncTable) := do
  match t.get? key with
  | some chain =>
    let (replaced, chain) ← extend types o chain
    return (replaced, t.modify key fun _ => chain)
  | none => return (false, (t.insert key [o]).2)

/-- The first overload that accepts the arguments. -/
def find? (t : FuncTable) (types : TypeTable) (key : ScopedKey) (args : List TypeId)
    (exact : Bool) : Except Fault (Option Overload) :=
  (t.overloads key).findM? fun o => o.accepts types exact args

/-- Removes the overload with a link name; the key goes with its last overload. -/
def eraseOverload (t : FuncTable) (key : ScopedKey) (mangled : Name) :
    Option Overload × FuncTable :=
  match t.get? key with
  | none => (none, t)
  | some chain =>
    match chain.find? (·.mangled == mangled) with
    | none => (none, t)
    | some o =>
      let chain := chain.eraseP (·.mangled == mangled)
      (some o, if chain.isEmpty then (t.erase key).2 else t.modify key fun _ => chain)

end FuncTable

structure Symbols where
  vars : VarTable
  funcs : FuncTable
  types : OpenTable ScopedKey TypeId

namespace Symbols

def empty : Symbols := ⟨.empty, .empty, .empty⟩

/-- Drops everything declared at a depth. -/
def leaveDepth (s : Symbols) (depth : Nat) : Symbols :=
  { vars := s.vars.filter fun key _ => key.depth != depth
    funcs := s.funcs.filter fun key _ => key.depth != depth
    types := s.types.filter fun key _ => key.depth != depth }

end Symbols

end FrontEnd
