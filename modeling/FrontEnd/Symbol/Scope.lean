import FrontEnd.Name.Interner

/-!
The depth of the current block, and the namespaces that are open or used there.
-/

namespace FrontEnd

/-- A name declared at a depth: the key of every symbol table. -/
structure ScopedKey where
  name : Name
  depth : Nat
  deriving DecidableEq, Hashable, Repr

/-- An open namespace, or one that is only used. -/
structure Context where
  /-- Fully qualified. -/
  name : Name
  depth : Nat
  isNamespace : Bool
  deriving DecidableEq, Repr

structure Scope where
  /-- 0 outside all blocks. -/
  depth : Nat
  /-- The innermost context first. -/
  contexts : List Context
  deriving DecidableEq, Repr

namespace Scope

def top : Scope := ⟨0, []⟩

/-- Opens a block. -/
def enter (s : Scope) : Scope := { s with depth := s.depth + 1 }

/-- Closes the current block and drops what is used in it. Namespaces stay. -/
def leave (s : Scope) : Scope :=
  { depth := s.depth - 1
    contexts := s.contexts.filter fun c => c.isNamespace || c.depth < s.depth }

def pushUsing (s : Scope) (target : Name) : Scope :=
  { s with contexts := ⟨target, s.depth, false⟩ :: s.contexts }

def pushNamespace (s : Scope) (qualified : Name) : Scope :=
  { s with contexts := ⟨qualified, s.depth, true⟩ :: s.contexts }

/-- Leaves the innermost namespace, with everything used inside it. -/
def popNamespace (s : Scope) : Option Name × Scope :=
  match s.contexts.dropWhile (!·.isNamespace) with
  | c :: contexts => (some c.name, { s with contexts })
  | [] => (none, s)

/-- The innermost open namespace. -/
def namespace? (s : Scope) : Option Name := (s.contexts.find? (·.isNamespace)).map Context.name

/-- Namespaces in which a name is looked up after the bare name, the innermost first. -/
def searched (s : Scope) : List Name := s.contexts.map Context.name

/-- Depths at which a name is looked up: the current one and all outer ones. -/
def depths (s : Scope) : List Nat := (List.range (s.depth + 1)).reverse

end Scope

end FrontEnd
