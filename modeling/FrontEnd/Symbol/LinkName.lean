import FrontEnd.Types.Table

/-! Link names of overloads, and qualified names of members of namespaces. -/

namespace FrontEnd

namespace LinkName

/-- Pieces of `f_2intint`: the name, the number of parameters, their types, and a mark if more
arguments may follow. The first piece without room ends the draft. -/
def draft (types : TypeTable) (names : Interner) (scratch : Nat) (name : Name)
    (params : List TypeId) (variadic : Bool) : Except Fault Draft := do
  let start := (Draft.withReserve scratch).puts [names.lookup name, "_", toString params.length]
  let draft ← params.foldlM
    (fun d param => do if d.complete then return d.put (← types.text names param) else return d)
    start
  return if variadic && draft.complete then draft.put "_va" else draft

def make (types : TypeTable) (names : Interner) (scratch : Nat) (name : Name)
    (params : List TypeId) (variadic : Bool) : Except (Halt StorageError) (Name × Interner) := do
  let draft ← Halt.liftFault (draft types names scratch name params variadic)
  Halt.liftCause (draft.finish >>= names.intern)

end LinkName

namespace Qualified

def draft (names : Interner) (scratch : Nat) (outer name : Name) : Draft :=
  (Draft.withReserve scratch).puts [names.lookup outer, "::", names.lookup name]

/-- The name of a member of a namespace. -/
def make (names : Interner) (scratch : Nat) (outer name : Name) :
    Except StorageError (Name × Interner) :=
  (draft names scratch outer name).finish >>= names.intern

/-- The name of a member if it was ever made. -/
def find? (names : Interner) (scratch : Nat) (outer name : Name) : Option Name :=
  (draft names scratch outer name).finish.toOption.bind names.get?

end Qualified

end FrontEnd
