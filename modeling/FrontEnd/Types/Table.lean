import FrontEnd.Types.Basic
import FrontEnd.Storage.Pool
import FrontEnd.Storage.Draft

/-! The types of one text. Two types are equal exactly if their canonical texts are. -/

namespace FrontEnd

structure TypeTable where
  types : Pool TypeDesc
  deriving DecidableEq, Repr

namespace TypeTable

def add (t : TypeTable) (kind : TypeKind) (text : Name) :
    Except StorageError (TypeId × TypeTable) := do
  let (slot, types) ← t.types.alloc ⟨kind, text⟩
  return (⟨slot⟩, { t with types })

/-- Adds basic types and interns their texts. -/
def addBasics (t : TypeTable) (names : Interner) :
    List BasicType → Except StorageError (TypeTable × Interner)
  | [] => .ok (t, names)
  | b :: rest => do
    let (text, names) ← names.intern b.text
    let (_, t) ← t.add (.basic b) text
    t.addBasics names rest

/-- A table that holds the basic types. -/
def withMaxSlots (names : Interner) (maxSlots : Nat) : Except StorageError (TypeTable × Interner) :=
  addBasics ⟨Pool.withMaxSlots maxSlots⟩ names BasicType.all

def size (t : TypeTable) : Nat := t.types.size

def desc (t : TypeTable) (id : TypeId) : Except Fault TypeDesc := t.types.read id.slot

def kind (t : TypeTable) (id : TypeId) : Except Fault TypeKind := return (← t.desc id).kind

def equal (t : TypeTable) (a b : TypeId) : Except Fault Bool :=
  if a = b then return true else return (← t.desc a).text == (← t.desc b).text

def rank? (t : TypeTable) (id : TypeId) : Except Fault (Option Nat) := return (← t.kind id).rank?

def isNumeric (t : TypeTable) (id : TypeId) : Except Fault Bool := return (← t.rank? id).isSome

/-- Char, integer or long. -/
def isIntegral (t : TypeTable) (id : TypeId) : Except Fault Bool :=
  return (← t.rank? id).any (· ≤ 2)

/-- Whether a value of type `actual` can stand where `expected` is wanted: the types are equal,
one is invalid, or the value widens. -/
def compatible (t : TypeTable) (actual expected : TypeId) : Except Fault Bool := do
  if ← t.equal actual expected then return true
  if actual = .invalid ∨ expected = .invalid then return true
  match ← t.rank? actual, ← t.rank? expected with
  | some a, some b => return a ≤ b
  | _, _ => return false

/-- The wider of two numeric types. -/
def wider (t : TypeTable) (a b : TypeId) : Except Fault TypeId := do
  match ← t.rank? a, ← t.rank? b with
  | some ra, some rb => return if ra < rb then b else a
  | _, _ => return a

def function? (t : TypeTable) (id : TypeId) : Except Fault (Option Signature) :=
  return (← t.kind id).function?

/-- Canonical text of a type. -/
def text (t : TypeTable) (names : Interner) (id : TypeId) : Except Fault String :=
  return names.lookup (← t.desc id).text

/-- A type as messages name it. -/
def describe (t : TypeTable) (names : Interner) (id : TypeId) : Except Fault String := do
  let desc ← t.desc id
  match desc.kind.basic? with
  | some b => return b.display
  | none => return names.lookup desc.text

/-- The pieces of `func(int,cstring,...)->void`, each group written in one go. -/
def functionPieces (params : List String) (variadic : Bool) (ret : String) : List (List String) :=
  let rest := match params with
    | [] => [["func("]]
    | first :: rest => ["func("] :: ["", first] :: rest.map fun param => [",", param]
  let dots := if variadic then [[if params.isEmpty then "" else ",", "..."]] else []
  rest ++ dots ++ [[")->", ret]]

/-- Canonical text of a function type, composed under the reservation of a scratch arena. -/
def functionText (t : TypeTable) (names : Interner) (scratch : Nat) (signature : Signature) :
    Except (Halt StorageError) String := do
  let params ← Halt.liftFault (signature.params.mapM (t.text names))
  let ret ← Halt.liftFault (t.text names signature.ret)
  let draft := (functionPieces params signature.variadic ret).foldl Draft.puts
    (Draft.withReserve scratch)
  Halt.liftCause draft.finish

/-- Adds a function type. Its text stays interned even if the table has no room. -/
def addFunction (scratch : Nat) (signature : Signature) :
    EStateM (Halt StorageError) (TypeTable × Interner) TypeId := do
  let (t, names) ← get
  let text ← ofExcept (t.functionText names scratch signature)
  let (text, names) ← ofExcept (Halt.liftCause (names.intern text))
  set (t, names)
  let (id, t) ← ofExcept (Halt.liftCause (t.add (.function signature) text))
  set (t, names)
  return id

/-- The text of a struct or enum is its name. -/
def addStruct (t : TypeTable) (name : Name) (fields : List Field) :
    Except StorageError (TypeId × TypeTable) :=
  t.add (.struct name fields) name

def addEnum (t : TypeTable) (name : Name) (variants : List Name) :
    Except StorageError (TypeId × TypeTable) :=
  t.add (.enum name variants) name

end TypeTable

end FrontEnd
