import FrontEnd.Grammar.Program

/-!
Compilation of a text: its statements as checked trees with constants folded, and reports of what
is wrong with it.
-/

namespace FrontEnd

structure Settings where
  /-- Reports accepted before reading ends; 0 for no ceiling. -/
  errorLimit : Nat
  /-- Replace constant subtrees by literals. -/
  folds : Bool
  /-- Byte reservation of the names and of each scratch arena. -/
  arenaReserve : Nat
  /-- Slot ceiling of each pool. -/
  poolReserve : Nat
  /-- Drop reports that repeat a code at its position. -/
  deduplicate : Bool
  deriving DecidableEq, Repr

def Settings.standard : Settings :=
  { errorLimit := 20, folds := true, arenaReserve := defaultReserve
    poolReserve := defaultPoolSlots, deduplicate := true }

/-- The state in front of the first token that is no error. There is none if the types do not
even have room for the basic ones. -/
def ParseState.ofText (text : String) (settings : Settings) : Except StorageError ParseState := do
  let (types, names) ← TypeTable.withMaxSlots (Interner.withReserve settings.arenaReserve)
    settings.poolReserve
  let start : ParseState :=
    { window := Window.ofText text
      lines := Lines.ofText text
      tree := Tree.withMaxSlots settings.poolReserve
      types, names
      symbols := .empty
      scope := .top
      folder := .empty
      reports := Queue.withConfig ⟨settings.errorLimit, settings.deduplicate⟩
      returns := []
      folds := settings.folds
      scratch := settings.arenaReserve }
  match Parse.skipErrors start with
  | .ok _ s | .error _ s => return s

structure Compilation where
  tree : Tree
  types : TypeTable
  names : Interner
  /-- Statements outside all blocks, in order. -/
  items : List StmtId
  /-- Sorted by position. -/
  reports : List Report
  /-- The ceiling ended reading before the end of the text. -/
  truncated : Bool

namespace Compilation

def ofText (text : String) (settings : Settings) : Except (Halt StorageError) Compilation := do
  let start ← Halt.liftCause (ParseState.ofText text settings)
  match (Parse.production .program).run start with
  | .ok items s =>
    let (reports, _) := s.reports.flush
    return { tree := s.tree, types := s.types, names := s.names, items, reports
             truncated := s.reports.truncated }
  | .error (.fault f) _ => throw (.fault f)
  | .error (.exhausted cause) _ => throw (.cause cause)
  | .error .reported _ => throw (.fault .endless)

def hasErrors (c : Compilation) : Bool := !c.reports.isEmpty

/-- The reports, one after the other. -/
def rendered (c : Compilation) : String := String.join (c.reports.map (·.text ++ "\n"))

end Compilation

end FrontEnd
