/-! Why a storage refuses a request, and why a walk over stored nodes stops. -/

namespace FrontEnd

/-- A refused request. The storage that refuses is left as it was. -/
inductive StorageError
  | outOfReserve (requested used reserve : Nat)
  | poolExhausted (maxSlots : Nat)
  | invalidFree (offset : Nat)
  deriving DecidableEq, Repr

def StorageError.message : StorageError → String
  | .outOfReserve requested used reserve =>
    s!"reservation of {reserve} bytes exhausted: {requested} bytes requested at offset {used}"
  | .poolExhausted maxSlots => s!"pool exhausted after {maxSlots} slots"
  | .invalidFree offset => s!"block at offset {offset} is not a live heap allocation"

/-- A promise of the caller that does not hold. Nothing recovers from it. -/
inductive Fault
  /-- A slot was read or written that holds nothing. -/
  | deadSlot (slot : Nat)
  /-- A name had to be interned and no room was left. -/
  | interning (cause : StorageError)
  /-- A number left the range of its place. -/
  | overflow (verb : String)
  /-- A walk over a finite structure used up more steps than the structure has parts. -/
  | endless
  deriving DecidableEq, Repr

def Fault.message : Fault → String
  | .deadSlot slot => s!"pool slot {slot} is not live"
  | .interning cause => "string interner: " ++ cause.message
  | .overflow verb => s!"attempt to {verb} with overflow"
  | .endless => "the walk does not end"

/-- An operation stops for a cause of its own or for a fault. -/
inductive Halt (ε : Type)
  | cause (error : ε)
  | fault (fault : Fault)
  deriving DecidableEq, Repr

namespace Halt

variable {ε α : Type}

def liftCause : Except ε α → Except (Halt ε) α
  | .ok a => .ok a
  | .error e => .error (.cause e)

def liftFault : Except Fault α → Except (Halt ε) α
  | .ok a => .ok a
  | .error f => .error (.fault f)

end Halt

end FrontEnd
