import FrontEnd.Storage.Arena

/-!
Text composed in an arena of its own. A piece that would pass the reservation is left out and
the draft stays incomplete; later pieces may still fit.
-/

namespace FrontEnd

structure Draft where
  text : String
  reserve : Nat
  complete : Bool
  deriving DecidableEq, Repr

namespace Draft

def withReserve (reserve : Nat) : Draft :=
  { text := "", reserve := min reserve maxOffset, complete := true }

/-- Bytes written so far. -/
def size (d : Draft) : Nat := d.text.utf8ByteSize

def put (d : Draft) (piece : String) : Draft :=
  if d.size + piece.utf8ByteSize ≤ d.reserve then { d with text := d.text ++ piece }
  else { d with complete := false }

/-- Writes pieces in order up to the first that does not fit. -/
def puts (d : Draft) : List String → Draft
  | [] => d
  | piece :: rest =>
    if d.size + piece.utf8ByteSize ≤ d.reserve then (d.put piece).puts rest
    else { d with complete := false }

/-- The whole text, or how much of it was written when room ran out. -/
def finish (d : Draft) : Except StorageError String :=
  if d.complete then .ok d.text else .error (.outOfReserve d.size d.size d.reserve)

end Draft

end FrontEnd
