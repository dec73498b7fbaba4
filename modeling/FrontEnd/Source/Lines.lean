import FrontEnd.Source.Span

/-! Lines and columns of byte offsets. -/

namespace FrontEnd

/-- Offsets at which the lines of a text start. -/
structure Lines where
  starts : List Nat
  deriving DecidableEq, Repr

namespace Lines

/-- Offsets after each line feed of `bytes`, the first of which lies at `offset`. -/
def startsAfter (offset : Nat) : List UInt8 → List Nat
  | [] => []
  | b :: rest => if b = 10 then (offset + 1) :: startsAfter (offset + 1) rest
    else startsAfter (offset + 1) rest

def ofBytes (bytes : List UInt8) : Lines := ⟨0 :: startsAfter 0 bytes⟩

def ofText (text : String) : Lines := ofBytes text.toUTF8.data.toList

def count (l : Lines) : Nat := l.starts.length

/-- Line and column of an offset, both from 1; columns count bytes. -/
def position (l : Lines) (offset : Nat) : Nat × Nat :=
  let before := l.starts.takeWhile (· ≤ offset)
  (before.length, offset - before.getLast?.getD 0 + 1)

/-- The position of an offset, as a report holds it. A column has 32 bits, which leaves no room for
that of the largest offset on the first line. -/
def locate (l : Lines) (offset : Nat) : Except Fault (Nat × Nat) :=
  let (line, col) := l.position offset
  if col ≤ maxOffset then .ok (line, col) else .error (.overflow "add")

end Lines

end FrontEnd
