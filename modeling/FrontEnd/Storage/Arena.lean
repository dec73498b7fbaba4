import FrontEnd.Storage.Failure

/-!
A byte arena: allocation only moves forward, memory is committed in chunks under a fixed
reservation, and a rewind keeps the bytes it passes over.
-/

namespace FrontEnd

/-- Granularity of committed memory. -/
def commitChunk : Nat := 8192

/-- Reservation of an arena or heap that asks for none in particular: 1 GiB. -/
def defaultReserve : Nat := 0x40000000

/-- Largest offset, and so the largest reservation. -/
def maxOffset : Nat := 0xFFFFFFFF

/-- The least multiple of `unit` that is not below `size`. -/
def roundUp (unit size : Nat) : Nat := (size + unit - 1) / unit * unit

/-- Replaces the bytes from `offset` on; what would lie past the end is dropped. -/
def overwrite (memory : Array UInt8) (offset : Nat) : List UInt8 → Array UInt8
  | [] => memory
  | b :: rest => overwrite (memory.setIfInBounds offset b) (offset + 1) rest

/-- Bytes `offset … offset + len - 1` of an arena. -/
structure ByteRange where
  offset : Nat
  len : Nat
  deriving DecidableEq, Repr

/-- Bytes of a range, none if the range is not wholly committed. -/
def ByteRange.read (r : ByteRange) (memory : Array UInt8) : List UInt8 :=
  if r.offset + r.len ≤ memory.size then (memory.extract r.offset (r.offset + r.len)).toList
  else []

/-- Sets every byte of a range and returns its length; a range that is not wholly committed
counts as empty. -/
def ByteRange.fill (r : ByteRange) (memory : Array UInt8) (b : UInt8) : Nat × Array UInt8 :=
  if r.offset + r.len ≤ memory.size then
    (r.len, overwrite memory r.offset (List.replicate r.len b))
  else (0, memory)

structure Arena where
  /-- The committed bytes. -/
  memory : Array UInt8
  reserve : Nat
  pos : Nat
  deriving DecidableEq, Repr

namespace Arena

/-- An empty arena. Offsets have 32 bits, which bounds the reservation. -/
def withReserve (reserve : Nat) : Arena :=
  { memory := #[], reserve := min reserve maxOffset, pos := 0 }

def committed (a : Arena) : Nat := a.memory.size

/-- Commits whole chunks until `stop` is covered, never past the reservation. -/
def cover (a : Arena) (stop : Nat) : Arena :=
  let target := min (a.memory.size + roundUp commitChunk (stop - a.memory.size)) a.reserve
  { a with memory := a.memory ++ Array.replicate (target - a.memory.size) 0 }

/-- Moves the cursor over `size` bytes and returns where they start. Their contents are what
was there before: zero in fresh memory, old bytes after a rewind. -/
def alloc (a : Arena) (size : Nat) : Except StorageError (Nat × Arena) :=
  if a.pos + size ≤ a.reserve then
    .ok (a.pos, { a.cover (a.pos + size) with pos := a.pos + size })
  else
    .error (.outOfReserve size a.pos a.reserve)

/-- Copies `bytes` to the cursor. -/
def store (a : Arena) (bytes : List UInt8) : Except StorageError (ByteRange × Arena) := do
  let (offset, a) ← a.alloc bytes.length
  return (⟨offset, bytes.length⟩, { a with memory := overwrite a.memory offset bytes })

def allocZeroed (a : Arena) (size : Nat) : Except StorageError (Nat × Arena) := do
  let (offset, a) ← a.alloc size
  return (offset, { a with memory := overwrite a.memory offset (List.replicate size 0) })

def storeText (a : Arena) (text : String) : Except StorageError (ByteRange × Arena) :=
  a.store text.toUTF8.data.toList

/-- Appends texts one after the other up to the first that does not fit; the flag says
whether all did. -/
def append (a : Arena) : List String → Bool × Arena
  | [] => (true, a)
  | text :: rest =>
    match a.storeText text with
    | .ok (_, a) => a.append rest
    | .error _ => (false, a)

/-- `append`, with the range that holds everything written. -/
def write (a : Arena) (texts : List String) : Bool × ByteRange × Arena :=
  let (complete, b) := a.append texts
  (complete, ⟨a.pos, b.pos - a.pos⟩, b)

def bytes (a : Arena) (r : ByteRange) : List UInt8 := r.read a.memory

/-- Text of a range; empty if the bytes there are no longer valid UTF-8. -/
def text (a : Arena) (r : ByteRange) : String :=
  (String.fromUTF8? ⟨(a.bytes r).toArray⟩).getD ""

def fill (a : Arena) (r : ByteRange) (b : UInt8) : Nat × Arena :=
  let (count, memory) := r.fill a.memory b
  (count, { a with memory })

/-- Rewinds the cursor; never moves it forward. -/
def rewindTo (a : Arena) (pos : Nat) : Arena := { a with pos := min a.pos pos }

/-- Gives back the last `size` bytes, or all there are. -/
def rewindBy (a : Arena) (size : Nat) : Arena := { a with pos := a.pos - size }

/-- Rewinds to the start and keeps the committed memory. -/
def clear (a : Arena) : Arena := { a with pos := 0 }

/-- Keeps only the chunks that the cursor reaches. -/
def decommit (a : Arena) : Arena :=
  { a with memory := a.memory.take (min (roundUp commitChunk a.pos) a.reserve) }

/-- Rewinds to the start and gives back all memory. -/
def reset (a : Arena) : Arena := a.clear.decommit

def describe (a : Arena) : String :=
  "Arena \x7b pos: " ++ toString a.pos ++ ", committed: " ++ toString a.committed ++
    ", reserve: " ++ toString a.reserve ++ " \x7d"

end Arena

end FrontEnd
