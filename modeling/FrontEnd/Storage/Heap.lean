import FrontEnd.Storage.Arena

/-!
A first-fit heap. Free ranges are kept sorted by offset and joined with their neighbours;
the committed boundary grows in chunks when no range fits.
-/

namespace FrontEnd

/-- Block sizes are multiples of this. -/
def heapAlign : Nat := 8

/-- Sizes are 64-bit numbers. -/
def sizeBound : Nat := UInt64.size

/-- A number that must fit in 64 bits; `verb` names the operation that produced it. -/
def fitting (verb : String) (n : Nat) : Except (Halt StorageError) Nat :=
  if n < sizeBound then .ok n else .error (.fault (.overflow verb))

structure FreeRange where
  offset : Nat
  size : Nat
  deriving DecidableEq, Repr

def FreeRange.stop (r : FreeRange) : Nat := r.offset + r.size

structure Heap where
  memory : Array UInt8
  reserve : Nat
  /-- Sorted by offset. -/
  free : List FreeRange
  deriving DecidableEq, Repr

namespace Heap

def withReserve (reserve : Nat) : Heap :=
  { memory := #[], reserve := min reserve maxOffset, free := [] }

def committed (h : Heap) : Nat := h.memory.size

def freeBytes (h : Heap) : Nat := h.free.foldr (fun r total => r.size + total) 0

/-- Cuts `size` bytes off the front of the first range that has them. -/
def carve (size : Nat) : List FreeRange → Option (Nat × List FreeRange)
  | [] => none
  | r :: rest =>
    if size ≤ r.size then
      some (r.offset, if r.size = size then rest else ⟨r.offset + size, r.size - size⟩ :: rest)
    else
      (carve size rest).map fun (offset, rest) => (offset, r :: rest)

/-- Joins `r` with the range after it, then with the range before it, where they touch. -/
def join (before : List FreeRange) (r : FreeRange) (after : List FreeRange) : List FreeRange :=
  let (r, after) := match after with
    | next :: rest =>
      if r.stop = next.offset then (FreeRange.mk r.offset (r.size + next.size), rest)
      else (r, after)
    | [] => (r, after)
  match before.getLast? with
  | some last =>
    if last.stop = r.offset then
      before.dropLast ++ FreeRange.mk last.offset (last.size + r.size) :: after
    else before ++ r :: after
  | none => r :: after

/-- Size of the free range that ends at the committed boundary. -/
def tail (h : Heap) : Nat :=
  match h.free.getLast? with
  | some last => if last.stop = h.memory.size then last.size else 0
  | none => 0

/-- Commits enough chunks for `size` bytes that end at the new boundary. -/
def grow (h : Heap) (size : Nat) : Except (Halt StorageError) Heap := do
  let old := h.memory.size
  let shortfall := size - h.tail
  let step ← fitting "multiply" (roundUp commitChunk shortfall)
  let target ← fitting "add" (old + step)
  if old + shortfall > h.reserve then
    throw (.cause (.outOfReserve size old h.reserve))
  let target := min target h.reserve
  return { h with
    memory := h.memory ++ Array.replicate (target - old) 0
    free := join h.free ⟨old, target - old⟩ [] }

/-- A block of at least `size` bytes. -/
def alloc (h : Heap) (size : Nat) : Except (Halt StorageError) (FreeRange × Heap) := do
  let size ← fitting "multiply" (roundUp heapAlign (max size 1))
  match carve size h.free with
  | some (offset, free) => return (⟨offset, size⟩, { h with free })
  | none =>
    let h ← h.grow size
    match carve size h.free with
    | some (offset, free) => return (⟨offset, size⟩, { h with free })
    | none => throw (.fault .endless)

/-- Frees a block. A block that is empty, outside the committed region or overlaps a free
range is refused. -/
def dealloc (h : Heap) (block : FreeRange) : Except StorageError Heap :=
  let (before, after) := h.free.span (·.offset < block.offset)
  let overlaps :=
    (before.getLast?.any fun last => block.offset < last.stop) ||
      (after.head?.any fun next => next.offset < block.stop)
  if block.size = 0 || h.memory.size < block.stop || overlaps then
    .error (.invalidFree block.offset)
  else
    .ok { h with free := join before block after }

def bytes (h : Heap) (block : FreeRange) : List UInt8 :=
  ByteRange.read ⟨block.offset, block.size⟩ h.memory

def fill (h : Heap) (block : FreeRange) (b : UInt8) : Nat × Heap :=
  let (count, memory) := ByteRange.fill ⟨block.offset, block.size⟩ h.memory b
  (count, { h with memory })

/-- Frees every block at once and keeps the committed memory. -/
def clear (h : Heap) : Heap :=
  { h with free := if h.memory.isEmpty then [] else [⟨0, h.memory.size⟩] }

end Heap

end FrontEnd
