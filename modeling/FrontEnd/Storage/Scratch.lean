import FrontEnd.Storage.Arena

/-!
A pool of short-lived arenas. An arena is lent with a stable index; when it comes back it is
rewound, keeps its committed memory, and is the next to be lent.
-/

namespace FrontEnd

structure ScratchPool where
  /-- Every arena ever made, under its index; while it is lent, an empty one stands in its place. -/
  slots : Array Arena
  /-- Indices of the arenas at rest, the last returned first. -/
  free : List Nat
  reserve : Nat
  free_lt : ∀ index ∈ free, index < slots.size
  deriving DecidableEq, Repr

namespace ScratchPool

def withReserve (reserve : Nat) : ScratchPool :=
  { slots := #[], free := [], reserve, free_lt := nofun }

/-- Arenas ever made. -/
def size (p : ScratchPool) : Nat := p.slots.size

/-- Lends an arena and its index. -/
def acquire (p : ScratchPool) : Nat × Arena × ScratchPool :=
  match hfree : p.free with
  | index :: free =>
    have hlt : ∀ i ∈ index :: free, i < p.slots.size := hfree ▸ p.free_lt
    have hindex : index < p.slots.size := hlt index List.mem_cons_self
    (index, p.slots[index],
      { slots := p.slots.set index (Arena.withReserve defaultReserve), free, reserve := p.reserve
        free_lt := fun i hi => by
          rw [Array.size_set]
          exact hlt i (List.mem_cons_of_mem _ hi) })
  | [] =>
    (p.size, Arena.withReserve p.reserve,
      { slots := p.slots.push (Arena.withReserve 0), free := [], reserve := p.reserve
        free_lt := nofun })

/-- Takes a lent arena back. -/
def release (p : ScratchPool) (index : Nat) (a : Arena) : ScratchPool :=
  if h : index < p.slots.size then
    { slots := p.slots.set index a.clear, free := index :: p.free, reserve := p.reserve
      free_lt := fun i hi => by
        rw [Array.size_set]
        obtain rfl | hi := List.mem_cons.1 hi
        · exact h
        · exact p.free_lt i hi }
  else p

/-- Arenas that are lent. -/
def inUse (p : ScratchPool) : Nat := p.size - p.free.length

end ScratchPool

end FrontEnd
