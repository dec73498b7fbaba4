/-!
An open-addressed table with linear probing. An erased entry leaves a tombstone, which keeps
probe chains intact and counts as load until the next growth.
-/

namespace FrontEnd

/-- Smallest capacity other than 0. -/
def minCapacity : Nat := 8

inductive Cell (κ β : Type)
  | empty
  | tombstone
  | full (key : κ) (value : β)
  deriving DecidableEq, Repr

namespace Cell

variable {κ β : Type}

def isFull : Cell κ β → Bool
  | .full .. => true
  | _ => false

def entry? : Cell κ β → Option (κ × β)
  | .full key value => some (key, value)
  | _ => none

end Cell

structure OpenTable (κ β : Type) where
  cells : Array (Cell κ β)
  /-- Keys in the table. -/
  size : Nat
  /-- Cells that are not empty. -/
  used : Nat
  deriving DecidableEq, Repr

/-- Where a key is, or where it would go: the first tombstone on its probe path, or else the
empty cell that ends the path. -/
inductive Probe
  | found (index : Nat)
  | vacant (index : Nat)
  deriving DecidableEq, Repr

namespace OpenTable

variable {κ β : Type} [DecidableEq κ] [Hashable κ]

def empty : OpenTable κ β := { cells := #[], size := 0, used := 0 }

def capacity (t : OpenTable κ β) : Nat := t.cells.size

/-- Cell at which the probe path of a key starts. -/
def home (capacity : Nat) (key : κ) : Nat := (hash key).toNat % capacity

/-- Walks up to `steps` cells of a probe path from `index` on; `grave` is the first tombstone
seen. -/
def probeFrom (cells : Array (Cell κ β)) (key : κ) : Nat → Nat → Option Nat → Probe
  | 0, index, grave => .vacant (grave.getD index)
  | steps + 1, index, grave =>
    match cells[index]? with
    | some (.full k _) =>
      if k = key then .found index
      else probeFrom cells key steps ((index + 1) % cells.size) grave
    | some .tombstone =>
      probeFrom cells key steps ((index + 1) % cells.size) (grave <|> some index)
    | some .empty | none => .vacant (grave.getD index)

def probe (t : OpenTable κ β) (key : κ) : Probe :=
  probeFrom t.cells key t.capacity (home t.capacity key) none

/-- First cell from `index` on that is not full. -/
def firstFree (cells : Array (Cell κ β)) : Nat → Nat → Nat
  | 0, index => index
  | steps + 1, index =>
    if cells[index]?.any Cell.isFull then firstFree cells steps ((index + 1) % cells.size)
    else index

/-- Puts an entry whose key is not in the table into a table without tombstones. -/
def place (t : OpenTable κ β) (key : κ) (value : β) : OpenTable κ β :=
  let index := firstFree t.cells t.capacity (home t.capacity key)
  { cells := t.cells.setIfInBounds index (.full key value), size := t.size + 1, used := t.used + 1 }

/-- Entries in cell order. -/
def entries (t : OpenTable κ β) : List (κ × β) := t.cells.toList.filterMap Cell.entry?

/-- Doubles the capacity and drops the tombstones. -/
def grow (t : OpenTable κ β) : OpenTable κ β :=
  let capacity := if t.capacity < minCapacity then minCapacity else 2 * t.capacity
  t.entries.foldl (fun t (key, value) => t.place key value)
    { cells := Array.replicate capacity .empty, size := 0, used := 0 }

/-- Makes room so that one more used cell leaves a quarter of the cells empty. -/
def reserve (t : OpenTable κ β) : OpenTable κ β :=
  if t.capacity * 3 < (t.used + 1) * 4 then t.grow else t

/-- Inserts or overwrites; the flag says that the key is new. -/
def insert (t : OpenTable κ β) (key : κ) (value : β) : Bool × OpenTable κ β :=
  let t := t.reserve
  match t.probe key with
  | .found index => (false, { t with cells := t.cells.setIfInBounds index (.full key value) })
  | .vacant index =>
    let fresh := match t.cells[index]? with
      | some .empty => 1
      | _ => 0
    (true,
      { cells := t.cells.setIfInBounds index (.full key value)
        size := t.size + 1
        used := t.used + fresh })

def get? (t : OpenTable κ β) (key : κ) : Option β :=
  match t.probe key with
  | .found index => (t.cells[index]?.bind Cell.entry?).map Prod.snd
  | .vacant _ => none

def contains (t : OpenTable κ β) (key : κ) : Bool := (t.get? key).isSome

/-- Changes the value of a key that is in the table. -/
def modify (t : OpenTable κ β) (key : κ) (f : β → β) : OpenTable κ β :=
  match t.probe key with
  | .found index =>
    match t.cells[index]? with
    | some (.full k value) => { t with cells := t.cells.setIfInBounds index (.full k (f value)) }
    | _ => t
  | .vacant _ => t

/-- Removes a key and returns its value. -/
def erase (t : OpenTable κ β) (key : κ) : Option β × OpenTable κ β :=
  match t.probe key with
  | .found index =>
    match t.cells[index]? with
    | some (.full _ value) =>
      (some value,
        { t with cells := t.cells.setIfInBounds index .tombstone, size := t.size - 1 })
    | _ => (none, t)
  | .vacant _ => (none, t)

/-- Removes the entries that `keep` rejects. -/
def filter (t : OpenTable κ β) (keep : κ → β → Bool) : OpenTable κ β :=
  let cells := t.cells.map fun
    | .full key value => if keep key value then .full key value else .tombstone
    | cell => cell
  { t with cells, size := cells.countP Cell.isFull }

def clear (_ : OpenTable κ β) : OpenTable κ β := empty

/-- Inserts every entry of another table. -/
def insertAll (t other : OpenTable κ β) : OpenTable κ β :=
  other.entries.foldl (fun t (key, value) => (t.insert key value).2) t

end OpenTable

end FrontEnd
