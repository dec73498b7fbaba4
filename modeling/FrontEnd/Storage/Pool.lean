import FrontEnd.Storage.Arena

/-!
A pool of equal slots with stable keys. Freed slots are chained through a free list and are
handed out again, the last freed first; fresh slots come in ascending order.
-/

namespace FrontEnd

/-- Slots committed at once when the free list is empty. -/
def poolBatch : Nat := 32

/-- Slot ceiling of a pool that asks for none in particular. -/
def defaultPoolSlots : Nat := 0x1000000

inductive Slot (α : Type)
  | live (value : α)
  | free (next : Option Nat)
  deriving DecidableEq, Repr

namespace Slot

variable {α : Type}

def value? : Slot α → Option α
  | .live value => some value
  | .free _ => none

@[simp] theorem value?_live (value : α) : (live value).value? = some value := rfl

@[simp] theorem value?_free (next : Option Nat) : (free next : Slot α).value? = none := rfl

end Slot

structure Pool (α : Type) where
  slots : Array (Slot α)
  freeHead : Option Nat
  /-- Number of live slots. -/
  size : Nat
  maxSlots : Nat
  deriving DecidableEq, Repr

namespace Pool

variable {α : Type}

def withMaxSlots (maxSlots : Nat) : Pool α :=
  { slots := #[], freeHead := none, size := 0, maxSlots := min maxSlots maxOffset }

/-- Committed slots, live or free. -/
def capacity (p : Pool α) : Nat := p.slots.size

/-- Commits a batch, chained in ascending order, as the new free list. -/
def grow (p : Pool α) : Except StorageError (Pool α) :=
  let start := p.slots.size
  let count := min poolBatch (p.maxSlots - start)
  if count = 0 then
    .error (.poolExhausted p.maxSlots)
  else
    let batch := Array.ofFn fun i : Fin count =>
      Slot.free (if i.val + 1 < count then some (start + i.val + 1) else none)
    .ok { p with slots := p.slots ++ batch, freeHead := some start }

/-- Takes the head of the free list. -/
def take (p : Pool α) (value : α) : Except StorageError (Nat × Pool α) :=
  match p.freeHead with
  | none => .error (.poolExhausted p.maxSlots)
  | some slot =>
    let next := match p.slots[slot]? with
      | some (.free next) => next
      | _ => none
    .ok (slot, { p with
      slots := p.slots.setIfInBounds slot (.live value), freeHead := next, size := p.size + 1 })

def alloc (p : Pool α) (value : α) : Except StorageError (Nat × Pool α) :=
  match p.freeHead with
  | some _ => p.take value
  | none => do (← p.grow).take value

def get? (p : Pool α) (slot : Nat) : Option α := p.slots[slot]?.bind Slot.value?

/-- Frees a live slot and returns what it held; `none` if the slot is free or unknown. -/
def dealloc (p : Pool α) (slot : Nat) : Option (α × Pool α) :=
  match p.slots[slot]? with
  | some (.live value) =>
    some (value, { p with
      slots := p.slots.setIfInBounds slot (.free p.freeHead), freeHead := some slot,
      size := p.size - 1 })
  | _ => none

/-- Live slots, counted one by one. -/
def liveSlots (p : Pool α) : Nat := p.slots.countP (·.value?.isSome)

theorem liveSlots_dealloc {p q : Pool α} {slot : Nat} {value : α}
    (h : p.dealloc slot = some (value, q)) : q.liveSlots + 1 = p.liveSlots := by
  unfold dealloc at h
  split at h
  next v hv =>
    obtain ⟨hlt, hv⟩ := Array.getElem?_eq_some_iff.1 hv
    simp only [Option.some.injEq, Prod.mk.injEq] at h
    obtain ⟨-, rfl⟩ := h
    have hpos : 0 < p.slots.countP (·.value?.isSome) :=
      Array.countP_pos_iff.2 ⟨_, Array.getElem_mem hlt, by simp [hv]⟩
    have hset (x : Slot α) : p.slots.setIfInBounds slot x = p.slots.set slot x hlt := by
      simp [Array.setIfInBounds, hlt]
    simp only [liveSlots, hset, Array.countP_set, hv]
    simp only [Slot.value?_live, Slot.value?_free, Option.isSome_some, ↓reduceIte,
      Option.isSome_none, Bool.false_eq_true]
    omega
  next => simp at h

/-- Replaces the value of a live slot. -/
def set? (p : Pool α) (slot : Nat) (value : α) : Option (Pool α) :=
  match p.slots[slot]? with
  | some (.live _) => some { p with slots := p.slots.setIfInBounds slot (.live value) }
  | _ => none

/-- `get?` for callers that know the slot to be live. -/
def read (p : Pool α) (slot : Nat) : Except Fault α :=
  match p.get? slot with
  | some value => .ok value
  | none => .error (.deadSlot slot)

/-- `set?` for callers that know the slot to be live. -/
def write (p : Pool α) (slot : Nat) (value : α) : Except Fault (Pool α) :=
  match p.set? slot value with
  | some p => .ok p
  | none => .error (.deadSlot slot)

def clear (p : Pool α) : Pool α := { p with slots := #[], freeHead := none, size := 0 }

/-- The live slots in ascending order. -/
def entries (p : Pool α) : List (Nat × α) :=
  p.slots.toList.zipIdx.filterMap fun (slot, key) => slot.value?.map (key, ·)

def describe (p : Pool α) : String :=
  "Pool \x7b live: " ++ toString p.size ++ ", capacity: " ++ toString p.capacity ++
    ", max_slots: " ++ toString p.maxSlots ++ " \x7d"

end Pool

end FrontEnd
