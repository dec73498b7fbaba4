import FrontEnd.Storage.Pool

/-! What allocation, release and overwriting do to the contents of a pool. -/

namespace FrontEnd

namespace Slot

variable {α β : Type}

/-- The slot of the same kind, with another value. -/
def map (f : α → β) : Slot α → Slot β
  | .live value => .live (f value)
  | .free next => .free next

@[simp] theorem map_live (f : α → β) (value : α) : (live value).map f = live (f value) := rfl

@[simp] theorem map_free (f : α → β) (next : Option Nat) : (free next).map f = free next := rfl

@[simp] theorem value?_map (f : α → β) (s : Slot α) : (s.map f).value? = s.value?.map f := by
  cases s <;> rfl

end Slot

namespace Pool

variable {α : Type} {slots : Array (Slot α)} {p q : Pool α} {head : Option Nat} {free : List Nat}
  {i j : Nat} {value : α}

/-- `free` lists the slots that the chain from `head` passes. -/
def Linked (slots : Array (Slot α)) : Option Nat → List Nat → Prop
  | none, [] => True
  | some i, j :: rest => i = j ∧ ∃ next, slots[i]? = some (.free next) ∧ Linked slots next rest
  | _, _ => False

/-- The free list ends, passes free slots only, and passes none of them twice. -/
def Sound (p : Pool α) : Prop := ∃ free : List Nat, free.Nodup ∧ Linked p.slots p.freeHead free

/-- Only one slot differs, and it now holds `content`. -/
def Changed (p q : Pool α) (i : Nat) (content : Option α) : Prop :=
  q.get? i = content ∧ ∀ j, j ≠ i → q.get? j = p.get? j

/-! ### Chains -/

theorem Linked.set (h : Linked slots head free) (hi : i ∉ free) (x : Slot α) :
    Linked (slots.setIfInBounds i x) head free := by
  induction free generalizing head with
  | nil => cases head <;> simp_all [Linked]
  | cons j rest ih =>
    cases head with
    | none => simp [Linked] at h
    | some k =>
      obtain ⟨rfl, next, hk, hrest⟩ := h
      have hne : i ≠ k := fun he => hi (by simp [he])
      refine ⟨rfl, next, ?_, ih hrest fun hm => hi (by simp [hm])⟩
      simpa [Array.getElem?_setIfInBounds, hne] using hk

theorem Linked.mem (h : Linked slots head free) (hi : i ∈ free) :
    ∃ next, slots[i]? = some (.free next) := by
  induction free generalizing head with
  | nil => simp at hi
  | cons j rest ih =>
    cases head with
    | none => simp [Linked] at h
    | some k =>
      obtain ⟨rfl, next, hk, hrest⟩ := h
      rcases List.mem_cons.1 hi with rfl | hm
      · exact ⟨next, hk⟩
      · exact ih hrest hm

theorem Linked.notMem_of_live (h : Linked slots head free) (hi : slots[i]? = some (.live value)) :
    i ∉ free := by
  intro hm
  obtain ⟨next, hn⟩ := h.mem hm
  simp [hn] at hi

/-- Slots chained in ascending order, the last of which ends the chain. -/
theorem linked_batch {start count : Nat} (hs : ∀ k, k < count → slots[start + k]? =
    some (.free (if k + 1 < count then some (start + k + 1) else none))) (k : Nat)
    (hk : k < count) : Linked slots (some (start + k)) (List.range' (start + k) (count - k)) := by
  induction hn : count - k generalizing k with
  | zero => omega
  | succ n ih =>
    rw [List.range'_succ]
    refine ⟨rfl, _, hs k hk, ?_⟩
    by_cases hlast : k + 1 < count
    · simpa [hlast, Nat.add_assoc] using ih (k + 1) hlast (by omega)
    · have : n = 0 := by omega
      simp [hlast, this, Linked]

/-! ### Contents -/

theorem get?_eq_some : p.get? i = some value ↔ p.slots[i]? = some (.live value) := by
  unfold get?
  cases h : p.slots[i]? with
  | none => simp
  | some s => cases s <;> simp [Slot.value?]

theorem lt_capacity (h : p.get? i = some value) : i < p.capacity := by
  obtain ⟨hlt, -⟩ := Array.getElem?_eq_some_iff.1 (get?_eq_some.1 h)
  exact hlt

theorem get?_of_slots (h : q.slots[j]? = p.slots[j]?) : q.get? j = p.get? j := by
  simp [get?, h]

theorem sound_withMaxSlots (maxSlots : Nat) : (withMaxSlots maxSlots : Pool α).Sound :=
  ⟨[], by simp, trivial⟩

theorem get?_withMaxSlots (maxSlots i : Nat) : (withMaxSlots maxSlots : Pool α).get? i = none := by
  simp [withMaxSlots, get?]

/-- The free slots are those from `i` on, and are handed out in ascending order. -/
def Ascending (p : Pool α) (i : Nat) : Prop :=
  i ≤ p.capacity ∧ Linked p.slots p.freeHead (List.range' i (p.capacity - i))

theorem Ascending.sound (h : p.Ascending i) : p.Sound := ⟨_, List.nodup_range', h.2⟩

theorem ascending_withMaxSlots (maxSlots : Nat) : (withMaxSlots maxSlots : Pool α).Ascending 0 :=
  ⟨Nat.le_refl _, trivial⟩

/-- A new batch holds nothing, and chains up. -/
theorem grow_ok (h : p.grow = .ok q) :
    q.Ascending p.capacity ∧ p.capacity < q.capacity ∧ ∀ j, q.get? j = p.get? j := by
  simp only [grow] at h
  generalize min poolBatch (p.maxSlots - p.slots.size) = count at h
  split at h
  · simp at h
  · obtain rfl := (Except.ok.inj h).symm
    simp only [Ascending, capacity, Array.size_append, Array.size_ofFn]
    refine ⟨⟨Nat.le_add_right _ _, ?_⟩, by omega, fun j => ?_⟩
    · rw [Nat.add_sub_cancel_left]
      refine linked_batch (fun k hk => ?_) 0 (by omega)
      simp [hk]
    · unfold get?
      rw [Array.getElem?_append]
      split
      · rfl
      · rename_i hj
        rw [Array.getElem?_eq_none (Nat.le_of_not_lt hj), Array.getElem?_ofFn]
        split <;> simp

theorem linked_none : Linked slots none free ↔ free = [] := by
  cases free <;> simp [Linked]

theorem Linked.freeHead_ne_none (h : Linked slots head (i :: free)) : head ≠ none := by
  rintro rfl
  simp [Linked] at h

/-- A new value takes the slot that the chain passes first. -/
theorem take_of_linked (h : Linked p.slots p.freeHead (i :: free)) (hnd : (i :: free).Nodup)
    (value : α) : ∃ q, p.take value = .ok (i, q) ∧ Linked q.slots q.freeHead free ∧
      p.Changed q i (some value) ∧ q.capacity = p.capacity ∧ q.maxSlots = p.maxSlots ∧
      q.size = p.size + 1 := by
  cases hh : p.freeHead with
  | none => exact absurd hh h.freeHead_ne_none
  | some k =>
    rw [hh] at h
    obtain ⟨rfl, next, hk, hrest⟩ := h
    obtain ⟨hnotMem, -⟩ := List.nodup_cons.1 hnd
    obtain ⟨hlt, -⟩ := Array.getElem?_eq_some_iff.1 hk
    refine ⟨⟨p.slots.setIfInBounds k (.live value), next, p.size + 1, p.maxSlots⟩,
      by simp only [Pool.take, hh, hk], hrest.set hnotMem _, ⟨?_, fun j hj => ?_⟩,
      by simp [capacity], rfl, rfl⟩
    · simp [get?, hlt]
    · exact get?_of_slots (by simp [Ne.symm hj])

theorem exists_linked_of_take (h : p.take value = .ok (i, q))
    (hl : Linked p.slots p.freeHead free) : ∃ rest, free = i :: rest := by
  unfold Pool.take at h
  cases hh : p.freeHead with
  | none => simp [hh] at h
  | some k =>
    rw [hh] at hl
    cases free with
    | nil => simp [Linked] at hl
    | cons j rest =>
      simp only [hh, Except.ok.injEq, Prod.mk.injEq] at h
      obtain ⟨rfl, -⟩ := h
      exact ⟨rest, by rw [hl.1]⟩

theorem Sound.take (hp : p.Sound) (h : p.take value = .ok (i, q)) :
    q.Sound ∧ p.get? i = none ∧ p.Changed q i (some value) := by
  obtain ⟨free, hnd, hl⟩ := hp
  obtain ⟨rest, rfl⟩ := exists_linked_of_take h hl
  obtain ⟨next, hi⟩ := hl.mem List.mem_cons_self
  obtain ⟨q, hq, hrest, hchanged, -⟩ := take_of_linked hl hnd value
  cases hq.symm.trans h
  exact ⟨⟨rest, (List.nodup_cons.1 hnd).2, hrest⟩, by simp [get?, hi], hchanged⟩

/-- A new value gets a slot that held nothing. -/
theorem Sound.alloc (hp : p.Sound) (h : p.alloc value = .ok (i, q)) :
    q.Sound ∧ p.get? i = none ∧ p.Changed q i (some value) := by
  unfold Pool.alloc at h
  split at h
  · exact hp.take h
  · cases hg : p.grow with
    | error e => simp [hg, Bind.bind, Except.bind] at h
    | ok r =>
      rw [hg] at h
      obtain ⟨hr, -, hsame⟩ := grow_ok hg
      obtain ⟨hq, hfree, hi, hj⟩ := hr.sound.take h
      refine ⟨hq, by rw [← hsame, hfree], hi, fun j hne => ?_⟩
      rw [hj j hne, hsame]

theorem Ascending.take (hp : p.Ascending j) (hj : j < p.capacity)
    (h : p.take value = .ok (i, q)) : i = j ∧ q.Ascending (j + 1) := by
  obtain ⟨-, hl⟩ := hp
  obtain ⟨n, hn⟩ : ∃ n, p.capacity - j = n + 1 := ⟨p.capacity - j - 1, by omega⟩
  have hnd : (List.range' j (n + 1)).Nodup := List.nodup_range'
  rw [hn, List.range'_succ] at hl
  rw [List.range'_succ] at hnd
  obtain ⟨q, hq, hrest, -, hcap, -⟩ := take_of_linked hl hnd value
  cases hq.symm.trans h
  refine ⟨rfl, hcap ▸ hj, ?_⟩
  rwa [hcap, show p.capacity - (i + 1) = n by omega]

/-- Slots that were never freed are handed out in order. -/
theorem Ascending.alloc (hp : p.Ascending j) (h : p.alloc value = .ok (i, q)) :
    i = j ∧ q.Ascending (j + 1) := by
  unfold Pool.alloc at h
  by_cases hj : j < p.capacity
  · split at h
    · exact hp.take hj h
    next hh =>
      obtain ⟨n, hn⟩ : ∃ n, p.capacity - j = n + 1 := ⟨p.capacity - j - 1, by omega⟩
      have hl := hp.2
      rw [hh, hn, List.range'_succ] at hl
      exact hl.elim
  · have hcap : j = p.capacity := Nat.le_antisymm hp.1 (Nat.le_of_not_lt hj)
    subst hcap
    split at h
    next head hh =>
      have hl := hp.2
      rw [hh, Nat.sub_self] at hl
      exact hl.elim
    · cases hg : p.grow with
      | error e => simp [hg, Bind.bind, Except.bind] at h
      | ok r =>
        rw [hg] at h
        obtain ⟨hr, hlt, -⟩ := grow_ok hg
        exact hr.take hlt h

theorem dealloc_of_get? (h : p.get? i = some value) : ∃ q, p.dealloc i = some (value, q) := by
  simp [Pool.dealloc, get?_eq_some.1 h]

theorem get?_of_dealloc (h : p.dealloc i = some (value, q)) : p.get? i = some value := by
  unfold Pool.dealloc at h
  split at h
  · rename_i v hv
    simp only [Option.some.injEq, Prod.mk.injEq] at h
    rw [get?_eq_some, hv, h.1]
  · simp at h

theorem dealloc_eq_none : p.dealloc i = none ↔ p.get? i = none := by
  rw [Pool.dealloc, Pool.get?]
  cases p.slots[i]? with
  | none => simp
  | some s => cases s <;> simp

theorem slots_of_dealloc (h : p.dealloc i = some (value, q)) :
    p.slots[i]? = some (.live value) ∧ (∃ next, q.slots[i]? = some (.free next)) ∧
      ∀ j, j ≠ i → q.slots[j]? = p.slots[j]? := by
  have hlive := get?_eq_some.1 (get?_of_dealloc h)
  obtain ⟨hlt, -⟩ := Array.getElem?_eq_some_iff.1 hlive
  simp only [Pool.dealloc, hlive, Option.some.injEq, Prod.mk.injEq, true_and] at h
  subst h
  refine ⟨hlive, ⟨p.freeHead, by simp [hlt]⟩, ?_⟩
  intro j hj
  simp [Ne.symm hj]

/-- A freed slot is the first that the chain passes. -/
theorem dealloc_of_linked (hl : Linked p.slots p.freeHead free) (h : p.get? i = some value) :
    ∃ q, p.dealloc i = some (value, q) ∧ Linked q.slots q.freeHead (i :: free) ∧
      p.Changed q i none ∧ q.capacity = p.capacity ∧ q.maxSlots = p.maxSlots ∧
      q.size = p.size - 1 := by
  have hi := get?_eq_some.1 h
  obtain ⟨hlt, -⟩ := Array.getElem?_eq_some_iff.1 hi
  refine ⟨⟨p.slots.setIfInBounds i (.free p.freeHead), some i, p.size - 1, p.maxSlots⟩,
    by simp only [Pool.dealloc, hi], ⟨rfl, p.freeHead, ?_, hl.set (hl.notMem_of_live hi) _⟩,
    ⟨?_, fun j hj => ?_⟩, by simp [capacity], rfl, rfl⟩
  · simp [hlt]
  · simp [get?, hlt]
  · exact get?_of_slots (by simp [Ne.symm hj])

theorem Sound.dealloc (hp : p.Sound) (h : p.dealloc i = some (value, q)) :
    q.Sound ∧ p.Changed q i none := by
  obtain ⟨free, hnd, hl⟩ := hp
  have hi := get?_of_dealloc h
  have hnotMem := hl.notMem_of_live (get?_eq_some.1 hi)
  obtain ⟨q, hq, hrest, hchanged, -⟩ := dealloc_of_linked hl hi
  cases hq.symm.trans h
  exact ⟨⟨i :: free, List.nodup_cons.2 ⟨hnotMem, hnd⟩, hrest⟩, hchanged⟩

/-- A value that is replaced leaves the chain as it was. -/
theorem set?_of_linked (hl : Linked p.slots p.freeHead free) {old : α} (h : p.get? i = some old)
    (value : α) : ∃ q, p.set? i value = some q ∧ Linked q.slots q.freeHead free ∧
      p.Changed q i (some value) ∧ q.capacity = p.capacity ∧ q.maxSlots = p.maxSlots ∧
      q.size = p.size := by
  have hi := get?_eq_some.1 h
  obtain ⟨hlt, -⟩ := Array.getElem?_eq_some_iff.1 hi
  refine ⟨{ p with slots := p.slots.setIfInBounds i (.live value) }, by simp [Pool.set?, hi],
    hl.set (hl.notMem_of_live hi) _, ⟨?_, fun j hj => ?_⟩, by simp [capacity], rfl, rfl⟩
  · simp [get?, hlt]
  · exact get?_of_slots (by simp [Ne.symm hj])

theorem Sound.set? (hp : p.Sound) {old : α} (h : p.get? i = some old) (value : α) :
    ∃ q, p.set? i value = some q ∧ q.Sound ∧ p.Changed q i (some value) := by
  obtain ⟨free, hnd, hl⟩ := hp
  obtain ⟨q, hq, hrest, hchanged, -⟩ := set?_of_linked hl h value
  exact ⟨q, hq, ⟨free, hnd, hrest⟩, hchanged⟩

/-! ### Reading and writing -/

theorem read_eq_ok : p.read i = .ok value ↔ p.get? i = some value := by
  unfold Pool.read
  cases p.get? i <;> simp

theorem get?_of_write (h : p.write i value = .ok q) : ∃ old, p.get? i = some old := by
  unfold Pool.write Pool.set? at h
  cases hi : p.slots[i]? with
  | none => simp [hi] at h
  | some s =>
    cases s with
    | live old => exact ⟨old, get?_eq_some.2 hi⟩
    | free next => simp [hi] at h

theorem Sound.write (hp : p.Sound) {old : α} (h : p.get? i = some old) (value : α) :
    ∃ q, p.write i value = .ok q ∧ q.Sound ∧ p.Changed q i (some value) := by
  obtain ⟨q, hq, hs⟩ := hp.set? h value
  exact ⟨q, by simp [Pool.write, hq], hs⟩

end Pool

end FrontEnd
