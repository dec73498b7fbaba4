import FrontEnd.Proofs.Storage.PoolContents
import Mathlib.Data.Finset.Card
import Mathlib.Data.Finset.Range
import Mathlib.Data.Fintype.EquivFin
import Mathlib.Order.Nat

/-!
A pool answers as a finite map does whose next key is fixed by its past: the slot that was freed
last among those still free, or else the lowest slot that was never handed out.
-/

namespace FrontEnd

/-- What may be asked of a pool. -/
inductive PoolCall (α : Type)
  | alloc (value : α)
  | dealloc (slot : Nat)
  | get (slot : Nat)
  /-- Changes a value in place. -/
  | modify (slot : Nat) (f : α → α)
  | clear

inductive PoolAnswer (α : Type)
  | slot (result : Except StorageError Nat)
  /-- What the slot held. -/
  | value (held : Option α)
  | done

/-- A finite map from slots, and what happened to its slots since it was last empty as a whole. -/
structure Occupancy (α : Type) where
  held : Nat → Option α
  /-- The slots that were freed, the last one first, each as often as it was freed. -/
  freed : List Nat
  /-- The slots that were handed out. -/
  used : Finset Nat
  limit : Nat

namespace Occupancy

variable {α : Type} {o : Occupancy α} {slot n : Nat} {value : α}

def empty (limit : Nat) : Occupancy α := ⟨fun _ => none, [], ∅, limit⟩

def live (o : Occupancy α) : Finset Nat := o.used.filter fun slot => (o.held slot).isSome

/-- The slot that was freed last among those that are still free. -/
def lastFreed? (o : Occupancy α) : Option Nat := o.freed.find? fun slot => (o.held slot).isNone

/-- The lowest slot that was never handed out. -/
def unused (o : Occupancy α) : Nat := Nat.find (Infinite.exists_notMem_finset o.used)

def next (o : Occupancy α) : Nat := o.lastFreed?.getD o.unused

def hold (o : Occupancy α) (slot : Nat) (value : α) : Occupancy α :=
  { o with held := Function.update o.held slot (some value), used := insert slot o.used }

def release (o : Occupancy α) (slot : Nat) : Occupancy α :=
  { o with held := Function.update o.held slot none, freed := slot :: o.freed }

def modify (o : Occupancy α) (slot : Nat) (f : α → α) : Occupancy α :=
  { o with held := Function.update o.held slot ((o.held slot).map f) }

def respond (o : Occupancy α) : PoolCall α → PoolAnswer α × Occupancy α
  | .alloc value =>
    if o.live.card = o.limit then (.slot (.error (.poolExhausted o.limit)), o)
    else (.slot (.ok o.next), o.hold o.next value)
  | .dealloc slot => (.value (o.held slot), if (o.held slot).isSome then o.release slot else o)
  | .get slot => (.value (o.held slot), o)
  | .modify slot f => (.value (o.held slot), o.modify slot f)
  | .clear => (.done, empty o.limit)

/-- The answers to calls in order, and what they lead to. -/
def run (o : Occupancy α) : List (PoolCall α) → List (PoolAnswer α) × Occupancy α
  | [] => ([], o)
  | call :: calls =>
    let (answer, o) := o.respond call
    let (answers, o) := run o calls
    (answer :: answers, o)

/-! ### Vacancies -/

theorem nodup_eraseDups (list : List Nat) : list.eraseDups.Nodup := by
  induction hn : list.length using Nat.strong_induction_on generalizing list with
  | _ n ih =>
    cases list with
    | nil => simp
    | cons a rest =>
      rw [List.eraseDups_cons]
      refine List.nodup_cons.2 ⟨by simp [List.mem_eraseDups], ih _ ?_ _ rfl⟩
      have := List.length_filter_le (fun b => !b == a) rest
      simp only [List.length_cons] at hn
      omega

/-- The slots that were freed and are still free, each where it was freed last. -/
def vacancies (o : Occupancy α) : List Nat :=
  (o.freed.filter fun slot => (o.held slot).isNone).eraseDups

theorem mem_vacancies : slot ∈ o.vacancies ↔ slot ∈ o.freed ∧ o.held slot = none := by
  simp [vacancies, List.mem_eraseDups]

theorem vacancies_nodup (o : Occupancy α) : o.vacancies.Nodup := nodup_eraseDups _

theorem isNone_hold (o : Occupancy α) (slot : Nat) (value : α) (i : Nat) :
    ((o.hold slot value).held i).isNone = (!i == slot && (o.held i).isNone) := by
  by_cases hi : i = slot <;> simp [hold, hi]

theorem freed_hold (o : Occupancy α) (slot : Nat) (value : α) :
    (o.freed.filter fun i => ((o.hold slot value).held i).isNone) =
      (o.freed.filter fun i => (o.held i).isNone).filter fun i => !i == slot := by
  rw [List.filter_filter]
  exact List.filter_congr fun i _ => o.isNone_hold slot value i

theorem vacancies_of_lastFreed? (h : o.lastFreed? = some slot) (value : α) :
    o.vacancies = slot :: (o.hold slot value).vacancies := by
  rw [lastFreed?, ← List.head?_filter] at h
  obtain ⟨rest, hrest⟩ := List.head?_eq_some_iff.1 h
  rw [vacancies, hrest, List.eraseDups_cons, vacancies]
  change _ = slot :: (List.filter _ o.freed).eraseDups
  rw [freed_hold, hrest, List.filter_cons_of_neg (by simp)]

theorem vacancies_of_lastFreed?_none (h : o.lastFreed? = none) : o.vacancies = [] := by
  rw [lastFreed?, ← List.head?_filter, List.head?_eq_none_iff] at h
  rw [vacancies, h, List.eraseDups_nil]

theorem lastFreed?_hold (h : o.lastFreed? = none) (slot : Nat) (value : α) :
    (o.hold slot value).lastFreed? = none := by
  rw [lastFreed?, ← List.head?_filter, List.head?_eq_none_iff] at h ⊢
  change List.filter _ o.freed = []
  rw [freed_hold, h, List.filter_nil]

theorem vacancies_release (h : o.held slot = some value) :
    (o.release slot).vacancies = slot :: o.vacancies := by
  have hsame : (fun i => !i == slot && ((o.release slot).held i).isNone) =
      fun i => (o.held i).isNone := by
    funext i
    by_cases hi : i = slot <;> simp [release, hi, h]
  have hfreed : (o.release slot).freed = slot :: o.freed := rfl
  rw [vacancies, hfreed, List.filter_cons_of_pos (by simp [release]), List.eraseDups_cons,
    List.filter_filter, hsame, vacancies]

theorem isNone_modify (o : Occupancy α) (slot : Nat) (f : α → α) (i : Nat) :
    ((o.modify slot f).held i).isNone = (o.held i).isNone := by
  by_cases hi : i = slot <;> simp [modify, hi]

theorem vacancies_modify (o : Occupancy α) (slot : Nat) (f : α → α) :
    (o.modify slot f).vacancies = o.vacancies := by
  simp only [vacancies, isNone_modify]
  rfl

/-! ### Live slots -/

theorem mem_live : slot ∈ o.live ↔ slot ∈ o.used ∧ ∃ value, o.held slot = some value := by
  simp [live, Option.isSome_iff_exists]

theorem live_hold (o : Occupancy α) (slot : Nat) (value : α) :
    (o.hold slot value).live = insert slot o.live := by
  ext i
  simp only [mem_live, Finset.mem_insert]
  by_cases hi : i = slot <;> simp [hold, hi]

theorem live_release (o : Occupancy α) (slot : Nat) :
    (o.release slot).live = o.live.erase slot := by
  ext i
  simp only [mem_live, Finset.mem_erase]
  by_cases hi : i = slot <;> simp [release, hi]

theorem live_modify (o : Occupancy α) (slot : Nat) (f : α → α) :
    (o.modify slot f).live = o.live := by
  ext i
  simp only [mem_live]
  by_cases hi : i = slot <;> simp [modify, hi]

end Occupancy

namespace Pool

variable {α : Type} {p q : Pool α} {o : Occupancy α} {slot n m : Nat} {value : α}

/-- The answer to a call, and the pool after it. A pool that refuses a value stays as it is. -/
def respond (p : Pool α) : PoolCall α → PoolAnswer α × Pool α
  | .alloc value =>
    match p.alloc value with
    | .ok (slot, q) => (.slot (.ok slot), q)
    | .error e => (.slot (.error e), p)
  | .dealloc slot =>
    match p.dealloc slot with
    | some (held, q) => (.value (some held), q)
    | none => (.value none, p)
  | .get slot => (.value (p.get? slot), p)
  | .modify slot f =>
    (.value (p.get? slot), ((p.get? slot).bind fun held => p.set? slot (f held)).getD p)
  | .clear => (.done, p.clear)

/-- The answers to calls in order, and what they lead to. -/
def run (p : Pool α) : List (PoolCall α) → List (PoolAnswer α) × Pool α
  | [] => ([], p)
  | call :: calls =>
    let (answer, p) := p.respond call
    let (answers, p) := run p calls
    (answer :: answers, p)

theorem Changed.get?_eq_update {held : Nat → Option α} {content : Option α}
    (h : p.Changed q slot content) (hp : ∀ i, p.get? i = held i) (i : Nat) :
    q.get? i = Function.update held slot content i := by
  by_cases hi : i = slot
  · rw [hi, h.1, Function.update_self]
  · rw [h.2 i hi, hp, Function.update_of_ne hi]

/-- The pool holds what the map does. Its first `n` slots were handed out; its chain passes those
that were freed, the last one first, and then all others in ascending order. -/
structure Mirrors (p : Pool α) (o : Occupancy α) (n : Nat) : Prop where
  get? : ∀ i, p.get? i = o.held i
  size : p.size = o.live.card
  limit : p.maxSlots = o.limit
  capacity_le : p.capacity ≤ p.maxSlots
  used : o.used = Finset.range n
  used_le : n ≤ p.capacity
  freed_lt : ∀ i ∈ o.freed, i < n
  freed : ∀ i < n, o.held i = none → i ∈ o.freed
  chain : Linked p.slots p.freeHead (o.vacancies ++ List.range' n (p.capacity - n))

theorem mirrors_empty (maxSlots : Nat) :
    Mirrors (⟨#[], none, 0, maxSlots⟩ : Pool α) (.empty maxSlots) 0 where
  get? i := by simp [Pool.get?, Occupancy.empty]
  size := rfl
  limit := rfl
  capacity_le := Nat.zero_le _
  used := rfl
  used_le := Nat.le_refl _
  freed_lt _ h := absurd h List.not_mem_nil
  freed _ h := absurd h (Nat.not_lt_zero _)
  chain := trivial

theorem Mirrors.held_lt (h : p.Mirrors o n) (hi : o.held slot = some value) : slot < n := by
  have hget := (h.get? slot).trans hi
  have hcap := lt_capacity hget
  have hnot := h.chain.notMem_of_live (get?_eq_some.1 hget)
  simp only [List.mem_append, List.mem_range'_1, not_or] at hnot
  omega

theorem Mirrors.mem_live (h : p.Mirrors o n) :
    slot ∈ o.live ↔ ∃ value, o.held slot = some value := by
  rw [Occupancy.mem_live, h.used, Finset.mem_range]
  exact ⟨fun hl => hl.2, fun ⟨value, hv⟩ => ⟨h.held_lt hv, value, hv⟩⟩

theorem Mirrors.unused (h : p.Mirrors o n) : o.unused = n := by
  refine (Nat.find_eq_iff _).2 ⟨?_, fun i hi => ?_⟩ <;> simp [h.used, *]

theorem Mirrors.next_free (h : p.Mirrors o n) : o.held o.next = none := by
  rw [Occupancy.next]
  cases hl : o.lastFreed? with
  | some slot =>
    have hfree := List.find?_some hl
    exact Option.isNone_iff_eq_none.1 hfree
  | none =>
    rw [Option.getD_none, h.unused, Option.eq_none_iff_forall_ne_some]
    exact fun value hv => absurd (h.held_lt hv) (Nat.lt_irrefl n)

/-! ### Running full -/

theorem Mirrors.freeHead_eq_none (h : p.Mirrors o n) :
    p.freeHead = none ↔ o.vacancies = [] ∧ p.capacity = n := by
  have hle := h.used_le
  have hchain := h.chain
  constructor
  · intro hh
    rw [hh, linked_none, List.append_eq_nil_iff, List.range'_eq_nil_iff] at hchain
    exact ⟨hchain.1, by omega⟩
  · rintro ⟨hv, hcap⟩
    rw [hv, hcap, Nat.sub_self] at hchain
    cases hh : p.freeHead with
    | none => rfl
    | some i =>
      rw [hh] at hchain
      exact hchain.elim

theorem Mirrors.live_eq_range (h : p.Mirrors o n) :
    o.live = Finset.range n ↔ o.vacancies = [] := by
  rw [List.eq_nil_iff_forall_not_mem]
  constructor
  · intro hlive i hi
    obtain ⟨hfreed, hnone⟩ := Occupancy.mem_vacancies.1 hi
    obtain ⟨value, hsome⟩ := h.mem_live.1 (hlive ▸ Finset.mem_range.2 (h.freed_lt i hfreed))
    simp [hnone] at hsome
  · intro hvac
    ext i
    rw [h.mem_live, Finset.mem_range]
    refine ⟨fun ⟨value, hv⟩ => h.held_lt hv, fun hi => Option.ne_none_iff_exists'.1 fun hnone => ?_⟩
    exact hvac i (Occupancy.mem_vacancies.2 ⟨h.freed i hi hnone, hnone⟩)

/-- As many values are held as there may be just if the chain is empty and cannot grow. -/
theorem Mirrors.full_iff (h : p.Mirrors o n) :
    o.live.card = o.limit ↔ p.freeHead = none ∧ p.capacity = p.maxSlots := by
  have hsub : o.live ⊆ Finset.range n := h.used ▸ Finset.filter_subset _ _
  have hcard := Finset.card_le_card hsub
  rw [Finset.card_range] at hcard
  have hle := h.used_le
  have hcap := h.capacity_le
  have hlimit := h.limit
  rw [h.freeHead_eq_none, ← h.live_eq_range]
  constructor
  · intro hfull
    have hrange : (Finset.range n).card ≤ o.live.card := by
      rw [Finset.card_range]
      omega
    exact ⟨⟨Finset.eq_of_subset_of_card_le hsub hrange, by omega⟩, by omega⟩
  · rintro ⟨⟨hlive, hn⟩, hmax⟩
    rw [hlive, Finset.card_range]
    omega

theorem Mirrors.refused (h : p.Mirrors o n) (hfull : o.live.card = o.limit) (value : α) :
    p.alloc value = .error (.poolExhausted o.limit) := by
  obtain ⟨hh, hcap⟩ := h.full_iff.1 hfull
  have hzero : min poolBatch (p.maxSlots - p.slots.size) = 0 := by
    rw [← hcap, capacity, Nat.sub_self, Nat.min_zero]
  have hgrow : p.grow = .error (.poolExhausted o.limit) := h.limit ▸ if_pos hzero
  simp [Pool.alloc, hh, hgrow, Bind.bind, Except.bind]

/-! ### Allocation -/

theorem Mirrors.nodup_chain (h : p.Mirrors o n) (count : Nat) :
    (o.vacancies ++ List.range' n count).Nodup := by
  refine List.nodup_append.2 ⟨o.vacancies_nodup, List.nodup_range', fun i hi j hj he => ?_⟩
  have := h.freed_lt i (Occupancy.mem_vacancies.1 hi).1
  have := List.mem_range'_1.1 hj
  omega

theorem Mirrors.hold (h : p.Mirrors o n) (hslot : o.held slot = none)
    (hq : p.Changed q slot (some value)) (hsize : q.size = p.size + 1)
    (hmax : q.maxSlots = p.maxSlots) (hcap : q.capacity = p.capacity)
    (hused : insert slot (Finset.range n) = Finset.range m) (hm : m ≤ p.capacity)
    (hchain : Linked q.slots q.freeHead
      ((o.hold slot value).vacancies ++ List.range' m (q.capacity - m))) :
    q.Mirrors (o.hold slot value) m where
  get? := hq.get?_eq_update h.get?
  size := by
    have hnot : slot ∉ o.live := fun hl => by
      obtain ⟨value, hv⟩ := h.mem_live.1 hl
      simp [hslot] at hv
    rw [o.live_hold, Finset.card_insert_of_notMem hnot, hsize, h.size]
  limit := hmax.trans h.limit
  capacity_le := by rw [hcap, hmax]; exact h.capacity_le
  used := by rw [← hused, ← h.used]; rfl
  used_le := hcap ▸ hm
  freed_lt i hi := by
    have hmem : i ∈ insert slot (Finset.range n) :=
      Finset.mem_insert_of_mem (Finset.mem_range.2 (h.freed_lt i hi))
    exact Finset.mem_range.1 (hused ▸ hmem)
  freed i hi hnone := by
    have hne : i ≠ slot := by
      rintro rfl
      simp [Occupancy.hold] at hnone
    have hmem : i ∈ insert slot (Finset.range n) := hused ▸ Finset.mem_range.2 hi
    have hlt := (Finset.mem_insert.1 hmem).resolve_left hne
    exact h.freed i (Finset.mem_range.1 hlt) (by simpa [Occupancy.hold, hne] using hnone)
  chain := hchain

/-- The head of the chain is the slot that comes next. -/
theorem Mirrors.take (h : p.Mirrors o n) (hh : p.freeHead ≠ none) (value : α) :
    ∃ q m, p.take value = .ok (o.next, q) ∧ q.Mirrors (o.hold o.next value) m := by
  have hfree := h.next_free
  have hchain := h.chain
  have hnodup := h.nodup_chain (p.capacity - n)
  cases hl : o.lastFreed? with
  | some slot =>
    have hnext : o.next = slot := by simp [Occupancy.next, hl]
    rw [hnext] at hfree ⊢
    rw [Occupancy.vacancies_of_lastFreed? hl value, List.cons_append] at hchain hnodup
    obtain ⟨q, hq, hrest, hchanged, hcap, hmax, hsize⟩ := take_of_linked hchain hnodup value
    have hlt := h.freed_lt slot (List.mem_of_find?_eq_some hl)
    refine ⟨q, n, hq, h.hold hfree hchanged hsize hmax hcap ?_ h.used_le (hcap ▸ hrest)⟩
    exact Finset.insert_eq_self.2 (Finset.mem_range.2 hlt)
  | none =>
    have hnext : o.next = n := by simp [Occupancy.next, hl, h.unused]
    rw [hnext] at hfree ⊢
    have hvac := Occupancy.vacancies_of_lastFreed?_none hl
    have hvac' := Occupancy.vacancies_of_lastFreed?_none (Occupancy.lastFreed?_hold hl n value)
    have hlt : n < p.capacity := by
      have hle := h.used_le
      have := mt h.freeHead_eq_none.2 hh
      rw [not_and] at this
      have := this hvac
      omega
    obtain ⟨k, hk⟩ : ∃ k, p.capacity - n = k + 1 := ⟨p.capacity - n - 1, by omega⟩
    rw [hvac, hk, List.range'_succ, List.nil_append] at hchain hnodup
    obtain ⟨q, hq, hrest, hchanged, hcap, hmax, hsize⟩ := take_of_linked hchain hnodup value
    refine ⟨q, n + 1, hq, h.hold hfree hchanged hsize hmax hcap Finset.range_add_one.symm hlt ?_⟩
    rwa [hvac', hcap, List.nil_append, show p.capacity - (n + 1) = k by omega]

theorem Mirrors.grow (h : p.Mirrors o n) (hh : p.freeHead = none)
    (hroom : p.capacity < p.maxSlots) :
    ∃ q, p.grow = .ok q ∧ q.Mirrors o n ∧ q.freeHead ≠ none := by
  obtain ⟨hvac, hn⟩ := h.freeHead_eq_none.1 hh
  have hpos : min poolBatch (p.maxSlots - p.slots.size) ≠ 0 := by
    have : poolBatch = 32 := rfl
    simp only [capacity] at hroom
    omega
  obtain ⟨q, hq, hsize, hmax, hcap, hhead⟩ : ∃ q, p.grow = .ok q ∧ q.size = p.size ∧
      q.maxSlots = p.maxSlots ∧ q.capacity ≤ p.maxSlots ∧ q.freeHead ≠ none := by
    refine ⟨_, if_neg hpos, rfl, rfl, ?_, Option.some_ne_none _⟩
    simp only [capacity, Array.size_append, Array.size_ofFn] at hroom ⊢
    omega
  obtain ⟨⟨-, hlinked⟩, hlt, hsame⟩ := grow_ok hq
  refine ⟨q, hq, ⟨fun i => (hsame i).trans (h.get? i), hsize.trans h.size, hmax.trans h.limit,
    hmax ▸ hcap, h.used, by omega, h.freed_lt, h.freed, ?_⟩, hhead⟩
  rwa [hvac, List.nil_append, ← hn]

theorem Mirrors.alloc (h : p.Mirrors o n) (hroom : o.live.card ≠ o.limit) (value : α) :
    ∃ q m, p.alloc value = .ok (o.next, q) ∧ q.Mirrors (o.hold o.next value) m := by
  unfold Pool.alloc
  cases hh : p.freeHead with
  | some i => exact h.take (by simp [hh]) value
  | none =>
    have hlt : p.capacity < p.maxSlots := by
      have hne : p.capacity ≠ p.maxSlots := fun he => hroom (h.full_iff.2 ⟨hh, he⟩)
      exact Nat.lt_of_le_of_ne h.capacity_le hne
    obtain ⟨g, hg, hmirrors, hhead⟩ := h.grow hh hlt
    simp only [hg, Bind.bind, Except.bind]
    exact hmirrors.take hhead value

/-! ### Release and change in place -/

theorem Mirrors.dealloc (h : p.Mirrors o n) (hheld : o.held slot = some value) :
    ∃ q, p.dealloc slot = some (value, q) ∧ q.Mirrors (o.release slot) n := by
  obtain ⟨q, hq, hchain, hchanged, hcap, hmax, hsize⟩ :=
    dealloc_of_linked h.chain ((h.get? slot).trans hheld)
  refine ⟨q, hq, ⟨hchanged.get?_eq_update h.get?, ?_, hmax.trans h.limit, ?_, h.used,
    hcap ▸ h.used_le, fun i hi => ?_, fun i hi hnone => ?_, ?_⟩⟩
  · have hmem : slot ∈ o.live := h.mem_live.2 ⟨value, hheld⟩
    rw [o.live_release, Finset.card_erase_of_mem hmem, hsize, h.size]
  · rw [hcap, hmax]
    exact h.capacity_le
  · rcases List.mem_cons.1 hi with rfl | hi
    · exact h.held_lt hheld
    · exact h.freed_lt i hi
  · by_cases he : i = slot
    · exact he ▸ List.mem_cons_self
    · exact List.mem_cons_of_mem _ (h.freed i hi (by simpa [Occupancy.release, he] using hnone))
  · rw [Occupancy.vacancies_release hheld, hcap]
    exact hchain

theorem Mirrors.modify (h : p.Mirrors o n) (slot : Nat) (f : α → α) :
    (((p.get? slot).bind fun held => p.set? slot (f held)).getD p).Mirrors (o.modify slot f) n := by
  cases hheld : o.held slot with
  | none =>
    have hsame : o.modify slot f = o := by
      rw [Occupancy.modify, hheld, Option.map_none, ← hheld, Function.update_eq_self]
    rw [hsame, h.get?, hheld]
    exact h
  | some value =>
    obtain ⟨q, hq, hchain, hchanged, hcap, hmax, hsize⟩ :=
      set?_of_linked h.chain ((h.get? slot).trans hheld) (f value)
    rw [h.get?, hheld, Option.bind_some, hq, Option.getD_some]
    refine ⟨fun i => ?_, ?_, hmax.trans h.limit, ?_, h.used, hcap ▸ h.used_le, h.freed_lt,
      fun i hi hnone => ?_, ?_⟩
    · rw [hchanged.get?_eq_update h.get?, Occupancy.modify, hheld, Option.map_some]
    · rw [o.live_modify, hsize, h.size]
    · rw [hcap, hmax]
      exact h.capacity_le
    · have hsame := o.isNone_modify slot f i
      rw [hnone] at hsame
      exact h.freed i hi (Option.isNone_iff_eq_none.1 hsame.symm)
    · rw [o.vacancies_modify, hcap]
      exact hchain

/-! ### Runs -/

theorem Mirrors.respond (h : p.Mirrors o n) (call : PoolCall α) :
    (p.respond call).1 = (o.respond call).1 ∧
      ∃ m, (p.respond call).2.Mirrors (o.respond call).2 m := by
  cases call with
  | alloc value =>
    simp only [Pool.respond, Occupancy.respond]
    by_cases hfull : o.live.card = o.limit
    · rw [h.refused hfull value, if_pos hfull]
      exact ⟨rfl, n, h⟩
    · obtain ⟨q, m, hq, hm⟩ := h.alloc hfull value
      rw [hq, if_neg hfull]
      exact ⟨rfl, m, hm⟩
  | dealloc slot =>
    simp only [Pool.respond, Occupancy.respond]
    cases hheld : o.held slot with
    | none =>
      rw [dealloc_eq_none.2 ((h.get? slot).trans hheld)]
      exact ⟨rfl, n, h⟩
    | some value =>
      obtain ⟨q, hq, hm⟩ := h.dealloc hheld
      rw [hq]
      exact ⟨rfl, n, hm⟩
  | get slot => exact ⟨congrArg PoolAnswer.value (h.get? slot), n, h⟩
  | modify slot f => exact ⟨congrArg PoolAnswer.value (h.get? slot), n, h.modify slot f⟩
  | clear =>
    refine ⟨rfl, 0, ?_⟩
    simp only [Pool.respond, Pool.clear, Occupancy.respond, ← h.limit]
    exact mirrors_empty p.maxSlots

theorem Mirrors.run (h : p.Mirrors o n) (calls : List (PoolCall α)) :
    (p.run calls).1 = (o.run calls).1 ∧ ∃ m, (p.run calls).2.Mirrors (o.run calls).2 m := by
  induction calls generalizing p o n with
  | nil => exact ⟨rfl, n, h⟩
  | cons call calls ih =>
    obtain ⟨hanswer, m, hm⟩ := h.respond call
    obtain ⟨hanswers, hlast⟩ := ih hm
    exact ⟨congrArg₂ List.cons hanswer hanswers, hlast⟩

/-- The free chain ends and passes every free slot once, and no other. -/
theorem Mirrors.exists_chain (h : p.Mirrors o n) :
    ∃ free : List Nat, free.Nodup ∧ Linked p.slots p.freeHead free ∧
      ∀ i, i ∈ free ↔ ∃ next, p.slots[i]? = some (.free next) := by
  refine ⟨_, h.nodup_chain _, h.chain, fun i => ⟨h.chain.mem, fun ⟨next, hnext⟩ => ?_⟩⟩
  obtain ⟨hlt, -⟩ := Array.getElem?_eq_some_iff.1 hnext
  have hnone : o.held i = none := by
    rw [← h.get?]
    simp [Pool.get?, hnext]
  rw [List.mem_append, List.mem_range'_1, Occupancy.mem_vacancies]
  by_cases hi : i < n
  · exact .inl ⟨h.freed i hi hnone, hnone⟩
  · have := h.used_le
    exact .inr ⟨by omega, by simp only [capacity] at *; omega⟩

/-- What can be seen of the pool is as in the map. -/
structure Refines (p : Pool α) (o : Occupancy α) : Prop where
  get? : ∀ slot, p.get? slot = o.held slot
  size : p.size = o.live.card
  mem_live : ∀ slot, slot ∈ o.live ↔ ∃ value, p.get? slot = some value
  /-- The slot that comes next holds nothing. -/
  next_free : p.get? o.next = none
  used_lt : ∀ slot ∈ o.used, slot < o.limit
  /-- The free chain ends and passes every free slot once, and no other. -/
  chain : ∃ free : List Nat, free.Nodup ∧ Linked p.slots p.freeHead free ∧
    ∀ slot, slot ∈ free ↔ ∃ next, p.slots[slot]? = some (.free next)

theorem Mirrors.refines (h : p.Mirrors o n) : p.Refines o where
  get? := h.get?
  size := h.size
  mem_live slot := by rw [h.mem_live, h.get?]
  next_free := by rw [h.get?, h.next_free]
  used_lt slot hs := by
    rw [h.used, Finset.mem_range] at hs
    exact hs.trans_le (h.used_le.trans (h.capacity_le.trans_eq h.limit))
  chain := h.exists_chain

/-- Whatever is asked of a pool, it answers as a finite map would that hands out the slot freed last
among those still free, or else the lowest unused one, until as many values are held as there may
be; and it is left with the contents of that map. -/
theorem occupancy_refined (maxSlots : Nat) (calls : List (PoolCall α)) :
    ((withMaxSlots maxSlots).run calls).1 =
        ((Occupancy.empty (min maxSlots maxOffset)).run calls).1 ∧
      ((withMaxSlots maxSlots).run calls).2.Refines
        ((Occupancy.empty (min maxSlots maxOffset)).run calls).2 := by
  obtain ⟨hanswers, m, hm⟩ := (mirrors_empty (min maxSlots maxOffset)).run calls
  exact ⟨hanswers, hm.refines⟩

end Pool

end FrontEnd
