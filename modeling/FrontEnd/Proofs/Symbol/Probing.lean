import FrontEnd.Symbol.OpenTable
import Mathlib.Data.List.Nodup
import Mathlib.Tactic.Common

/-! Probe paths: where a walk along the path of a key ends, and what the cells before it hold. -/

namespace FrontEnd

namespace OpenTable

variable {κ β : Type} [Hashable κ]

/-- The cell `n` steps along the probe path of a key. -/
def path (capacity : Nat) (key : κ) (n : Nat) : Nat := (home capacity key + n) % capacity

/-- No cell before step `n` of the path is empty. -/
def Unbroken (cells : Array (Cell κ β)) (key : κ) (n : Nat) : Prop :=
  ∀ m < n, cells[path cells.size key m]? ≠ some .empty

/-- Every key is reached from its home without passing an empty cell. -/
def Reached (cells : Array (Cell κ β)) : Prop :=
  ∀ (i : Nat) (key : κ) (value : β), cells[i]? = some (.full key value) →
    ∃ n < cells.size, path cells.size key n = i ∧ Unbroken cells key n

def Distinct (cells : Array (Cell κ β)) : Prop :=
  ∀ (i j : Nat) (key : κ) (v w : β),
    cells[i]? = some (.full key v) → cells[j]? = some (.full key w) → i = j

def Absent (cells : Array (Cell κ β)) (key : κ) : Prop :=
  ∀ (i : Nat) (value : β), cells[i]? ≠ some (.full key value)

theorem path_zero {capacity : Nat} (key : κ) (h : 0 < capacity) :
    path capacity key 0 = home capacity key := by
  simp [path, home, Nat.mod_eq_of_lt (Nat.mod_lt _ h)]

theorem path_succ (capacity : Nat) (key : κ) (n : Nat) :
    path capacity key (n + 1) = (path capacity key n + 1) % capacity := by
  simp only [path, Nat.mod_add_mod, Nat.add_assoc]

theorem path_lt {capacity : Nat} (key : κ) (n : Nat) (h : 0 < capacity) :
    path capacity key n < capacity :=
  Nat.mod_lt _ h

/-- A whole turn of the path passes every cell. -/
theorem exists_path {capacity i : Nat} (key : κ) (hi : i < capacity) :
    ∃ n < capacity, path capacity key n = i := by
  have hc : 0 < capacity := by omega
  have hh : home capacity key < capacity := Nat.mod_lt _ hc
  by_cases hle : home capacity key ≤ i
  · refine ⟨i - home capacity key, by omega, ?_⟩
    rw [path, Nat.add_sub_cancel' hle, Nat.mod_eq_of_lt hi]
  · refine ⟨capacity - home capacity key + i, by omega, ?_⟩
    have he : home capacity key + (capacity - home capacity key + i) = i + capacity := by omega
    rw [path, he, Nat.add_mod_right, Nat.mod_eq_of_lt hi]

theorem exists_cell {cells : Array (Cell κ β)} (key : κ) (n : Nat) (h : 0 < cells.size) :
    ∃ c, cells[path cells.size key n]? = some c :=
  ⟨_, Array.getElem?_eq_getElem (path_lt key n h)⟩

/-- With an empty cell somewhere, no path is unbroken for a whole turn. -/
theorem Unbroken.lt_size {cells : Array (Cell κ β)} {key : κ} {n i : Nat}
    (hu : Unbroken cells key n) (hi : cells[i]? = some .empty) : n < cells.size := by
  obtain ⟨hlt, -⟩ := Array.getElem?_eq_some_iff.1 hi
  obtain ⟨m, hm, rfl⟩ := exists_path key hlt
  by_contra hn
  exact hu m (by omega) hi

theorem unbroken_zero (cells : Array (Cell κ β)) (key : κ) : Unbroken cells key 0 := by
  simp [Unbroken]

theorem Unbroken.succ {cells : Array (Cell κ β)} {key : κ} {n : Nat} (hu : Unbroken cells key n)
    (hn : cells[path cells.size key n]? ≠ some .empty) : Unbroken cells key (n + 1) := by
  intro m hm
  rcases Nat.lt_succ_iff_lt_or_eq.1 hm with hm | rfl
  · exact hu m hm
  · exact hn

/-- A key that was not met before an empty cell on its path is nowhere. -/
theorem absent_of_empty {cells : Array (Cell κ β)} {key : κ} {n : Nat} (hr : Reached cells)
    (hn : cells[path cells.size key n]? = some .empty)
    (hb : ∀ m < n, ∀ v, cells[path cells.size key m]? ≠ some (.full key v)) :
    Absent cells key := by
  intro i v hi
  obtain ⟨m, -, rfl, hu⟩ := hr i key v hi
  rcases Nat.lt_trichotomy m n with hmn | rfl | hmn
  · exact hb m hmn v hi
  · simp [hn] at hi
  · exact hu n hmn hn

/-! ### The first free cell -/

/-- In a table without tombstones the walk over full cells ends at an empty one. -/
theorem firstFree_spec {cells : Array (Cell κ β)} {key : κ} {i : Nat}
    (ht : ∀ j : Nat, cells[j]? ≠ some .tombstone) (hi : cells[i]? = some .empty) (steps : Nat)
    {n : Nat} (hu : Unbroken cells key n) (hs : cells.size ≤ steps + n) :
    ∃ m < cells.size, firstFree cells steps (path cells.size key n) = path cells.size key m ∧
      cells[path cells.size key m]? = some .empty ∧ Unbroken cells key m := by
  have hc : 0 < cells.size := by
    obtain ⟨hlt, -⟩ := Array.getElem?_eq_some_iff.1 hi
    omega
  induction steps generalizing n with
  | zero =>
    have := hu.lt_size hi
    omega
  | succ steps ih =>
    obtain ⟨c, hcell⟩ := exists_cell key n hc
    rw [firstFree]
    cases c with
    | empty =>
      simp only [hcell, Option.any_some, Cell.isFull, Bool.false_eq_true, if_false]
      exact ⟨n, hu.lt_size hi, rfl, hcell, hu⟩
    | tombstone => exact absurd hcell (ht _)
    | full k v =>
      simp only [hcell, Option.any_some, Cell.isFull, if_true, ← path_succ]
      exact ih (hu.succ (by simp [hcell])) (by omega)

/-! ### The probe -/

/-- What a probe for a key may answer. -/
def Locates (cells : Array (Cell κ β)) (key : κ) : Probe → Prop
  | .found i => ∃ value, cells[i]? = some (.full key value)
  | .vacant i => Absent cells key ∧ (cells[i]? = some .empty ∨ cells[i]? = some .tombstone) ∧
      ∃ n < cells.size, path cells.size key n = i ∧ Unbroken cells key n

/-- What is known after `n` steps that met neither the key nor an empty cell. -/
structure Passed (cells : Array (Cell κ β)) (key : κ) (n : Nat) (grave : Option Nat) : Prop where
  unbroken : Unbroken cells key n
  missed : ∀ m < n, ∀ v, cells[path cells.size key m]? ≠ some (.full key v)
  grave : ∀ i ∈ grave, cells[i]? = some .tombstone ∧ ∃ m < n, path cells.size key m = i

theorem Passed.start (cells : Array (Cell κ β)) (key : κ) : Passed cells key 0 none where
  unbroken := unbroken_zero cells key
  missed := by simp
  grave := by simp

theorem Passed.succ {cells : Array (Cell κ β)} {key : κ} {n : Nat} {g g' : Option Nat}
    (h : Passed cells key n g) (he : cells[path cells.size key n]? ≠ some .empty)
    (hm : ∀ v, cells[path cells.size key n]? ≠ some (.full key v))
    (hg : ∀ i ∈ g', i ∈ g ∨ i = path cells.size key n ∧ cells[i]? = some .tombstone) :
    Passed cells key (n + 1) g' where
  unbroken := h.unbroken.succ he
  missed := by
    intro m hmn
    rcases Nat.lt_succ_iff_lt_or_eq.1 hmn with hmn | rfl
    · exact h.missed m hmn
    · exact hm
  grave := by
    intro i hi
    rcases hg i hi with hi | ⟨rfl, ht⟩
    · obtain ⟨ht, m, hmn, hp⟩ := h.grave i hi
      exact ⟨ht, m, by omega, hp⟩
    · exact ⟨ht, n, by omega, rfl⟩

theorem locates_of_empty {cells : Array (Cell κ β)} {key : κ} {n : Nat} {grave : Option Nat}
    (hr : Reached cells) (hp : Passed cells key n grave) (hn : n < cells.size)
    (he : cells[path cells.size key n]? = some .empty) :
    Locates cells key (.vacant (grave.getD (path cells.size key n))) := by
  refine ⟨absent_of_empty hr he hp.missed, ?_⟩
  cases hg : grave with
  | none => exact ⟨.inl he, n, hn, rfl, hp.unbroken⟩
  | some i =>
    obtain ⟨ht, m, hmn, hi⟩ := hp.grave i (by simp [hg])
    exact ⟨.inr ht, m, by omega, hi, fun k hk => hp.unbroken k (by omega)⟩

variable [DecidableEq κ]

/-- The walk ends at the key or at an empty cell, whatever number of steps it is allowed beyond a
whole turn. -/
theorem locates_probeFrom {cells : Array (Cell κ β)} {key : κ} {i : Nat} (hr : Reached cells)
    (hi : cells[i]? = some .empty) {steps n : Nat} {grave : Option Nat}
    (hp : Passed cells key n grave) (hs : cells.size ≤ steps + n) :
    Locates cells key (probeFrom cells key steps (path cells.size key n) grave) := by
  have hc : 0 < cells.size := by
    obtain ⟨hlt, -⟩ := Array.getElem?_eq_some_iff.1 hi
    omega
  induction steps generalizing n grave with
  | zero =>
    have := hp.unbroken.lt_size hi
    omega
  | succ steps ih =>
    obtain ⟨c, hcell⟩ := exists_cell key n hc
    rw [probeFrom]
    cases c with
    | empty =>
      simp only [hcell]
      exact locates_of_empty hr hp (hp.unbroken.lt_size hi) hcell
    | tombstone =>
      simp only [hcell, ← path_succ]
      refine ih (hp.succ (by simp [hcell]) (by simp [hcell]) ?_) (by omega)
      intro j hj
      cases grave <;> simp_all
    | full k v =>
      simp only [hcell, ← path_succ]
      split
      · rename_i hk
        subst hk
        exact ⟨v, hcell⟩
      · rename_i hk
        exact ih (hp.succ (by simp [hcell]) (by simp [hcell, hk]) (by simp_all)) (by omega)

/-- Further steps do not change where the walk ends. -/
theorem probeFrom_add {cells : Array (Cell κ β)} {key : κ} {i : Nat}
    (hi : cells[i]? = some .empty) {steps n : Nat} (grave : Option Nat)
    (hu : Unbroken cells key n) (hs : cells.size ≤ steps + n) (extra : Nat) :
    probeFrom cells key (steps + extra) (path cells.size key n) grave =
      probeFrom cells key steps (path cells.size key n) grave := by
  have hc : 0 < cells.size := by
    obtain ⟨hlt, -⟩ := Array.getElem?_eq_some_iff.1 hi
    omega
  induction steps generalizing n grave with
  | zero =>
    have := hu.lt_size hi
    omega
  | succ steps ih =>
    obtain ⟨c, hcell⟩ := exists_cell key n hc
    rw [Nat.succ_add, probeFrom, probeFrom]
    cases c with
    | empty => simp only [hcell]
    | tombstone =>
      simp only [hcell, ← path_succ]
      exact ih _ (hu.succ (by simp [hcell])) (by omega)
    | full k v =>
      simp only [hcell, ← path_succ]
      split
      · rfl
      · exact ih _ (hu.succ (by simp [hcell])) (by omega)

end OpenTable

end FrontEnd
