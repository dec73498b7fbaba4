import FrontEnd.Proofs.Symbol.Probing
import Mathlib.Data.List.Pairwise

/-! The invariant of open tables, and what each operation does to the entries. -/

namespace FrontEnd

def Cell.isUsed {κ β : Type} : Cell κ β → Bool
  | .empty => false
  | _ => true

namespace OpenTable

variable {κ β : Type} [Hashable κ]

/-- The entry is in one of the cells. -/
def Stored (cells : Array (Cell κ β)) (key : κ) (value : β) : Prop :=
  ∃ i : Nat, cells[i]? = some (.full key value)

structure Intact (t : OpenTable κ β) : Prop where
  size_eq : t.size = t.cells.countP Cell.isFull
  used_eq : t.used = t.cells.countP Cell.isUsed
  reached : Reached t.cells
  distinct : Distinct t.cells

structure Sound (t : OpenTable κ β) : Prop extends Intact t where
  load : t.used * 4 ≤ t.capacity * 3

omit [Hashable κ] in
theorem Distinct.unique {cells : Array (Cell κ β)} (h : Distinct cells) {key : κ} {v w : β}
    (hv : Stored cells key v) (hw : Stored cells key w) : v = w := by
  obtain ⟨i, hi⟩ := hv
  obtain ⟨j, hj⟩ := hw
  have hij := h i j key v w hi hj
  subst hij
  simp_all

theorem Intact.exists_empty {t : OpenTable κ β} (h : t.Intact) (hlt : t.used < t.capacity) :
    ∃ i : Nat, t.cells[i]? = some .empty := by
  by_contra hn
  have hall : t.cells.countP Cell.isUsed = t.cells.size := by
    rw [Array.countP_eq_size]
    intro c hc
    obtain ⟨i, hi, rfl⟩ := Array.mem_iff_getElem.1 hc
    cases hcell : t.cells[i] with
    | empty => exact absurd ⟨i, by simp [hi, hcell]⟩ hn
    | tombstone => rfl
    | full k v => rfl
  have := h.used_eq
  simp only [capacity] at hlt
  omega

theorem Sound.exists_empty {t : OpenTable κ β} (h : t.Sound) (hc : 0 < t.capacity) :
    ∃ i : Nat, t.cells[i]? = some .empty := by
  have := h.load
  exact h.toIntact.exists_empty (by omega)

theorem sound_empty : (empty : OpenTable κ β).Sound where
  size_eq := rfl
  used_eq := rfl
  reached := by simp [Reached, empty]
  distinct := by simp [Distinct, empty]
  load := by simp [empty]

/-! ### Writing one cell -/

omit [Hashable κ] in
theorem stored_set {cells : Array (Cell κ β)} {i : Nat} {c : Cell κ β} (hi : i < cells.size)
    (key : κ) (value : β) : Stored (cells.setIfInBounds i c) key value ↔
      c = .full key value ∨ ∃ j : Nat, j ≠ i ∧ cells[j]? = some (.full key value) := by
  constructor
  · rintro ⟨j, hj⟩
    rw [Array.getElem?_setIfInBounds] at hj
    split at hj
    · simp_all
    · exact .inr ⟨j, Ne.symm ‹_›, hj⟩
  · rintro (rfl | ⟨j, hne, hj⟩)
    · exact ⟨i, by simp [hi]⟩
    · exact ⟨j, by rw [Array.getElem?_setIfInBounds, if_neg (Ne.symm hne), hj]⟩

theorem Unbroken.set {cells : Array (Cell κ β)} {key : κ} {n i : Nat} {c : Cell κ β}
    (h : Unbroken cells key n) (hc : c ≠ .empty) :
    Unbroken (cells.setIfInBounds i c) key n := by
  intro m hm
  have := h m hm
  rw [Array.size_setIfInBounds, Array.getElem?_setIfInBounds]
  split
  · simp_all
  · exact this

/-- A cell may be written over if the new one is not empty and its key was on the way here. -/
theorem Reached.set {cells : Array (Cell κ β)} {i : Nat} {c : Cell κ β} (h : Reached cells)
    (hc : c ≠ .empty) (hk : ∀ key value, c = .full key value →
      ∃ n < cells.size, path cells.size key n = i ∧ Unbroken cells key n) :
    Reached (cells.setIfInBounds i c) := by
  intro j key value hj
  rw [Array.getElem?_setIfInBounds] at hj
  rw [Array.size_setIfInBounds]
  split at hj
  · subst i
    split at hj
    · obtain ⟨n, hn, hp, hu⟩ := hk key value (by simpa using hj)
      exact ⟨n, hn, hp, hu.set hc⟩
    · simp at hj
  · obtain ⟨n, hn, hp, hu⟩ := h j key value hj
    exact ⟨n, hn, hp, hu.set hc⟩

omit [Hashable κ] in
theorem Distinct.set {cells : Array (Cell κ β)} {i : Nat} {c : Cell κ β} (h : Distinct cells)
    (hk : ∀ key value, c = .full key value →
      ∀ (j : Nat) (w : β), cells[j]? = some (.full key w) → j = i) :
    Distinct (cells.setIfInBounds i c) := by
  intro a b key v w ha hb
  rw [Array.getElem?_setIfInBounds] at ha hb
  split at ha <;> split at hb
  · omega
  · split at ha
    · exact (‹i = a› ▸ (hk key v (by simpa using ha) b w hb)).symm
    · simp at ha
  · split at hb
    · exact ‹i = b› ▸ hk key w (by simpa using hb) a v ha
    · simp at hb
  · exact h a b key v w ha hb

omit [Hashable κ] in
theorem countP_set {cells : Array (Cell κ β)} {i : Nat} {old : Cell κ β} (p : Cell κ β → Bool)
    (hi : cells[i]? = some old) (c : Cell κ β) :
    (cells.setIfInBounds i c).countP p + (if p old then 1 else 0) =
      cells.countP p + (if p c then 1 else 0) := by
  obtain ⟨hlt, rfl⟩ := Array.getElem?_eq_some_iff.1 hi
  have hset : cells.setIfInBounds i c = cells.set i c hlt := by simp [Array.setIfInBounds, hlt]
  rw [hset, Array.countP_set]
  split
  · have hpos : 0 < cells.countP p := Array.countP_pos_iff.2 ⟨_, Array.getElem_mem hlt, ‹_›⟩
    omega
  · omega

/-! ### Overwriting and erasing -/

/-- The value under a key that is found may be replaced. -/
theorem Sound.overwrite {t : OpenTable κ β} (h : t.Sound) {key : κ} {i : Nat} {old : β}
    (hi : t.cells[i]? = some (.full key old)) (value : β) :
    Sound { t with cells := t.cells.setIfInBounds i (.full key value) } where
  size_eq := by
    have := countP_set Cell.isFull hi (.full key value)
    simp only [Cell.isFull] at this
    have := h.size_eq
    simp only
    omega
  used_eq := by
    have := countP_set Cell.isUsed hi (.full key value)
    simp only [Cell.isUsed] at this
    have := h.used_eq
    simp only
    omega
  reached := by
    refine h.reached.set (by simp) ?_
    rintro k v ⟨rfl, rfl⟩
    exact h.reached i key old hi
  distinct := by
    refine h.distinct.set ?_
    rintro k v ⟨rfl, rfl⟩ j w hj
    exact h.distinct j i key w old hj hi
  load := by
    have := h.load
    simpa [capacity] using this

omit [Hashable κ] in
theorem stored_overwrite {cells : Array (Cell κ β)} (hd : Distinct cells) {key : κ} {i : Nat}
    {old : β} (hi : cells[i]? = some (.full key old)) (value : β) (k : κ) (v : β) :
    Stored (cells.setIfInBounds i (.full key value)) k v ↔
      k = key ∧ v = value ∨ k ≠ key ∧ Stored cells k v := by
  obtain ⟨hlt, -⟩ := Array.getElem?_eq_some_iff.1 hi
  rw [stored_set hlt]
  constructor
  · rintro (he | ⟨j, hne, hj⟩)
    · simp_all
    · refine .inr ⟨?_, j, hj⟩
      rintro rfl
      exact hne (hd j i k v old hj hi)
  · rintro (⟨rfl, rfl⟩ | ⟨hk, j, hj⟩)
    · exact .inl rfl
    · refine .inr ⟨j, ?_, hj⟩
      rintro rfl
      simp_all

theorem Sound.tombstone {t : OpenTable κ β} (h : t.Sound) {key : κ} {i : Nat} {old : β}
    (hi : t.cells[i]? = some (.full key old)) :
    Sound { t with cells := t.cells.setIfInBounds i .tombstone, size := t.size - 1 } where
  size_eq := by
    have := countP_set Cell.isFull hi .tombstone
    simp only [Cell.isFull] at this
    have := h.size_eq
    simp at *
    omega
  used_eq := by
    have := countP_set Cell.isUsed hi .tombstone
    simp only [Cell.isUsed] at this
    have := h.used_eq
    simp only
    omega
  reached := h.reached.set (by simp) (by simp)
  distinct := h.distinct.set (by simp)
  load := by
    have := h.load
    simpa [capacity] using this

omit [Hashable κ] in
theorem stored_tombstone {cells : Array (Cell κ β)} (hd : Distinct cells) {key : κ} {i : Nat}
    {old : β} (hi : cells[i]? = some (.full key old)) (k : κ) (v : β) :
    Stored (cells.setIfInBounds i .tombstone) k v ↔ k ≠ key ∧ Stored cells k v := by
  obtain ⟨hlt, -⟩ := Array.getElem?_eq_some_iff.1 hi
  rw [stored_set hlt]
  constructor
  · rintro (he | ⟨j, hne, hj⟩)
    · simp at he
    · refine ⟨?_, j, hj⟩
      rintro rfl
      exact hne (hd j i k v old hj hi)
  · rintro ⟨hk, j, hj⟩
    refine .inr ⟨j, ?_, hj⟩
    rintro rfl
    simp_all

/-! ### Probing a sound table -/

variable [DecidableEq κ]

theorem Sound.locates {t : OpenTable κ β} (h : t.Sound) (hc : 0 < t.capacity) (key : κ) :
    Locates t.cells key (t.probe key) := by
  obtain ⟨i, hi⟩ := h.exists_empty hc
  have hp := locates_probeFrom h.reached hi (.start t.cells key) (Nat.le_refl t.capacity)
  rwa [show path t.cells.size key 0 = _ from path_zero key hc] at hp

theorem Sound.probe_found {t : OpenTable κ β} (h : t.Sound) {key : κ} {i : Nat}
    (hp : t.probe key = .found i) : ∃ value, t.cells[i]? = some (.full key value) := by
  rcases Nat.eq_zero_or_pos t.capacity with hc | hc
  · simp [probe, hc, probeFrom] at hp
  · have := h.locates hc key
    rwa [hp] at this

theorem Sound.probe_vacant {t : OpenTable κ β} (h : t.Sound) {key : κ} {i : Nat}
    (hp : t.probe key = .vacant i) : Absent t.cells key := by
  rcases Nat.eq_zero_or_pos t.capacity with hc | hc
  · intro j value hj
    obtain ⟨hlt, -⟩ := Array.getElem?_eq_some_iff.1 hj
    simp only [capacity] at hc
    omega
  · have := h.locates hc key
    rw [hp] at this
    exact this.1

/-- No probe needs more than one turn: it stops at the key or at an empty cell. -/
theorem Sound.probeFrom_eq_probe {t : OpenTable κ β} (h : t.Sound) (key : κ) (extra : Nat) :
    probeFrom t.cells key (t.capacity + extra) (home t.capacity key) none = t.probe key := by
  rcases Nat.eq_zero_or_pos t.capacity with hc | hc
  · have hcells : t.cells = #[] := Array.eq_empty_of_size_eq_zero hc
    cases extra <;> simp [probe, hc, hcells, probeFrom]
  · obtain ⟨i, hi⟩ := h.exists_empty hc
    have := probeFrom_add hi none (unbroken_zero t.cells key) (Nat.le_refl t.capacity) extra
    rwa [show path t.cells.size key 0 = _ from path_zero key hc] at this

theorem Sound.get?_eq_some {t : OpenTable κ β} (h : t.Sound) (key : κ) (value : β) :
    t.get? key = some value ↔ Stored t.cells key value := by
  unfold get?
  cases hp : t.probe key with
  | found i =>
    obtain ⟨v, hi⟩ := h.probe_found hp
    have hv : Stored t.cells key v := ⟨i, hi⟩
    simp only [hi, Option.bind_some, Cell.entry?, Option.map_some, Option.some.injEq]
    exact ⟨fun he => he ▸ hv, fun hs => h.distinct.unique hv hs⟩
  | vacant i =>
    simp only [reduceCtorEq, false_iff]
    rintro ⟨j, hj⟩
    exact h.probe_vacant hp j value hj

end OpenTable

end FrontEnd
