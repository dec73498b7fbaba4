import FrontEnd.Proofs.Symbol.TableInvariant

/-! The operations of open tables keep the invariant, and what they leave stored. -/

namespace FrontEnd

namespace OpenTable

variable {κ β : Type}

/-! ### Entries -/

theorem mem_entries {t : OpenTable κ β} {key : κ} {value : β} :
    (key, value) ∈ t.entries ↔ Stored t.cells key value := by
  simp only [entries, List.mem_filterMap, Array.mem_toList_iff, Array.mem_iff_getElem?, Stored]
  constructor
  · rintro ⟨c, ⟨i, hi⟩, hc⟩
    refine ⟨i, hi.trans ?_⟩
    cases c <;> simp_all [Cell.entry?]
  · rintro ⟨i, hi⟩
    exact ⟨_, ⟨i, hi⟩, rfl⟩

theorem length_entries (t : OpenTable κ β) : t.entries.length = t.cells.countP Cell.isFull := by
  rw [entries, ← Array.countP_toList]
  induction t.cells.toList with
  | nil => rfl
  | cons c rest ih =>
    cases c <;> simp [List.filterMap_cons, List.countP_cons, Cell.entry?, Cell.isFull, ih]

theorem pairwise_entries {t : OpenTable κ β} (h : Distinct t.cells) :
    t.entries.Pairwise fun e f => e.1 ≠ f.1 := by
  have hcell : ∀ {c : Cell κ β} {e : κ × β}, c.entry? = some e → c = .full e.1 e.2 := by
    intro c e hc
    cases c with
    | empty => simp [Cell.entry?] at hc
    | tombstone => simp [Cell.entry?] at hc
    | full key value => rw [← Option.some.inj hc]
  rw [entries, List.pairwise_filterMap, List.pairwise_iff_getElem]
  intro i j hi hj hij e he f hf hef
  have hi' : t.cells[i]? = some (.full e.1 e.2) := by
    rw [← Array.getElem?_toList, List.getElem?_eq_getElem hi, hcell he]
  have hj' : t.cells[j]? = some (.full e.1 f.2) := by
    rw [← Array.getElem?_toList, List.getElem?_eq_getElem hj, hcell hf, hef]
  have := h i j e.1 e.2 f.2 hi' hj'
  omega

variable [Hashable κ]

theorem Intact.size_le_used {t : OpenTable κ β} (h : t.Intact) : t.size ≤ t.used := by
  rw [h.size_eq, h.used_eq]
  apply Array.countP_mono_left
  intro c _ hc
  cases c <;> simp_all [Cell.isFull, Cell.isUsed]

/-! ### Taking a free cell -/

/-- A key that is nowhere in the table may take a free cell on its path. -/
theorem Intact.occupy {t : OpenTable κ β} (h : t.Intact) {key : κ} {n : Nat} {c : Cell κ β}
    (hc : t.cells[path t.cells.size key n]? = some c) (hfree : c.isFull = false)
    (ha : Absent t.cells key) (hn : n < t.cells.size) (hu : Unbroken t.cells key n) (value : β) :
    Intact
      { cells := t.cells.setIfInBounds (path t.cells.size key n) (.full key value)
        size := t.size + 1
        used := t.used + (if c.isUsed then 0 else 1) } where
  size_eq := by
    have := countP_set Cell.isFull hc (.full key value)
    have := h.size_eq
    simp_all [Cell.isFull]
  used_eq := by
    have := countP_set Cell.isUsed hc (.full key value)
    have := h.used_eq
    simp only [Cell.isUsed, if_true] at *
    split at * <;> simp_all
  reached := by
    refine h.reached.set (by simp) ?_
    rintro k v ⟨rfl, rfl⟩
    exact ⟨n, hn, rfl, hu⟩
  distinct := by
    refine h.distinct.set ?_
    rintro k v ⟨rfl, rfl⟩ j w hj
    exact absurd hj (ha j w)

omit [Hashable κ] in
theorem stored_occupy {cells : Array (Cell κ β)} {key : κ} {i : Nat} {c : Cell κ β}
    (hc : cells[i]? = some c) (hfree : c.isFull = false) (ha : Absent cells key) (value : β)
    (k : κ) (v : β) : Stored (cells.setIfInBounds i (.full key value)) k v ↔
      k = key ∧ v = value ∨ Stored cells k v := by
  obtain ⟨hlt, -⟩ := Array.getElem?_eq_some_iff.1 hc
  rw [stored_set hlt]
  constructor
  · rintro (he | ⟨j, -, hj⟩)
    · simp_all
    · exact .inr ⟨j, hj⟩
  · rintro (⟨rfl, rfl⟩ | ⟨j, hj⟩)
    · exact .inl rfl
    · refine .inr ⟨j, ?_, hj⟩
      rintro rfl
      rw [← Option.some.inj (hj.symm.trans hc)] at hfree
      simp [Cell.isFull] at hfree

/-! ### Growth -/

/-- Tables under construction: sound but for the load, and without tombstones. -/
structure Fresh (t : OpenTable κ β) : Prop extends Intact t where
  no_tombstone : ∀ i : Nat, t.cells[i]? ≠ some .tombstone

theorem fresh_replicate (capacity : Nat) :
    Fresh ({ cells := Array.replicate capacity .empty, size := 0, used := 0 } : OpenTable κ β) where
  size_eq := by simp [Array.countP_replicate, Cell.isFull]
  used_eq := by simp [Array.countP_replicate, Cell.isUsed]
  reached := by
    intro i key value hi
    simp [Array.getElem?_replicate] at hi
  distinct := by
    intro i j key v w hi
    simp [Array.getElem?_replicate] at hi
  no_tombstone := by
    intro i hi
    simp [Array.getElem?_replicate] at hi

theorem Fresh.place {t : OpenTable κ β} (h : t.Fresh) (hroom : t.used < t.capacity) {key : κ}
    (ha : Absent t.cells key) (value : β) :
    (t.place key value).Fresh ∧ (t.place key value).capacity = t.capacity ∧
      (t.place key value).used = t.used + 1 ∧
      ∀ k v, Stored (t.place key value).cells k v ↔ k = key ∧ v = value ∨ Stored t.cells k v := by
  obtain ⟨i, hi⟩ := h.exists_empty hroom
  obtain ⟨m, hm, hf, he, hu⟩ := firstFree_spec h.no_tombstone hi t.cells.size
    (unbroken_zero t.cells key) (Nat.le_refl _)
  have hplace : t.place key value =
      { cells := t.cells.setIfInBounds (path t.cells.size key m) (.full key value)
        size := t.size + 1
        used := t.used + 1 } := by
    rw [path_zero key (by omega)] at hf
    unfold OpenTable.place capacity
    rw [hf]
  rw [hplace]
  refine ⟨⟨h.occupy he rfl ha hm hu value, ?_⟩, by simp [capacity], rfl,
    stored_occupy he rfl ha value⟩
  intro j hj
  rw [Array.getElem?_setIfInBounds] at hj
  split at hj
  · split at hj <;> simp at hj
  · exact h.no_tombstone j hj

theorem Fresh.placeAll {entries : List (κ × β)} {t : OpenTable κ β} (h : t.Fresh)
    (hroom : t.used + entries.length < t.capacity) (ha : ∀ e ∈ entries, Absent t.cells e.1)
    (hd : entries.Pairwise fun e f => e.1 ≠ f.1) :
    let u := entries.foldl (fun t (key, value) => t.place key value) t
    u.Fresh ∧ u.capacity = t.capacity ∧ u.used = t.used + entries.length ∧
      ∀ k v, Stored u.cells k v ↔ (k, v) ∈ entries ∨ Stored t.cells k v := by
  induction entries generalizing t with
  | nil => simpa using h
  | cons e rest ih =>
    obtain ⟨key, value⟩ := e
    rw [List.pairwise_cons] at hd
    rw [List.length_cons] at hroom
    obtain ⟨hf, hc, hu, hs⟩ := h.place (by omega) (ha (key, value) (by simp)) value
    have ha' : ∀ e ∈ rest, Absent (t.place key value).cells e.1 := by
      intro e he i v hi
      rcases (hs e.1 v).1 ⟨i, hi⟩ with ⟨hk, -⟩ | ⟨j, hj⟩
      · exact hd.1 e he hk.symm
      · exact ha e (by simp [he]) j v hj
    obtain ⟨hf', hc', hu', hs'⟩ := ih hf (by omega) ha' hd.2
    refine ⟨hf', hc'.trans hc, ?_, ?_⟩
    · rw [List.foldl_cons, hu', hu, List.length_cons]
      omega
    · intro k v
      rw [List.foldl_cons, hs', hs]
      simp only [List.mem_cons, Prod.mk.injEq]
      tauto

theorem Sound.grow {t : OpenTable κ β} (h : t.Sound) :
    t.grow.Sound ∧ (t.grow.used + 1) * 4 ≤ t.grow.capacity * 3 ∧
      ∀ k v, Stored t.grow.cells k v ↔ Stored t.cells k v := by
  have hload := h.load
  have hlen : t.entries.length ≤ t.used := by
    rw [length_entries, ← h.size_eq]
    exact h.size_le_used
  obtain ⟨capacity, hcap⟩ : ∃ capacity : Nat,
      capacity = if t.capacity < minCapacity then minCapacity else 2 * t.capacity := ⟨_, rfl⟩
  have hfit : (t.used + 1) * 4 ≤ capacity * 3 := by
    unfold minCapacity at hcap
    split at hcap <;> omega
  have hgrow : t.grow = t.entries.foldl (fun t (key, value) => t.place key value)
      { cells := Array.replicate capacity .empty, size := 0, used := 0 } := by
    rw [hcap]
    rfl
  obtain ⟨hf, hc, hu, hs⟩ := Fresh.placeAll (fresh_replicate capacity)
    (by simp [OpenTable.capacity]; omega)
    (by
      intro e _ i v hi
      simp [Array.getElem?_replicate] at hi)
    (pairwise_entries h.distinct)
  have hc' : t.grow.capacity = capacity := by
    rw [hgrow, hc]
    simp [OpenTable.capacity]
  have hu' : t.grow.used = t.entries.length := by
    rw [hgrow, hu]
    exact Nat.zero_add _
  refine ⟨⟨hgrow ▸ hf.toIntact, by omega⟩, by omega, ?_⟩
  intro k v
  rw [hgrow]
  refine (hs k v).trans ?_
  rw [mem_entries]
  simp [Stored, Array.getElem?_replicate]

theorem Sound.reserve {t : OpenTable κ β} (h : t.Sound) :
    t.reserve.Sound ∧ (t.reserve.used + 1) * 4 ≤ t.reserve.capacity * 3 ∧
      ∀ k v, Stored t.reserve.cells k v ↔ Stored t.cells k v := by
  unfold OpenTable.reserve
  split
  · exact h.grow
  · exact ⟨h, by omega, fun _ _ => Iff.rfl⟩

/-! ### Insertion, removal and change -/

variable [DecidableEq κ]

theorem Sound.insert {t : OpenTable κ β} (h : t.Sound) (key : κ) (value : β) :
    (t.insert key value).2.Sound ∧
      ((t.insert key value).1 = true ↔ ∀ v, ¬ Stored t.cells key v) ∧
      ∀ k v, Stored (t.insert key value).2.cells k v ↔
        k = key ∧ v = value ∨ k ≠ key ∧ Stored t.cells k v := by
  obtain ⟨hr, hroom, hs⟩ := h.reserve
  have hl := hr.locates (by omega) key
  simp only [← hs, OpenTable.insert]
  generalize t.reserve = u at *
  cases hp : u.probe key with
  | found i =>
    rw [hp] at hl
    obtain ⟨old, hi⟩ := hl
    refine ⟨hr.overwrite hi value, ?_, stored_overwrite hr.distinct hi value⟩
    simp only [Bool.false_eq_true, false_iff, not_forall, not_not]
    exact ⟨old, i, hi⟩
  | vacant i =>
    rw [hp] at hl
    obtain ⟨ha, hfree, n, hn, rfl, hu⟩ := hl
    have hnone : ∀ v, ¬ Stored u.cells key v := by
      rintro v ⟨j, hj⟩
      exact ha j v hj
    have hstored : ∀ k v, k = key ∧ v = value ∨ Stored u.cells k v ↔
        k = key ∧ v = value ∨ k ≠ key ∧ Stored u.cells k v := by
      intro k v
      by_cases hk : k = key
      · subst hk
        simp [hnone v]
      · simp [hk]
    rcases hfree with hi | hi <;> simp only [hi]
    · exact ⟨⟨hr.occupy hi rfl ha hn hu value, by simpa [capacity] using hroom⟩,
        by simpa using hnone, fun k v => (stored_occupy hi rfl ha value k v).trans (hstored k v)⟩
    · exact ⟨⟨hr.occupy hi rfl ha hn hu value, by simpa [capacity] using hr.load⟩,
        by simpa using hnone, fun k v => (stored_occupy hi rfl ha value k v).trans (hstored k v)⟩

theorem Sound.erase {t : OpenTable κ β} (h : t.Sound) (key : κ) :
    (t.erase key).2.Sound ∧ (t.erase key).1 = t.get? key ∧
      ∀ k v, Stored (t.erase key).2.cells k v ↔ k ≠ key ∧ Stored t.cells k v := by
  unfold OpenTable.erase get?
  cases hp : t.probe key with
  | found i =>
    obtain ⟨v, hi⟩ := h.probe_found hp
    simp only [hi]
    exact ⟨h.tombstone hi, rfl, stored_tombstone h.distinct hi⟩
  | vacant i =>
    refine ⟨h, rfl, ?_⟩
    intro k v
    refine ⟨fun hs => ⟨?_, hs⟩, And.right⟩
    rintro rfl
    obtain ⟨j, hj⟩ := hs
    exact h.probe_vacant hp j v hj

theorem Sound.modify {t : OpenTable κ β} (h : t.Sound) (key : κ) (f : β → β) :
    (t.modify key f).Sound ∧
      ∀ k v, Stored (t.modify key f).cells k v ↔
        k = key ∧ (∃ old, Stored t.cells key old ∧ v = f old) ∨ k ≠ key ∧ Stored t.cells k v := by
  unfold OpenTable.modify
  cases hp : t.probe key with
  | found i =>
    obtain ⟨old, hi⟩ := h.probe_found hp
    simp only [hi]
    refine ⟨h.overwrite hi (f old), ?_⟩
    intro k v
    rw [stored_overwrite h.distinct hi]
    have hold : ∀ w, Stored t.cells key w ↔ w = old := fun w =>
      ⟨fun hw => h.distinct.unique hw ⟨i, hi⟩, fun hw => hw ▸ ⟨i, hi⟩⟩
    simp [hold]
  | vacant i =>
    refine ⟨h, ?_⟩
    intro k v
    have hnone : ∀ w, ¬ Stored t.cells key w := by
      rintro w ⟨j, hj⟩
      exact h.probe_vacant hp j w hj
    by_cases hk : k = key
    · subst hk
      simp [hnone]
    · simp [hk]

/-! ### Filtering -/

/-- What a filter makes of a cell. -/
def sieve (keep : κ → β → Bool) : Cell κ β → Cell κ β
  | .full key value => if keep key value then .full key value else .tombstone
  | cell => cell

omit [Hashable κ] [DecidableEq κ] in
theorem filter_eq (t : OpenTable κ β) (keep : κ → β → Bool) :
    t.filter keep = { t with
      cells := t.cells.map (sieve keep)
      size := (t.cells.map (sieve keep)).countP Cell.isFull } := by
  rfl

omit [Hashable κ] [DecidableEq κ] in
theorem sieve_eq_empty {keep : κ → β → Bool} {c : Cell κ β} :
    sieve keep c = .empty ↔ c = .empty := by
  cases c <;> simp [sieve]
  split <;> simp

omit [Hashable κ] [DecidableEq κ] in
theorem sieve_eq_full {keep : κ → β → Bool} {c : Cell κ β} {key : κ} {value : β} :
    sieve keep c = .full key value ↔ c = .full key value ∧ keep key value := by
  cases c with
  | empty => simp [sieve]
  | tombstone => simp [sieve]
  | full k v =>
    by_cases hk : keep k v <;> simp [sieve, hk]
    · rintro rfl rfl
      exact hk
    · rintro rfl rfl
      simpa using hk

omit [Hashable κ] [DecidableEq κ] in
theorem getElem?_sieve_full {cells : Array (Cell κ β)} {keep : κ → β → Bool} {i : Nat} {key : κ}
    {value : β} : (cells.map (sieve keep))[i]? = some (.full key value) ↔
      cells[i]? = some (.full key value) ∧ keep key value := by
  simp only [Array.getElem?_map, Option.map_eq_some_iff, sieve_eq_full]
  constructor
  · rintro ⟨c, hc, rfl, hk⟩
    exact ⟨hc, hk⟩
  · rintro ⟨hc, hk⟩
    exact ⟨_, hc, rfl, hk⟩

omit [DecidableEq κ] in
theorem Sound.filter {t : OpenTable κ β} (h : t.Sound) (keep : κ → β → Bool) :
    (t.filter keep).Sound ∧
      ∀ k v, Stored (t.filter keep).cells k v ↔ Stored t.cells k v ∧ keep k v := by
  rw [filter_eq]
  refine ⟨{ size_eq := rfl, used_eq := ?_, reached := ?_, distinct := ?_, load := ?_ }, ?_⟩
  · rw [h.used_eq, Array.countP_map]
    congr 1
    funext c
    cases c with
    | empty => rfl
    | tombstone => rfl
    | full key value => by_cases hk : keep key value <;> simp [sieve, Cell.isUsed, hk]
  · intro i key value hi
    obtain ⟨n, hn, hp, hu⟩ := h.reached i key value (getElem?_sieve_full.1 hi).1
    refine ⟨n, by simpa using hn, by simpa using hp, ?_⟩
    intro m hm he
    simp only [Array.size_map, Array.getElem?_map, Option.map_eq_some_iff, sieve_eq_empty] at he
    obtain ⟨c, hc, rfl⟩ := he
    exact hu m hm hc
  · intro i j key v w hi hj
    exact h.distinct i j key v w (getElem?_sieve_full.1 hi).1 (getElem?_sieve_full.1 hj).1
  · simpa [capacity] using h.load
  · intro k v
    simp only [Stored, getElem?_sieve_full, exists_and_right]

end OpenTable

end FrontEnd
