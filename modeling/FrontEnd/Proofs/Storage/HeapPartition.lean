import FrontEnd.Proofs.Storage.HeapRanges
import Mathlib.Data.List.Pairwise
import Mathlib.Data.List.TakeDrop
import Mathlib.Data.List.TakeWhile

/-!
Whatever is asked of a heap, its free ranges stay sorted and joined; and as long as only live blocks
are freed, these and the free ranges divide the committed bytes among them.
-/

namespace FrontEnd

open FreeRange

namespace FreeRange

variable {r s : FreeRange} {ranges : List FreeRange} {limit : Nat}

/-- No byte lies in both. -/
def Apart (r s : FreeRange) : Prop := ∀ i, ¬(r.Has i ∧ s.Has i)

instance : Std.Symm Apart := ⟨fun _ _ h i hi => h i hi.symm⟩

/-- The first `limit` bytes, each in exactly one of the ranges. -/
structure Tiles (ranges : List FreeRange) (limit : Nat) : Prop where
  apart : ranges.Pairwise Apart
  whole : ∀ i, i < limit ↔ ∃ r ∈ ranges, r.Has i

theorem has_offset (h : 0 < r.size) : r.Has r.offset := by
  simp only [Has, stop]
  omega

theorem pairwise_apart (h : ∀ i, times i ranges ≤ 1) : ranges.Pairwise Apart := by
  induction ranges with
  | nil => exact .nil
  | cons r ranges ih =>
    refine List.pairwise_cons.2 ⟨fun s hs i ⟨hr, hi⟩ => ?_, ih fun i => ?_⟩
    · have hcount := h i
      rw [times_cons, times_of_has hr] at hcount
      have := times_pos.2 ⟨s, hs, hi⟩
      omega
    · have := h i
      rw [times_cons] at this
      omega

theorem tiles_of_times (h : ∀ i, times i ranges = times i [⟨0, limit⟩]) : Tiles ranges limit where
  apart := pairwise_apart fun i => h i ▸ List.countP_le_length
  whole i := by
    rw [← times_pos, h, times_pos]
    simp [Has, stop]

theorem times_erase {b : FreeRange} (h : b ∈ ranges) (i : Nat) :
    times i ranges = times i [b] + times i (ranges.erase b) := by
  rw [← times_cons]
  exact (List.perm_cons_erase h).countP_eq _

end FreeRange

theorem le_roundUp (unit size : Nat) (h : 0 < unit) : size ≤ roundUp unit size := by
  have hdiv := Nat.div_add_mod (size + unit - 1) unit
  have hmod := Nat.mod_lt (size + unit - 1) h
  rw [Nat.mul_comm] at hdiv
  unfold roundUp
  omega

theorem roundUp_le (unit size : Nat) : roundUp unit size ≤ size + unit - 1 := Nat.div_mul_le_self ..

theorem fitting_eq_ok {verb : String} {n m : Nat} :
    fitting verb n = .ok m ↔ n < sizeBound ∧ n = m := by
  unfold fitting
  split
  next hlt => simp [hlt]
  next hlt =>
    simp only [reduceCtorEq, false_iff, not_and]
    exact fun hn => absurd hn hlt

theorem fitting_of_lt {verb : String} {n : Nat} (h : n < sizeBound) : fitting verb n = .ok n :=
  fitting_eq_ok.2 ⟨h, rfl⟩

theorem fitting_of_le {verb : String} {n : Nat} (h : sizeBound ≤ n) :
    fitting verb n = .error (.fault (.overflow verb)) := if_neg (Nat.not_lt.2 h)

/-- Bytes that stand elsewhere are not overwritten. -/
theorem getElem?_overwrite (memory : Array UInt8) (offset : Nat) (bytes : List UInt8) (j : Nat)
    (h : j < offset ∨ offset + bytes.length ≤ j) :
    (overwrite memory offset bytes)[j]? = memory[j]? := by
  induction bytes generalizing memory offset with
  | nil => rfl
  | cons b bytes ih =>
    rw [List.length_cons] at h
    rw [overwrite, ih _ _ (by omega), Array.getElem?_setIfInBounds_ne (by omega)]

theorem size_overwrite (memory : Array UInt8) (offset : Nat) (bytes : List UInt8) :
    (overwrite memory offset bytes).size = memory.size := by
  induction bytes generalizing memory offset with
  | nil => rfl
  | cons b bytes ih => rw [overwrite, ih, Array.size_setIfInBounds]

theorem ByteRange.read_congr {r : ByteRange} {memory memory' : Array UInt8}
    (hsize : memory'.size = memory.size)
    (h : ∀ j, r.offset ≤ j → j < r.offset + r.len → memory'[j]? = memory[j]?) :
    r.read memory' = r.read memory := by
  unfold ByteRange.read
  rw [hsize]
  split
  next hin =>
    refine List.ext_getElem? fun n => ?_
    simp only [Array.getElem?_toList, Array.getElem?_extract, hsize]
    split
    · exact h _ (by omega) (by omega)
    · rfl
  next => rfl

namespace Heap

variable {h k : Heap} {b c : FreeRange} {live : List FreeRange} {size : Nat}

/-- The free ranges are sorted, apart and never adjacent, and the committed bytes are within the
reservation. -/
structure Sound (h : Heap) : Prop where
  tidy : Tidy h.free h.committed
  committed_le : h.committed ≤ h.reserve
  reserve_le : h.reserve ≤ maxOffset

/-- More bytes are committed, and the old ones are kept. -/
structure Extends (h k : Heap) : Prop where
  reserve : k.reserve = h.reserve
  memory : ∃ more, k.memory = h.memory ++ more

theorem Extends.committed (he : h.Extends k) : h.committed ≤ k.committed := by
  obtain ⟨-, more, hm⟩ := he
  simp [Heap.committed, hm]

theorem sound_withReserve (reserve : Nat) : (withReserve reserve).Sound :=
  ⟨tidy_nil _, Nat.zero_le _, Nat.min_le_right ..⟩

/-! ### Growth -/

theorem grow_eq_ok (hg : h.grow size = .ok k) :
    h.committed + (size - h.tail) ≤ h.reserve ∧ ∃ target,
      target = min (h.committed + roundUp commitChunk (size - h.tail)) h.reserve ∧
      k = { h with
        memory := h.memory ++ Array.replicate (target - h.committed) 0
        free := join h.free ⟨h.committed, target - h.committed⟩ [] } := by
  unfold Heap.grow at hg
  cases hstep : fitting "multiply" (roundUp commitChunk (size - h.tail)) with
  | error e => simp [hstep, Bind.bind, Except.bind] at hg
  | ok step =>
    obtain ⟨-, rfl⟩ := fitting_eq_ok.1 hstep
    cases htarget : fitting "add" (h.memory.size + roundUp commitChunk (size - h.tail)) with
    | error e => simp [hstep, htarget, Bind.bind, Except.bind] at hg
    | ok target =>
      obtain ⟨-, rfl⟩ := fitting_eq_ok.1 htarget
      simp only [hstep, htarget, Bind.bind, Except.bind] at hg
      split at hg
      · simp [throw, throwThe, MonadExceptOf.throw] at hg
      next hle =>
        simp only [Pure.pure, Except.pure, Except.ok.injEq] at hg
        exact ⟨Nat.le_of_not_lt hle, _, rfl, hg.symm⟩

/-- Where the new boundary is a 64-bit number, growth is a matter of the reservation. -/
theorem grow_of_lt (hfits : h.committed + roundUp commitChunk (size - h.tail) < sizeBound) :
    (∃ k, h.grow size = .ok k) ∨ h.reserve < h.committed + (size - h.tail) ∧
      h.grow size = .error (.cause (.outOfReserve size h.committed h.reserve)) := by
  have hstep : roundUp commitChunk (size - h.tail) < sizeBound :=
    Nat.lt_of_le_of_lt (Nat.le_add_left ..) hfits
  have htarget : h.memory.size + roundUp commitChunk (size - h.tail) < sizeBound := hfits
  unfold Heap.grow
  simp only [fitting_of_lt hstep, fitting_of_lt htarget, Bind.bind, Except.bind]
  split
  next hroom => exact .inr ⟨hroom, rfl⟩
  next => exact .inl ⟨_, rfl⟩

/-- The boundary is computed before it is held against the reservation. -/
theorem grow_of_le (hexceeds : sizeBound ≤ h.committed + roundUp commitChunk (size - h.tail)) :
    ∃ verb, h.grow size = .error (.fault (.overflow verb)) := by
  have htarget : sizeBound ≤ h.memory.size + roundUp commitChunk (size - h.tail) := hexceeds
  unfold Heap.grow
  by_cases hstep : roundUp commitChunk (size - h.tail) < sizeBound
  · simp only [fitting_of_lt hstep, fitting_of_le htarget, Bind.bind, Except.bind]
    exact ⟨_, rfl⟩
  · simp only [fitting_of_le (Nat.le_of_not_lt hstep), Bind.bind, Except.bind]
    exact ⟨_, rfl⟩

theorem tail_lt (hsmall : ∀ r ∈ h.free, r.size < size) (hpos : 0 < size) : h.tail < size := by
  unfold tail
  split
  next last hl =>
    split
    · exact hsmall last (List.mem_of_getLast? hl)
    · exact hpos
  next => exact hpos

/-- Growth makes a range that is large enough; the new bytes are free. -/
theorem Sound.grow (hs : h.Sound) (hsmall : ∀ r ∈ h.free, r.size < size) (hpos : 0 < size)
    (hg : h.grow size = .ok k) : k.Sound ∧ h.Extends k ∧ (∃ x ∈ k.free, size ≤ x.size) ∧
      ∀ i, times i k.free =
        times i h.free + times i [⟨h.committed, k.committed - h.committed⟩] := by
  have htail := tail_lt hsmall hpos
  have hround := le_roundUp commitChunk (size - h.tail) (by decide)
  obtain ⟨hle, target, htarget, rfl⟩ := grow_eq_ok hg
  have hmore : h.committed + (size - h.tail) ≤ target := by omega
  have hcommitted : Heap.committed { h with
      memory := h.memory ++ Array.replicate (target - h.committed) 0
      free := join h.free ⟨h.committed, target - h.committed⟩ [] } = target := by
    simp only [Heap.committed, Array.size_append, Array.size_replicate] at *
    omega
  refine ⟨⟨?_, ?_, hs.reserve_le⟩, ⟨rfl, _, rfl⟩, ?_, fun i => ?_⟩
  · rw [hcommitted]
    have hnew : FreeRange.stop ⟨h.committed, target - h.committed⟩ = target := by
      simp only [stop]
      omega
    have htidy : Tidy (h.free ++ []) target := by
      rw [List.append_nil]
      exact hs.tidy.mono (by omega)
    refine tidy_join htidy ?_ (Nat.le_of_eq hnew) hs.tidy.inside (List.forall_mem_nil _)
    dsimp only
    omega
  · rw [hcommitted]
    exact htarget ▸ Nat.min_le_right ..
  · obtain ⟨x, hx, hsize⟩ := exists_mem_join_nil h.free ⟨h.committed, target - h.committed⟩
    refine ⟨x, hx, ?_⟩
    have : x.size = target - h.committed + h.tail := hsize
    omega
  · rw [hcommitted]
    dsimp only
    rw [times_join, times_append]

/-! ### Blocks -/

/-- Size of the block that is handed out for a request. -/
def blockSize (size : Nat) : Nat := roundUp heapAlign (max size 1)

theorem le_blockSize (size : Nat) : max size 1 ≤ blockSize size := le_roundUp _ _ (by decide)

theorem blockSize_pos (size : Nat) : 0 < blockSize size :=
  Nat.lt_of_lt_of_le (Nat.le_max_right size 1) (le_blockSize size)

/-- What becomes of a request: its size overflows, a block is cut off from a free range, from a
range that growth made, or growth fails. -/
inductive Allocates (h : Heap) (size : Nat) :
    Except (Halt StorageError) (FreeRange × Heap) → Prop
  | overflows (hblock : sizeBound ≤ blockSize size) :
    Allocates h size (.error (.fault (.overflow "multiply")))
  | carved {offset : Nat} {free : List FreeRange} (hblock : blockSize size < sizeBound)
    (hcarve : carve (blockSize size) h.free = some (offset, free)) :
    Allocates h size (.ok (⟨offset, blockSize size⟩, { h with free }))
  | grown {k : Heap} {offset : Nat} {free : List FreeRange} (hblock : blockSize size < sizeBound)
    (hsmall : ∀ r ∈ h.free, r.size < blockSize size) (hgrow : h.grow (blockSize size) = .ok k)
    (hcarve : carve (blockSize size) k.free = some (offset, free)) :
    Allocates h size (.ok (⟨offset, blockSize size⟩, { k with free }))
  | fails {e : Halt StorageError} (hblock : blockSize size < sizeBound)
    (hsmall : ∀ r ∈ h.free, r.size < blockSize size)
    (hgrow : h.grow (blockSize size) = .error e) : Allocates h size (.error e)

theorem Sound.allocates (hs : h.Sound) (size : Nat) : Allocates h size (h.alloc size) := by
  unfold Heap.alloc
  rw [← blockSize]
  by_cases hblock : blockSize size < sizeBound
  · rw [fitting_of_lt hblock]
    simp only [Bind.bind, Except.bind]
    cases hcarve : carve (blockSize size) h.free with
    | some cut => exact .carved hblock hcarve
    | none =>
      have hsmall := carve_eq_none.1 hcarve
      cases hgrow : h.grow (blockSize size) with
      | error e => exact .fails hblock hsmall hgrow
      | ok k =>
        dsimp only
        cases hcarve : carve (blockSize size) k.free with
        | some cut => exact .grown hblock hsmall hgrow hcarve
        | none =>
          obtain ⟨-, -, ⟨x, hx, hle⟩, -⟩ := hs.grow hsmall (blockSize_pos size) hgrow
          exact absurd hle (Nat.not_le_of_lt (carve_eq_none.1 hcarve x hx))
  · rw [fitting_of_le (Nat.le_of_not_lt hblock)]
    exact .overflows (Nat.le_of_not_lt hblock)

theorem Sound.carve {offset : Nat} {free : List FreeRange} (hs : h.Sound)
    (hcarve : carve (blockSize size) h.free = some (offset, free)) :
    Sound { h with free } ∧ offset + blockSize size ≤ h.committed := by
  obtain ⟨htidy, hin⟩ := tidy_carve hcarve (blockSize_pos size) hs.tidy
  exact ⟨⟨htidy, hs.committed_le, hs.reserve_le⟩, hin⟩

/-- A block is cut off from what is free, or from new bytes. -/
theorem Sound.alloc (hs : h.Sound) (ha : h.alloc size = .ok (b, k)) : k.Sound ∧ h.Extends k ∧
    0 < b.size ∧ size ≤ b.size ∧ ∀ i, times i [b] + times i k.free =
      times i h.free + times i [⟨h.committed, k.committed - h.committed⟩] := by
  have hpos := blockSize_pos size
  have hlarge : size ≤ blockSize size := (Nat.le_max_left size 1).trans (le_blockSize size)
  have hallocates := ha ▸ hs.allocates size
  cases hallocates with
  | carved hblock hcarve =>
    refine ⟨(hs.carve hcarve).1, ⟨rfl, #[], by simp⟩, hpos, hlarge, fun i => ?_⟩
    have hnone : times i h.free + times i [⟨h.committed, h.committed - h.committed⟩] =
        times i h.free := by
      rw [times_of_not_has (by simp [Has, stop]), Nat.add_zero]
    exact (times_carve hcarve i).symm.trans hnone.symm
  | grown hblock hsmall hgrow hcarve =>
    obtain ⟨hsound, hextends, -, hnew⟩ := hs.grow hsmall hpos hgrow
    refine ⟨(hsound.carve hcarve).1, ⟨hextends.reserve, hextends.memory⟩, hpos, hlarge, ?_⟩
    exact fun i => (times_carve hcarve i).symm.trans (hnew i)

/-- No free range has as much as the block of a request, and the reservation ends in front of it. -/
structure Lacks (h : Heap) (size : Nat) : Prop where
  small : ∀ r ∈ h.free, r.size < blockSize size
  room : h.reserve < h.committed + (blockSize size - h.tail)

/-- All sizes that are computed for a request are 64-bit numbers: that of the block, and where no
free range has as much, that of the memory after growth. -/
structure Fits (h : Heap) (size : Nat) : Prop where
  block : blockSize size < sizeBound
  growth : (∀ r ∈ h.free, r.size < blockSize size) →
    h.committed + roundUp commitChunk (blockSize size - h.tail) < sizeBound

/-- A request that fits is served, with a block in the committed region, or it is refused for want
of room. -/
theorem Sound.alloc_of_fits (hs : h.Sound) (hfits : h.Fits size) :
    (∃ b k, h.alloc size = .ok (b, k) ∧ max size 1 ≤ b.size ∧ b.stop ≤ k.committed) ∨
      h.Lacks size ∧ h.alloc size =
        .error (.cause (.outOfReserve (blockSize size) h.committed h.reserve)) := by
  have hlarge := le_blockSize size
  have hallocates := hs.allocates size
  generalize h.alloc size = result at hallocates ⊢
  cases hallocates with
  | overflows hblock => exact absurd hfits.block (Nat.not_lt_of_le hblock)
  | carved hblock hcarve => exact .inl ⟨_, _, rfl, hlarge, (hs.carve hcarve).2⟩
  | grown hblock hsmall hgrow hcarve =>
    obtain ⟨hsound, -⟩ := hs.grow hsmall (blockSize_pos size) hgrow
    exact .inl ⟨_, _, rfl, hlarge, (hsound.carve hcarve).2⟩
  | fails hblock hsmall hgrow =>
    obtain ⟨k, hk⟩ | ⟨hroom, hrefused⟩ := grow_of_lt (hfits.growth hsmall)
    · cases hgrow.symm.trans hk
    · cases hgrow.symm.trans hrefused
      exact .inr ⟨⟨hsmall, hroom⟩, rfl⟩

theorem Sound.alloc_of_not_fits (hs : h.Sound) (hexceeds : ¬h.Fits size) :
    ∃ verb, h.alloc size = .error (.fault (.overflow verb)) := by
  have hgrowth (hblock : blockSize size < sizeBound)
      (hsmall : ∀ r ∈ h.free, r.size < blockSize size) :
      ∃ verb, h.grow (blockSize size) = .error (.fault (.overflow verb)) :=
    grow_of_le (Nat.le_of_not_lt fun hlt => hexceeds ⟨hblock, fun _ => hlt⟩)
  have hallocates := hs.allocates size
  generalize h.alloc size = result at hallocates ⊢
  cases hallocates with
  | overflows hblock => exact ⟨_, rfl⟩
  | carved hblock hcarve =>
    refine absurd ⟨hblock, fun hsmall => ?_⟩ hexceeds
    cases hcarve.symm.trans (carve_eq_none.2 hsmall)
  | grown hblock hsmall hgrow hcarve =>
    obtain ⟨verb, hverb⟩ := hgrowth hblock hsmall
    cases hgrow.symm.trans hverb
  | fails hblock hsmall hgrow =>
    obtain ⟨verb, hverb⟩ := hgrowth hblock hsmall
    cases hgrow.symm.trans hverb
    exact ⟨verb, rfl⟩

/-- What can be added to a reservation and to what rounding takes fits. -/
theorem Sound.fits (hs : h.Sound)
    (hsize : size + heapAlign + commitChunk + maxOffset < sizeBound) : h.Fits size := by
  have hblock : blockSize size ≤ max size 1 + heapAlign - 1 := roundUp_le ..
  have hgrowth := roundUp_le commitChunk (blockSize size - h.tail)
  have hcommitted := hs.committed_le
  have hreserve := hs.reserve_le
  exact ⟨by omega, fun _ => by omega⟩

theorem Sound.fits_of_le_reserve (hs : h.Sound) (hsize : size ≤ h.reserve) : h.Fits size := by
  have hreserve := hs.reserve_le
  refine hs.fits ?_
  simp only [heapAlign, commitChunk, maxOffset, sizeBound, UInt64.size] at *
  omega

/-- Up to the reservation nothing overflows: a block is refused only for want of room. -/
theorem Sound.alloc_error (hs : h.Sound) (hsize : size ≤ h.reserve) {e : Halt StorageError}
    (ha : h.alloc size = .error e) :
    e = .cause (.outOfReserve (blockSize size) h.committed h.reserve) := by
  obtain ⟨b, k, hk, -⟩ | ⟨-, he⟩ := hs.alloc_of_fits (hs.fits_of_le_reserve hsize)
  · exact absurd (hk.symm.trans ha) nofun
  · exact (Except.error.inj (he.symm.trans ha)).symm

/-! ### Release -/

/-- The ranges before a block and those from it on. -/
theorem span_free (hs : h.Sound) (b : FreeRange) : ∃ before after,
    h.free.span (·.offset < b.offset) = (before, after) ∧ h.free = before ++ after ∧
      (∀ x ∈ before, x.offset < b.offset) ∧ ∀ y ∈ after, b.offset ≤ y.offset := by
  refine ⟨h.free.takeWhile (·.offset < b.offset), h.free.dropWhile (·.offset < b.offset),
    List.span_eq_takeWhile_dropWhile .., List.takeWhile_append_dropWhile.symm, ?_, ?_⟩
  · intro x hx
    simpa using List.mem_takeWhile_imp hx
  · intro y hy
    have hord := hs.tidy.ordered.sublist (List.dropWhile_sublist (·.offset < b.offset))
    cases hd : h.free.dropWhile (·.offset < b.offset) with
    | nil => simp [hd] at hy
    | cons z rest =>
      have hz : b.offset ≤ z.offset := by
        have := List.head_dropWhile_not (fun r : FreeRange => decide (r.offset < b.offset))
          (l := h.free) (by simp [hd])
        simpa [hd] using this
      rw [hd] at hy hord
      rcases List.mem_cons.1 hy with rfl | hy
      · exact hz
      · have := (List.pairwise_cons.1 hord).1 y hy
        simp only [stop] at this
        omega

/-- A block is taken back exactly if it has bytes, all of them committed and none of them free. -/
theorem Sound.dealloc (hs : h.Sound) (b : FreeRange) :
    (∃ e, h.dealloc b = .error e ∧ e = .invalidFree b.offset ∧
      ¬(0 < b.size ∧ b.stop ≤ h.committed ∧ ∀ r ∈ h.free, r.Apart b)) ∨
    ∃ k, h.dealloc b = .ok k ∧ k.Sound ∧ k.memory = h.memory ∧
      (0 < b.size ∧ b.stop ≤ h.committed ∧ ∀ r ∈ h.free, r.Apart b) ∧
      ∀ i, times i k.free = times i [b] + times i h.free := by
  obtain ⟨before, after, hspan, hfree, hbefore, hafter⟩ := span_free hs b
  have htidy := hfree ▸ hs.tidy
  unfold Heap.dealloc
  simp only [hspan]
  split
  next hbad =>
    refine .inl ⟨_, rfl, rfl, ?_⟩
    rintro ⟨hpos, hin, hapart⟩
    simp only [Bool.or_eq_true, decide_eq_true_eq, Option.any_eq_true] at hbad
    rcases hbad with (hbad | hbad) | ⟨last, hl, hlt⟩ | ⟨next, hn, hlt⟩
    · omega
    · simp only [Heap.committed] at hin
      omega
    · have hmem := List.mem_of_getLast? hl
      have := hbefore last hmem
      refine hapart last (hfree ▸ List.mem_append_left _ hmem) b.offset ⟨?_, has_offset hpos⟩
      exact ⟨Nat.le_of_lt this, hlt⟩
    · have hmem := List.mem_of_head? hn
      have := hafter next hmem
      have hposn := htidy.positive next (List.mem_append_right _ hmem)
      exact hapart next (hfree ▸ List.mem_append_right _ hmem) next.offset
        ⟨has_offset hposn, this, hlt⟩
  next hgood =>
    simp only [Bool.or_eq_true, decide_eq_true_eq, not_or, Option.any_eq_true, not_exists,
      not_and] at hgood
    obtain ⟨⟨hsize, hin⟩, hlast, hnext⟩ := hgood
    have hpos : 0 < b.size := Nat.pos_of_ne_zero hsize
    have hleft : ∀ x ∈ before, x.stop ≤ b.offset := by
      intro x hx
      obtain ⟨front, last, rfl⟩ := (List.eq_nil_or_concat before).resolve_left
        (List.ne_nil_of_mem hx)
      have hl := hlast last (by simp)
      rw [List.concat_eq_append] at hx htidy
      rcases List.mem_append.1 hx with hx | hx
      · rw [List.append_assoc] at htidy
        have := htidy.gap_left x hx
        simp only [stop] at this hl ⊢
        omega
      · exact List.mem_singleton.1 hx ▸ Nat.le_of_not_lt hl
    have hright : ∀ y ∈ after, b.stop ≤ y.offset := by
      intro y hy
      cases after with
      | nil => simp at hy
      | cons next rest =>
        have hn := hnext next rfl
        rcases List.mem_cons.1 hy with rfl | hy
        · exact Nat.le_of_not_lt hn
        · have := htidy.gap_right y hy
          simp only [stop] at this hn ⊢
          omega
    refine .inr ⟨_, rfl, ⟨?_, hs.committed_le, hs.reserve_le⟩, rfl,
      ⟨hpos, Nat.le_of_not_lt hin, ?_⟩,
      fun i => ?_⟩
    · exact tidy_join htidy hpos (Nat.le_of_not_lt hin) hleft hright
    · rintro r hr i ⟨⟨hri, hir⟩, hbi, hib⟩
      rcases List.mem_append.1 (hfree ▸ hr) with hr | hr
      · have := hleft r hr
        omega
      · have := hright r hr
        omega
    · dsimp only
      rw [times_join, hfree, times_append, times_append, times_cons i b after]
      omega

theorem Sound.clear (hs : h.Sound) : h.clear.Sound ∧
    ∀ i, times i h.clear.free = times i [⟨0, h.committed⟩] := by
  unfold Heap.clear
  cases hm : h.memory.isEmpty with
  | true =>
    refine ⟨⟨tidy_nil _, hs.committed_le, hs.reserve_le⟩, fun i => ?_⟩
    have hzero : h.committed = 0 := by simpa [Heap.committed] using hm
    rw [times_of_not_has (by simp [Has, stop, hzero])]
    rfl
  | false =>
    have hpos : 0 < h.committed := by
      rw [Heap.committed, Array.size_pos_iff]
      simpa using hm
    refine ⟨⟨⟨List.pairwise_singleton .., ?_, ?_⟩, hs.committed_le, hs.reserve_le⟩, fun i => rfl⟩
    · simpa [Heap.committed] using hpos
    · simp [stop, Heap.committed]

/-! ### Contents -/

/-- Writes bytes to a block, from its start as far as it reaches. -/
def store (h : Heap) (block : FreeRange) (bytes : List UInt8) : Heap :=
  if block.stop ≤ h.memory.size then
    { h with memory := overwrite h.memory block.offset (bytes.take block.size) }
  else h

theorem fill_eq_store (h : Heap) (block : FreeRange) (byte : UInt8) :
    (h.fill block byte).2 = h.store block (List.replicate block.size byte) := by
  have hstop : block.offset + block.size = block.stop := rfl
  simp only [fill, ByteRange.fill, store, hstop]
  by_cases hin : block.stop ≤ h.memory.size
  · simp only [if_pos hin, List.take_replicate, Nat.min_self]
  · simp only [if_neg hin]

theorem store_free (h : Heap) (block : FreeRange) (bytes : List UInt8) :
    (h.store block bytes).free = h.free ∧ (h.store block bytes).reserve = h.reserve ∧
      (h.store block bytes).committed = h.committed := by
  unfold store
  split
  · exact ⟨rfl, rfl, size_overwrite ..⟩
  · exact ⟨rfl, rfl, rfl⟩

theorem Sound.store (hs : h.Sound) (block : FreeRange) (bytes : List UInt8) :
    (h.store block bytes).Sound := by
  obtain ⟨hfree, hreserve, hcommitted⟩ := h.store_free block bytes
  exact ⟨hfree ▸ hcommitted ▸ hs.tidy, hcommitted ▸ hreserve ▸ hs.committed_le,
    hreserve ▸ hs.reserve_le⟩

/-- What is written to one block is not seen in another one. -/
theorem bytes_store (ha : b.Apart c) (bytes : List UInt8) :
    (h.store b bytes).bytes c = h.bytes c := by
  unfold Heap.store
  split
  next =>
    refine ByteRange.read_congr (size_overwrite ..) fun j hj hlt => getElem?_overwrite _ _ _ _ ?_
    have hlen : (bytes.take b.size).length ≤ b.size := List.length_take_le ..
    have hnot : ¬b.Has j := fun hb => ha j ⟨hb, hj, hlt⟩
    simp only [Has, stop] at hnot
    omega
  next => rfl

/-! ### Runs -/

end Heap

/-- What may be asked of a heap. -/
inductive HeapCall
  | alloc (size : Nat)
  | dealloc (block : FreeRange)
  | clear
  | store (block : FreeRange) (bytes : List UInt8)
  deriving DecidableEq, Repr

def HeapCall.freed : HeapCall → List FreeRange
  | .dealloc block => [block]
  | _ => []

/-- A heap, and the blocks that were handed out and not taken back. -/
structure Lent where
  heap : Heap
  live : List FreeRange
  deriving DecidableEq, Repr

namespace Lent

variable {l : Lent}

/-- Serves a call; one that is refused changes nothing. -/
def serve (l : Lent) : HeapCall → Lent
  | .alloc size =>
    match l.heap.alloc size with
    | .ok (block, heap) => ⟨heap, block :: l.live⟩
    | .error _ => l
  | .dealloc block =>
    match l.heap.dealloc block with
    | .ok heap => ⟨heap, l.live.erase block⟩
    | .error _ => l
  | .clear => ⟨l.heap.clear, []⟩
  | .store block bytes => { l with heap := l.heap.store block bytes }

def run (l : Lent) (calls : List HeapCall) : Lent := calls.foldl serve l

/-- Only live blocks are given back. -/
def Honest (l : Lent) : List HeapCall → Prop
  | [] => True
  | call :: calls => (∀ block ∈ call.freed, block ∈ l.live) ∧ (l.serve call).Honest calls

instance decidableHonest : (l : Lent) → (calls : List HeapCall) → Decidable (l.Honest calls)
  | _, [] => inferInstanceAs (Decidable True)
  | l, call :: calls =>
    have := decidableHonest (l.serve call) calls
    inferInstanceAs (Decidable (_ ∧ _))

def start (reserve : Nat) : Lent := ⟨Heap.withReserve reserve, []⟩

theorem serve_alloc {size : Nat} {block : FreeRange} {heap : Heap}
    (h : l.heap.alloc size = .ok (block, heap)) :
    l.serve (.alloc size) = ⟨heap, block :: l.live⟩ := by
  simp only [serve, h]

theorem serve_alloc_error {size : Nat} {e : Halt StorageError} (h : l.heap.alloc size = .error e) :
    l.serve (.alloc size) = l := by
  simp only [serve, h]

theorem serve_dealloc {block : FreeRange} {heap : Heap} (h : l.heap.dealloc block = .ok heap) :
    l.serve (.dealloc block) = ⟨heap, l.live.erase block⟩ := by
  simp only [serve, h]

theorem serve_dealloc_error {block : FreeRange} {e : StorageError}
    (h : l.heap.dealloc block = .error e) : l.serve (.dealloc block) = l := by
  simp only [serve, h]

theorem sound_serve (hs : l.heap.Sound) (call : HeapCall) : (l.serve call).heap.Sound := by
  cases call with
  | alloc size =>
    cases ha : l.heap.alloc size with
    | ok r => exact serve_alloc ha ▸ (hs.alloc ha).1
    | error => exact (serve_alloc_error ha).symm ▸ hs
  | dealloc block =>
    obtain ⟨_, he, -⟩ | ⟨heap, hk, hsound, -⟩ := hs.dealloc block
    · exact (serve_dealloc_error he).symm ▸ hs
    · exact serve_dealloc hk ▸ hsound
  | clear => exact hs.clear.1
  | store block bytes => exact hs.store block bytes

theorem sound_run (hs : l.heap.Sound) (calls : List HeapCall) : (l.run calls).heap.Sound := by
  induction calls generalizing l with
  | nil => exact hs
  | cons call calls ih => exact ih (sound_serve hs call)

/-- Every committed byte is in one live block or in one free range. -/
structure Divided (l : Lent) : Prop where
  sound : l.heap.Sound
  positive : ∀ b ∈ l.live, 0 < b.size
  times : ∀ i, times i (l.heap.free ++ l.live) = times i [⟨0, l.heap.committed⟩]

theorem divided_start (reserve : Nat) : (start reserve).Divided where
  sound := Heap.sound_withReserve reserve
  positive := nofun
  times i := (times_of_not_has (by simp [Has, stop, start, Heap.committed, Heap.withReserve])).symm

/-- The bytes of a live block are not free. -/
theorem Divided.apart {b r : FreeRange} (h : l.Divided) (hb : b ∈ l.live) (hr : r ∈ l.heap.free) :
    r.Apart b := by
  have hpair := (tiles_of_times h.times).apart
  exact (List.pairwise_append.1 hpair).2.2 r hr b hb

theorem Divided.inside {b : FreeRange} (h : l.Divided) (hb : b ∈ l.live) :
    b.stop ≤ l.heap.committed := by
  have hpos := h.positive b hb
  have hlast : b.stop - 1 < l.heap.committed := by
    refine ((tiles_of_times h.times).whole _).2 ⟨b, List.mem_append_right _ hb, ?_⟩
    simp only [Has, stop]
    omega
  omega

/-- A live block is taken back. -/
theorem Divided.dealloc_live {b : FreeRange} (h : l.Divided) (hb : b ∈ l.live) :
    ∃ heap, l.heap.dealloc b = .ok heap := by
  obtain ⟨-, -, -, hbad⟩ | ⟨heap, hk, -⟩ := h.sound.dealloc b
  · exact absurd ⟨h.positive b hb, h.inside hb, fun r hr => h.apart hb hr⟩ hbad
  · exact ⟨heap, hk⟩

theorem Divided.serve (h : l.Divided) (call : HeapCall)
    (hfreed : ∀ block ∈ call.freed, block ∈ l.live) : (l.serve call).Divided := by
  have hsound := sound_serve h.sound call
  cases call with
  | alloc size =>
    cases ha : l.heap.alloc size with
    | error => exact (serve_alloc_error ha).symm ▸ h
    | ok r =>
      obtain ⟨block, heap⟩ := r
      obtain ⟨-, he, hpos, -, hnew⟩ := h.sound.alloc ha
      rw [serve_alloc ha] at hsound ⊢
      refine ⟨hsound, ?_, fun i => ?_⟩
      · intro b hb
        rcases List.mem_cons.1 hb with rfl | hb
        · exact hpos
        · exact h.positive b hb
      · have hold := h.times i
        have hall : FreeRange.times i [⟨0, heap.committed⟩] =
            FreeRange.times i [⟨0, l.heap.committed⟩] +
              FreeRange.times i [⟨l.heap.committed, heap.committed - l.heap.committed⟩] := by
          rw [← times_touching (by simp [stop]) i]
          simp only [Nat.add_sub_cancel' he.committed]
        have := hnew i
        rw [times_append] at hold ⊢
        rw [times_cons]
        dsimp only
        omega
  | dealloc block =>
    have hb := hfreed block (List.mem_singleton_self block)
    obtain ⟨_, he, -⟩ | ⟨heap, hk, -, hmemory, -, hnew⟩ := h.sound.dealloc block
    · exact (serve_dealloc_error he).symm ▸ h
    · rw [serve_dealloc hk] at hsound ⊢
      refine ⟨hsound, fun b hb => h.positive b (List.mem_of_mem_erase hb), fun i => ?_⟩
      have hold := h.times i
      have := hnew i
      have := times_erase hb i
      rw [times_append] at hold ⊢
      simp only [Heap.committed, hmemory] at hold ⊢
      omega
  | clear =>
    refine ⟨hsound, List.forall_mem_nil _, fun i => ?_⟩
    change FreeRange.times i (l.heap.clear.free ++ []) = _
    rw [List.append_nil, h.sound.clear.2]
    rfl
  | store block bytes =>
    obtain ⟨hfree, -, hcommitted⟩ := l.heap.store_free block bytes
    refine ⟨hsound, h.positive, fun i => ?_⟩
    change FreeRange.times i ((l.heap.store block bytes).free ++ l.live) =
      FreeRange.times i [⟨0, (l.heap.store block bytes).committed⟩]
    rw [hfree, hcommitted]
    exact h.times i

theorem Divided.run (h : l.Divided) {calls : List HeapCall} (hc : l.Honest calls) :
    (l.run calls).Divided := by
  induction calls generalizing l with
  | nil => exact h
  | cons call calls ih => exact ih (h.serve call hc.1) hc.2

/-- With no live block all that is committed is one free range. -/
theorem Divided.free_eq (h : l.Divided) (hl : l.live = []) (hpos : 0 < l.heap.committed) :
    l.heap.free = [⟨0, l.heap.committed⟩] := by
  have htiles := tiles_of_times h.times
  rw [hl, List.append_nil] at htiles
  have htidy := h.sound.tidy
  obtain ⟨r, hr, hzero⟩ := (htiles.whole 0).1 hpos
  obtain ⟨before, after, hfree⟩ := List.append_of_mem hr
  rw [hfree] at htidy htiles
  have hbefore : before = [] := by
    refine List.eq_nil_iff_forall_not_mem.2 fun x hx => ?_
    have := htidy.gap_left x hx
    have := hzero.1
    omega
  subst hbefore
  have hin := htidy.inside r (by simp)
  -- The byte behind the first range is in no range, so it is not committed.
  have hend : r.stop = l.heap.committed := by
    refine Nat.le_antisymm hin (Nat.le_of_not_lt fun hlt => ?_)
    obtain ⟨y, hy, hhas⟩ := (htiles.whole r.stop).1 hlt
    rcases List.mem_cons.1 hy with rfl | hy
    · exact absurd hhas.2 (Nat.lt_irrefl _)
    · have := htidy.gap_right y hy
      have := hhas.1
      omega
  have hafter : after = [] := by
    refine List.eq_nil_iff_forall_not_mem.2 fun y hy => ?_
    have := htidy.gap_right y hy
    have := htidy.inside y (by simp [hy])
    simp only [stop] at *
    omega
  subst hafter
  obtain ⟨o, n⟩ := r
  have hoffset : o = 0 := Nat.le_zero.1 hzero.1
  subst hoffset
  rw [hfree]
  simp only [stop, Nat.zero_add] at hend
  rw [List.nil_append, ← hend]

/-- What is guaranteed while only live blocks are given back. -/
structure Guarantees (l : Lent) : Prop where
  /-- Live blocks and free ranges divide what is committed. -/
  tiles : Tiles (l.heap.free ++ l.live) l.heap.committed
  accepts : ∀ b ∈ l.live, ∃ heap, l.heap.dealloc b = .ok heap
  separate : ∀ b ∈ l.live, ∀ c ∈ l.live, b ≠ c → ∀ bytes,
    (l.heap.store b bytes).bytes c = l.heap.bytes c
  /-- A block with a byte that is not lent, as all of one that was freed, is not taken. -/
  rejects : ∀ b i, b.Has i → (∀ c ∈ l.live, ¬c.Has i) →
    l.heap.dealloc b = .error (.invalidFree b.offset)
  whole : l.live = [] → l.heap.free =
    if l.heap.committed = 0 then [] else [⟨0, l.heap.committed⟩]

theorem Divided.guarantees (h : l.Divided) : l.Guarantees where
  tiles := tiles_of_times h.times
  accepts _ hb := h.dealloc_live hb
  separate b hb c hc hne bytes := by
    have hpair := (List.pairwise_append.1 (tiles_of_times h.times).apart).2.1
    exact Heap.bytes_store (hpair.forall hb hc hne) bytes
  rejects b i hi hfree := by
    obtain ⟨_, he, rfl, -⟩ | ⟨-, -, -, -, ⟨-, hin, hapart⟩, -⟩ := h.sound.dealloc b
    · exact he
    · have hlt : i < l.heap.committed := Nat.lt_of_lt_of_le hi.2 hin
      obtain ⟨r, hr, hri⟩ := ((tiles_of_times h.times).whole i).1 hlt
      rcases List.mem_append.1 hr with hr | hr
      · exact absurd ⟨hri, hi⟩ (hapart r hr i)
      · exact absurd hri (hfree r hr)
  whole hl := by
    split
    next hzero =>
      refine List.eq_nil_iff_forall_not_mem.2 fun r hr => ?_
      have hpos := h.sound.tidy.positive r hr
      have hin := h.sound.tidy.inside r hr
      simp only [stop] at hin
      omega
    next hpos => exact h.free_eq hl (Nat.pos_of_ne_zero hpos)

/-- A heap under any calls: its free ranges stay tidy, a refused call changes nothing, and while
only live blocks are given back the committed bytes are divided among these and the free ranges. -/
theorem run_guarantees (reserve : Nat) (calls : List HeapCall) :
    let l := (start reserve).run calls
    l.heap.Sound ∧
    (∀ size e, size ≤ l.heap.reserve → l.heap.alloc size = .error e →
      (∃ used, e = .cause (.outOfReserve used l.heap.committed l.heap.reserve)) ∧
        l.serve (.alloc size) = l) ∧
    (∀ block e, l.heap.dealloc block = .error e →
      e = .invalidFree block.offset ∧ l.serve (.dealloc block) = l) ∧
    ((start reserve).Honest calls → l.Guarantees) := by
  have hsound := sound_run (Heap.sound_withReserve reserve) (l := start reserve) calls
  refine ⟨hsound, fun size e hsize he => ⟨⟨_, hsound.alloc_error hsize he⟩, serve_alloc_error he⟩,
    fun block e he => ⟨?_, serve_dealloc_error he⟩, fun hc => ?_⟩
  · obtain ⟨_, he', rfl, -⟩ | ⟨_, hk, -⟩ := hsound.dealloc block
    · exact Except.error.inj (he.symm.trans he')
    · exact absurd (hk.symm.trans he) nofun
  · exact ((divided_start reserve).run hc).guarantees

theorem guarantees_after_release :
    let l := (start 20).run [.alloc 5, .alloc 3, .dealloc ⟨0, 8⟩]
    l.heap.free = [⟨0, 8⟩, ⟨16, 4⟩] ∧ l.live = [⟨8, 8⟩] ∧ l.serve (.alloc 9) = l ∧
      l.serve (.dealloc ⟨0, 8⟩) = l ∧ l.Guarantees := by
  have h := run_guarantees 20 [.alloc 5, .alloc 3, .dealloc ⟨0, 8⟩]
  exact ⟨by decide +kernel, by decide +kernel,
    (h.2.1 9 (.cause (.outOfReserve 16 20 20)) (by decide +kernel) (by decide +kernel)).2,
    (h.2.2.1 ⟨0, 8⟩ (.invalidFree 0) (by decide +kernel)).2, h.2.2.2 (by decide +kernel)⟩

/-- A request of any size, in any state: if the sizes computed for it are 64-bit numbers, as they
are for all but those near the last such number, a block inside the committed region is handed out
or the request is refused for want of room and changes nothing; else one of them overflows, though
the reservation would have refused the request. -/
theorem alloc_outcome (reserve : Nat) (calls : List HeapCall) (size : Nat) :
    let l := (start reserve).run calls
    (l.heap.Fits size →
      (∃ b heap, l.heap.alloc size = .ok (b, heap) ∧ max size 1 ≤ b.size ∧
        b.stop ≤ heap.committed) ∨
      l.heap.Lacks size ∧ l.heap.alloc size = .error
        (.cause (.outOfReserve (Heap.blockSize size) l.heap.committed l.heap.reserve)) ∧
        l.serve (.alloc size) = l) ∧
    (¬l.heap.Fits size → l.heap.reserve < size ∧
      ∃ verb, l.heap.alloc size = .error (.fault (.overflow verb))) ∧
    (size + heapAlign + commitChunk + maxOffset < sizeBound → l.heap.Fits size) ∧
    ((∀ r ∈ l.heap.free, r.size < Heap.blockSize size) → l.heap.tail < Heap.blockSize size) := by
  intro l
  have hsound : l.heap.Sound :=
    sound_run (Heap.sound_withReserve reserve) (l := start reserve) calls
  refine ⟨fun hfits => ?_, fun hexceeds => ⟨?_, hsound.alloc_of_not_fits hexceeds⟩, hsound.fits,
    fun hsmall => Heap.tail_lt hsmall (Heap.blockSize_pos size)⟩
  · obtain hserved | ⟨hlacks, hrefused⟩ := hsound.alloc_of_fits hfits
    · exact .inl hserved
    · exact .inr ⟨hlacks, hrefused, serve_alloc_error hrefused⟩
  · exact Nat.lt_of_not_le fun hle => hexceeds (hsound.fits_of_le_reserve hle)

example : (Heap.withReserve 16384).alloc 18446744073709551608 =
    .error (.fault (.overflow "multiply")) := by decide +kernel

end Lent

end FrontEnd
