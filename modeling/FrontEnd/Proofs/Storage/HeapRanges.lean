import FrontEnd.Storage.Heap
import Mathlib.Data.List.Basic

/-!
The free ranges of a heap: sorted, apart from each other, and with the bytes that cutting a block
off and joining a freed block in leave them.
-/

namespace FrontEnd

namespace FreeRange

variable {r s : FreeRange} {ranges before after : List FreeRange} {i size limit : Nat}

/-- A byte lies in the range. -/
def Has (r : FreeRange) (i : Nat) : Prop := r.offset ≤ i ∧ i < r.stop

instance (r : FreeRange) (i : Nat) : Decidable (r.Has i) :=
  inferInstanceAs (Decidable (_ ∧ _))

/-- How many of the ranges have a byte. -/
def times (i : Nat) (ranges : List FreeRange) : Nat := ranges.countP fun r => decide (r.Has i)

@[simp] theorem times_nil (i : Nat) : times i [] = 0 := rfl

theorem times_cons (i : Nat) (r : FreeRange) (ranges : List FreeRange) :
    times i (r :: ranges) = times i [r] + times i ranges := by
  rw [Nat.add_comm]
  simp only [times, List.countP_cons, List.countP_nil, Nat.zero_add]

@[simp] theorem times_append (i : Nat) (before after : List FreeRange) :
    times i (before ++ after) = times i before + times i after :=
  List.countP_append

theorem times_of_has (h : r.Has i) : times i [r] = 1 := by simp [times, h]

theorem times_of_not_has (h : ¬r.Has i) : times i [r] = 0 := by simp [times, h]

theorem times_pos : 0 < times i ranges ↔ ∃ r ∈ ranges, r.Has i := by
  simp [times, List.countP_pos_iff]

/-- Two neighbours that touch have the bytes of one range. -/
theorem times_touching (h : r.stop = s.offset) (i : Nat) :
    times i [⟨r.offset, r.size + s.size⟩] = times i [r] + times i [s] := by
  have hwhole : Has ⟨r.offset, r.size + s.size⟩ i ↔ r.Has i ∨ s.Has i := by
    simp only [Has, stop] at h ⊢
    omega
  by_cases hleft : r.Has i
  · have hright : ¬s.Has i := by
      simp only [Has, stop] at h hleft ⊢
      omega
    rw [times_of_has (hwhole.2 (.inl hleft)), times_of_has hleft, times_of_not_has hright]
  · by_cases hright : s.Has i
    · rw [times_of_has (hwhole.2 (.inr hright)), times_of_not_has hleft, times_of_has hright]
    · rw [times_of_not_has fun h => (hwhole.1 h).elim hleft hright, times_of_not_has hleft,
        times_of_not_has hright]

/-! ### Order -/

/-- Sorted by offset, positive, inside the first `limit` bytes, and with a gap between any two. -/
structure Tidy (ranges : List FreeRange) (limit : Nat) : Prop where
  ordered : ranges.Pairwise fun r s => r.stop < s.offset
  positive : ∀ r ∈ ranges, 0 < r.size
  inside : ∀ r ∈ ranges, r.stop ≤ limit

theorem tidy_nil (limit : Nat) : Tidy [] limit := ⟨.nil, nofun, nofun⟩

theorem Tidy.mono {more : Nat} (h : Tidy ranges limit) (hm : limit ≤ more) : Tidy ranges more :=
  { h with inside := fun r hr => Nat.le_trans (h.inside r hr) hm }

/-- A part of the ranges with another one between them. -/
theorem tidy_insert (h : Tidy (before ++ after) limit) (hpos : 0 < r.size) (hin : r.stop ≤ limit)
    (hb : ∀ x ∈ before, x.stop < r.offset) (ha : ∀ y ∈ after, r.stop < y.offset) :
    Tidy (before ++ r :: after) limit := by
  have hall (P : FreeRange → Prop) (hr : P r) (ho : ∀ x ∈ before ++ after, P x) :
      ∀ x ∈ before ++ r :: after, P x := by
    intro x hx
    rcases List.mem_append.1 hx with hx | hx
    · exact ho x (List.mem_append_left _ hx)
    · rcases List.mem_cons.1 hx with rfl | hx
      · exact hr
      · exact ho x (List.mem_append_right _ hx)
  obtain ⟨hbefore, hafter, hcross⟩ := List.pairwise_append.1 h.ordered
  refine ⟨List.pairwise_append.2 ⟨hbefore, List.pairwise_cons.2 ⟨ha, hafter⟩, ?_⟩,
    hall _ hpos h.positive, hall _ hin h.inside⟩
  intro x hx y hy
  rcases List.mem_cons.1 hy with rfl | hy
  · exact hb x hx
  · exact hcross x hx y hy

theorem Tidy.sublist (h : Tidy ranges limit) (hs : after.Sublist ranges) : Tidy after limit :=
  ⟨h.ordered.sublist hs, fun r hr => h.positive r (hs.subset hr),
    fun r hr => h.inside r (hs.subset hr)⟩

theorem Tidy.gap_left (h : Tidy (before ++ r :: after) limit) : ∀ x ∈ before, x.stop < r.offset :=
  fun x hx => (List.pairwise_append.1 h.ordered).2.2 x hx r (by simp)

theorem Tidy.gap_right (h : Tidy (before ++ r :: after) limit) : ∀ y ∈ after, r.stop < y.offset :=
  (List.pairwise_cons.1 (List.pairwise_append.1 h.ordered).2.1).1

end FreeRange

open FreeRange

namespace Heap

variable {r b : FreeRange} {free rest before after : List FreeRange} {i size limit offset : Nat}

/-! ### Cutting a block off -/

/-- The block is the front of the first range that is large enough. -/
theorem carve_eq_some : carve size free = some (offset, rest) ↔
    ∃ before r after, free = before ++ r :: after ∧ (∀ x ∈ before, x.size < size) ∧
      size ≤ r.size ∧ offset = r.offset ∧ rest = before ++
        if r.size = size then after else ⟨r.offset + size, r.size - size⟩ :: after := by
  induction free generalizing rest with
  | nil => simp [carve]
  | cons x free ih =>
    unfold carve
    split
    next hsize =>
      constructor
      · intro h
        simp only [Option.some.injEq, Prod.mk.injEq] at h
        exact ⟨[], x, free, rfl, nofun, hsize, h.1.symm, h.2.symm⟩
      · rintro ⟨before, r, after, hfree, hsmall, hle, rfl, rfl⟩
        cases before with
        | nil =>
          obtain ⟨rfl, rfl⟩ := List.cons.inj hfree
          rfl
        | cons y before =>
          obtain ⟨rfl, -⟩ := List.cons.inj hfree
          have := hsmall x (by simp)
          omega
    next hsize =>
      simp only [Option.map_eq_some_iff, Prod.exists, Prod.mk.injEq]
      constructor
      · rintro ⟨o, rest', hcarve, rfl, rfl⟩
        obtain ⟨before, r, after, rfl, hsmall, hle, rfl, rfl⟩ := ih.1 hcarve
        refine ⟨x :: before, r, after, rfl, ?_, hle, rfl, rfl⟩
        intro y hy
        rcases List.mem_cons.1 hy with rfl | hy
        · omega
        · exact hsmall y hy
      · rintro ⟨before, r, after, hfree, hsmall, hle, rfl, rfl⟩
        cases before with
        | nil =>
          obtain ⟨rfl, rfl⟩ := List.cons.inj hfree
          omega
        | cons y before =>
          obtain ⟨rfl, rfl⟩ := List.cons.inj hfree
          exact ⟨r.offset, _, ih.2 ⟨before, r, after, rfl,
            fun z hz => hsmall z (by simp [hz]), hle, rfl, rfl⟩, rfl, rfl⟩

theorem carve_eq_none : carve size free = none ↔ ∀ r ∈ free, r.size < size := by
  induction free with
  | nil => simp [carve]
  | cons x free ih =>
    unfold carve
    split
    next hsize =>
      simp only [reduceCtorEq, List.mem_cons, forall_eq_or_imp, false_iff, not_and]
      intro hlt
      omega
    next hsize => simp [ih, Nat.lt_of_not_le hsize]

/-- The bytes of the block are no longer free, all others are as before. -/
theorem times_carve (h : carve size free = some (offset, rest)) (i : Nat) :
    times i free = times i [⟨offset, size⟩] + times i rest := by
  obtain ⟨before, r, after, rfl, -, hle, rfl, rfl⟩ := carve_eq_some.1 h
  have hr := times_cons i r after
  rw [times_append, times_append]
  split
  next heq =>
    subst heq
    change _ = times i [r] + _
    omega
  next =>
    have hparts : times i [r] =
        times i [⟨r.offset, size⟩] + times i [⟨r.offset + size, r.size - size⟩] := by
      rw [← times_touching rfl i]
      simp only [Nat.add_sub_cancel' hle]
    have := times_cons i ⟨r.offset + size, r.size - size⟩ after
    omega

theorem tidy_carve (h : carve size free = some (offset, rest)) (hpos : 0 < size)
    (ht : Tidy free limit) : Tidy rest limit ∧ offset + size ≤ limit := by
  obtain ⟨before, r, after, rfl, -, hle, rfl, rfl⟩ := carve_eq_some.1 h
  have hin := ht.inside r (by simp)
  have hrest : Tidy (before ++ after) limit :=
    ht.sublist ((List.Sublist.refl _).append (List.sublist_cons_self r after))
  simp only [stop] at hin
  refine ⟨?_, by omega⟩
  split
  next => exact hrest
  next hne =>
    refine tidy_insert hrest ?_ ?_ (fun x hx => ?_) fun y hy => ?_
    · dsimp only
      omega
    · dsimp only [stop]
      omega
    · have := ht.gap_left x hx
      dsimp only
      omega
    · have := ht.gap_right y hy
      dsimp only [stop] at this ⊢
      omega

/-! ### Joining a block in -/

/-- A range with the one after it, where they touch. -/
def joinAfter (r : FreeRange) : List FreeRange → FreeRange × List FreeRange
  | next :: rest =>
    if r.stop = next.offset then (⟨r.offset, r.size + next.size⟩, rest) else (r, next :: rest)
  | [] => (r, [])

/-- A range with the one before it, where they touch. -/
def joinBefore (before : List FreeRange) (r : FreeRange) (after : List FreeRange) :
    List FreeRange :=
  match before.getLast? with
  | some last =>
    if last.stop = r.offset then before.dropLast ++ ⟨last.offset, last.size + r.size⟩ :: after
    else before ++ r :: after
  | none => r :: after

theorem join_eq (before : List FreeRange) (r : FreeRange) (after : List FreeRange) :
    join before r after = joinBefore before (joinAfter r after).1 (joinAfter r after).2 := by
  cases after <;> rfl

theorem times_joinAfter (r : FreeRange) (after : List FreeRange) (i : Nat) :
    times i ((joinAfter r after).1 :: (joinAfter r after).2) = times i (r :: after) := by
  cases after with
  | nil => rfl
  | cons next after =>
    by_cases htouch : r.stop = next.offset
    · simp only [joinAfter, if_pos htouch]
      have := times_touching htouch i
      have := times_cons i r (next :: after)
      have := times_cons i next after
      have := times_cons i ⟨r.offset, r.size + next.size⟩ after
      omega
    · simp only [joinAfter, if_neg htouch]

theorem times_joinBefore (before : List FreeRange) (r : FreeRange) (after : List FreeRange)
    (i : Nat) : times i (joinBefore before r after) = times i (before ++ r :: after) := by
  unfold joinBefore
  cases hl : before.getLast? with
  | none => rw [List.getLast?_eq_none_iff.1 hl, List.nil_append]
  | some last =>
    obtain ⟨front, rfl⟩ := List.getLast?_eq_some_iff.1 hl
    by_cases htouch : last.stop = r.offset
    · simp only [if_pos htouch, List.dropLast_concat, times_append]
      have := times_touching htouch i
      have := times_cons i ⟨last.offset, last.size + r.size⟩ after
      have := times_cons i r after
      omega
    · simp only [if_neg htouch]

/-- No byte gets lost or comes in twice. -/
theorem times_join (before : List FreeRange) (r : FreeRange) (after : List FreeRange) (i : Nat) :
    times i (join before r after) = times i (before ++ r :: after) := by
  rw [join_eq, times_joinBefore, times_append, times_joinAfter, times_append]

theorem tidy_joinBefore (h : Tidy (before ++ after) limit) (hpos : 0 < r.size)
    (hin : r.stop ≤ limit) (hb : ∀ x ∈ before, x.stop ≤ r.offset)
    (ha : ∀ y ∈ after, r.stop < y.offset) : Tidy (joinBefore before r after) limit := by
  unfold joinBefore
  cases hl : before.getLast? with
  | none =>
    rw [List.getLast?_eq_none_iff.1 hl] at h
    have hnil : ∀ x ∈ ([] : List FreeRange), x.stop < r.offset := nofun
    exact tidy_insert h hpos hin hnil ha
  | some last =>
    obtain ⟨front, rfl⟩ := List.getLast?_eq_some_iff.1 hl
    rw [List.append_assoc, List.singleton_append] at h
    by_cases htouch : last.stop = r.offset
    · have hrest : Tidy (front ++ after) limit :=
        h.sublist ((List.Sublist.refl _).append (List.sublist_cons_self _ after))
      have hstop : FreeRange.stop ⟨last.offset, last.size + r.size⟩ = r.stop := by
        simp only [stop] at htouch ⊢
        omega
      simp only [if_pos htouch, List.dropLast_concat]
      exact tidy_insert hrest (Nat.add_pos_right _ hpos) (hstop ▸ hin) h.gap_left (hstop ▸ ha)
    · simp only [if_neg htouch]
      refine tidy_insert (by rwa [List.append_assoc]) hpos hin (fun x hx => ?_) ha
      have hlast : last.stop < r.offset := Nat.lt_of_le_of_ne (hb last (by simp)) htouch
      rcases List.mem_append.1 hx with hx | hx
      · have := h.gap_left x hx
        simp only [stop] at this hlast ⊢
        omega
      · exact List.mem_singleton.1 hx ▸ hlast

/-- A range between its neighbours is joined with those that it touches. -/
theorem tidy_join (h : Tidy (before ++ after) limit) (hpos : 0 < r.size) (hin : r.stop ≤ limit)
    (hb : ∀ x ∈ before, x.stop ≤ r.offset) (ha : ∀ y ∈ after, r.stop ≤ y.offset) :
    Tidy (join before r after) limit := by
  rw [join_eq]
  cases after with
  | nil => exact tidy_joinBefore h hpos hin hb nofun
  | cons next after =>
    by_cases htouch : r.stop = next.offset
    · have hrest : Tidy (before ++ after) limit :=
        h.sublist ((List.Sublist.refl _).append (List.sublist_cons_self next after))
      have hstop : FreeRange.stop ⟨r.offset, r.size + next.size⟩ = next.stop := by
        simp only [stop] at htouch ⊢
        omega
      simp only [joinAfter, if_pos htouch]
      exact tidy_joinBefore hrest (Nat.add_pos_left hpos _) (hstop ▸ h.inside next (by simp)) hb
        (hstop ▸ h.gap_right)
    · simp only [joinAfter, if_neg htouch]
      have hnext : r.stop < next.offset := Nat.lt_of_le_of_ne (ha next (by simp)) htouch
      refine tidy_joinBefore h hpos hin hb fun y hy => ?_
      rcases List.mem_cons.1 hy with rfl | hy
      · exact hnext
      · have := h.gap_right y hy
        simp only [stop] at this hnext ⊢
        omega

/-- The last range takes in the new one behind it, with the old one where that touches. -/
theorem exists_mem_join_nil (free : List FreeRange) (r : FreeRange) :
    ∃ x ∈ join free r [], x.size = r.size + match free.getLast? with
      | some last => if last.stop = r.offset then last.size else 0
      | none => 0 := by
  rw [join_eq]
  dsimp only [joinAfter, joinBefore]
  split
  next last hl =>
    split
    · exact ⟨⟨last.offset, last.size + r.size⟩, by simp, Nat.add_comm ..⟩
    · exact ⟨r, by simp, rfl⟩
  next => exact ⟨r, by simp, rfl⟩

end Heap

end FrontEnd
