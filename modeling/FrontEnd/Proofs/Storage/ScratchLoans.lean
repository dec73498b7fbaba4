import FrontEnd.Proofs.Storage.ArenaDiscipline
import FrontEnd.Storage.Scratch
import Mathlib.Data.List.Induction
import Mathlib.Data.List.ReduceOption
import Mathlib.Order.Bounds.Defs

/-!
Whatever is taken from a scratch pool, written to and given back, and in whatever order: no arena
is lent twice at a time, one that comes back is rewound before it is lent again, and no more are
made than were ever needed at once.
-/

namespace FrontEnd

/-- A lent arena, with the index under which it goes back. -/
structure Guard where
  index : Nat
  arena : Arena

/-- What the users of a pool do. A guard is called by its place in the order of the loans. -/
inductive ScratchCall
  | get
  | drop (guard : Nat)
  | use (guard : Nat) (call : ArenaCall)

/-- What a call asks of the arena of one guard. -/
def ScratchCall.on (n : Nat) : ScratchCall → Option ArenaCall
  | .use m call => if m = n then some call else none
  | _ => none

namespace Arena

/-- A sound arena with what a pool reserves for each of its own. -/
structure Suits (reserve : Nat) (a : Arena) : Prop where
  sound : a.Sound
  reserve_eq : a.reserve = min reserve maxOffset

theorem suits_withReserve (reserve : Nat) : (withReserve reserve).Suits reserve :=
  ⟨sound_withReserve reserve, rfl⟩

theorem Suits.serve {reserve : Nat} {a : Arena} (h : a.Suits reserve) (call : ArenaCall) :
    (a.serve call).Suits reserve :=
  ⟨(h.sound.serve call).sound, (h.sound.serve call).reserve.trans h.reserve_eq⟩

theorem Suits.clear {reserve : Nat} {a : Arena} (h : a.Suits reserve) : a.clear.Suits reserve :=
  h.serve .clear

end Arena

namespace ScratchPool

variable {p : ScratchPool} {index : Nat} {free : List Nat}

/-- The arena that was returned last is lent; the others stay where they are. -/
theorem acquire_recycled (h : p.free = index :: free) : ∃ a q, p.acquire = (index, a, q) ∧
    p.slots[index]? = some a ∧ q.free = free ∧ q.reserve = p.reserve ∧ q.size = p.size ∧
    ∀ i ≠ index, q.slots[i]? = p.slots[i]? := by
  have hlt : index < p.slots.size := p.free_lt index (h ▸ List.mem_cons_self)
  unfold acquire
  split
  next i rest hfree =>
    cases hfree.symm.trans h
    refine ⟨_, _, rfl, Array.getElem?_eq_getElem hlt, rfl, rfl, Array.size_set hlt, ?_⟩
    exact fun i hne => Array.getElem?_set_ne hlt hne.symm
  next hfree => cases hfree.symm.trans h

theorem acquire_made (h : p.free = []) : ∃ q, p.acquire = (p.size, .withReserve p.reserve, q) ∧
    q.free = [] ∧ q.reserve = p.reserve ∧ q.size = p.size + 1 := by
  unfold acquire
  split
  next i rest hfree => cases hfree.symm.trans h
  next => exact ⟨_, rfl, rfl, rfl, Array.size_push ..⟩

theorem release_of_lt (h : index < p.size) (a : Arena) : ∃ q, p.release index a = q ∧
    q.free = index :: p.free ∧ q.reserve = p.reserve ∧ q.size = p.size ∧
    q.slots[index]? = some a.clear ∧ ∀ i ≠ index, q.slots[i]? = p.slots[i]? := by
  have hlt : index < p.slots.size := h
  rw [release, dif_pos hlt]
  refine ⟨_, rfl, rfl, rfl, Array.size_set hlt, Array.getElem?_set_self hlt, ?_⟩
  exact fun i hne => Array.getElem?_set_ne hlt hne.symm

end ScratchPool

/-- A pool with the guards that were taken from it, in order; none where one was dropped. -/
structure Loans where
  pool : ScratchPool
  guards : List (Option Guard)

namespace Loans

open scoped List

def start (reserve : Nat) : Loans := ⟨.withReserve reserve, []⟩

/-- The guard of that place, unless it was dropped. -/
def guard? (s : Loans) (n : Nat) : Option Guard := s.guards[n]?.join

def live (s : Loans) : List Guard := s.guards.reduceOption

/-- Indices of the arenas that are lent. -/
def lent (s : Loans) : List Nat := s.live.map Guard.index

/-- The state after a call; nothing is done with a guard that was dropped. -/
def serve (s : Loans) : ScratchCall → Loans
  | .get =>
    let (index, arena, pool) := s.pool.acquire
    ⟨pool, s.guards ++ [some ⟨index, arena⟩]⟩
  | .drop n =>
    match s.guard? n with
    | some g => ⟨s.pool.release g.index g.arena, s.guards.set n none⟩
    | none => s
  | .use n call =>
    match s.guard? n with
    | some g => { s with guards := s.guards.set n (some { g with arena := g.arena.serve call }) }
    | none => s

def run (s : Loans) (calls : List ScratchCall) : Loans := calls.foldl serve s

variable {s : Loans} {g : Guard} {n : Nat}

theorem run_concat (s : Loans) (calls : List ScratchCall) (call : ScratchCall) :
    s.run (calls ++ [call]) = (s.run calls).serve call := List.foldl_concat ..

/-! ### Guards -/

theorem guard?_eq_some : s.guard? n = some g ↔ s.guards[n]? = some (some g) :=
  Option.join_eq_some_iff

/-- A guard that is dropped, or changed, leaves the others as they are. -/
theorem live_perm (h : s.guard? n = some g) : ∃ rest, s.live.Perm (g :: rest) ∧
    ∀ pool new, (Loans.mk pool (s.guards.set n new)).live.Perm (new.toList ++ rest) := by
  obtain ⟨hlt, hget⟩ := List.getElem?_eq_some_iff.1 (guard?_eq_some.1 h)
  have hsplit : s.guards = s.guards.take n ++ some g :: s.guards.drop (n + 1) := by
    rw [← hget, List.getElem_cons_drop, List.take_append_drop]
  refine ⟨(s.guards.take n).reduceOption ++ (s.guards.drop (n + 1)).reduceOption, ?_, ?_⟩
  · rw [live]
    conv_lhs => rw [hsplit]
    rw [List.reduceOption_append, List.reduceOption_cons_of_some]
    exact List.perm_middle
  · intro pool new
    rw [live, List.set_eq_take_append_cons_drop, if_pos hlt, List.reduceOption_append]
    cases new with
    | none => rfl
    | some g' => exact List.perm_middle

theorem mem_live (h : s.guard? n = some g) : g ∈ s.live := by
  obtain ⟨rest, hperm, -⟩ := live_perm h
  exact hperm.mem_iff.2 List.mem_cons_self

/-! ### What each call keeps -/

/-- Nothing was lost, and every arena has what the pool reserves for each. -/
structure Sound (s : Loans) : Prop where
  /-- An arena ever made is at rest or lent, and not both. -/
  accounted : (s.pool.free ++ s.lent).Perm (List.range s.pool.size)
  rested : ∀ index ∈ s.pool.free, ∃ a, s.pool.slots[index]? = some a ∧ a.pos = 0 ∧
    a.Suits s.pool.reserve
  suits : ∀ g ∈ s.live, g.arena.Suits s.pool.reserve

theorem sound_start (reserve : Nat) : (start reserve).Sound where
  accounted := .nil
  rested := nofun
  suits := nofun

theorem Sound.nodup (h : s.Sound) : (s.pool.free ++ s.lent).Nodup :=
  h.accounted.nodup_iff.2 List.nodup_range

theorem Sound.length (h : s.Sound) : s.pool.free.length + s.live.length = s.pool.size := by
  simpa [lent] using h.accounted.length_eq

theorem Sound.mem_range (h : s.Sound) {index : Nat} :
    index < s.pool.size ↔ index ∈ s.pool.free ∨ index ∈ s.lent := by
  rw [← List.mem_range, ← h.accounted.mem_iff, List.mem_append]

/-- What is lent next: an arena at the start, which nobody has. -/
theorem Sound.get (h : s.Sound) : ∃ g q, s.serve .get = ⟨q, s.guards ++ [some g]⟩ ∧
    g.arena.pos = 0 ∧ g.arena.Suits s.pool.reserve ∧ q.reserve = s.pool.reserve ∧
    (q.free ++ (s.lent ++ [g.index])).Perm (List.range q.size) ∧
    q.size = max s.pool.size (s.live.length + 1) ∧
    ∀ index ∈ q.free, index ∈ s.pool.free ∧ q.slots[index]? = s.pool.slots[index]? := by
  have hlength := h.length
  have haccounted := h.accounted
  cases hfree : s.pool.free with
  | nil =>
    obtain ⟨q, hq, hfree', hreserve, hsize⟩ := ScratchPool.acquire_made hfree
    refine ⟨⟨s.pool.size, .withReserve s.pool.reserve⟩, q, by rw [serve, hq], rfl,
      Arena.suits_withReserve _, hreserve, ?_, ?_, ?_⟩
    · rw [hfree, List.nil_append] at haccounted
      rw [hfree', hsize, List.range_succ]
      exact haccounted.append_right _
    · rw [hfree, List.length_nil] at hlength
      omega
    · simp [hfree']
  | cons index free =>
    obtain ⟨a, q, hq, hslot, hfree', hreserve, hsize, hslots⟩ :=
      ScratchPool.acquire_recycled hfree
    obtain ⟨b, hb, hpos, hsuits⟩ := h.rested index (hfree ▸ List.mem_cons_self)
    cases hb.symm.trans hslot
    refine ⟨⟨_, _⟩, q, by rw [serve, hq], hpos, hsuits, hreserve, ?_, ?_, ?_⟩
    · rw [hfree, List.cons_append] at haccounted
      rw [hfree', hsize, ← List.append_assoc]
      exact (List.perm_append_singleton ..).trans haccounted
    · rw [hfree, List.length_cons] at hlength
      omega
    · intro i hi
      rw [hfree'] at hi
      have hnodup : (index :: free).Nodup := hfree ▸ (List.nodup_append.1 h.nodup).1
      have hne : i ≠ index := by
        rintro rfl
        exact (List.nodup_cons.1 hnodup).1 hi
      exact ⟨List.mem_cons_of_mem _ hi, hslots i hne⟩

/-- An arena that comes back is at the start, and is the next to be lent. -/
theorem Sound.drop (h : s.Sound) (hg : s.guard? n = some g) : ∃ q,
    s.serve (.drop n) = ⟨q, s.guards.set n none⟩ ∧ q.free = g.index :: s.pool.free ∧
    q.reserve = s.pool.reserve ∧ q.size = s.pool.size ∧ q.slots[g.index]? = some g.arena.clear ∧
    ∀ index ≠ g.index, q.slots[index]? = s.pool.slots[index]? := by
  have hlent : g.index ∈ s.lent := List.mem_map_of_mem (mem_live hg)
  have hlt : g.index < s.pool.size := h.mem_range.2 (.inr hlent)
  obtain ⟨q, hq, hpool⟩ := ScratchPool.release_of_lt hlt g.arena
  exact ⟨q, by rw [serve, hg, ← hq], hpool⟩

/-- What a call does to pool and guards that are sound. -/
structure Served (s t : Loans) : Prop where
  sound : t.Sound
  reserve : t.pool.reserve = s.pool.reserve
  /-- An arena is made only when all there are have been lent. -/
  size : t.pool.size = max s.pool.size t.live.length

theorem Sound.served (h : s.Sound) : Served s s := by
  have hlength := h.length
  exact ⟨h, rfl, by omega⟩

theorem Sound.served_get (h : s.Sound) : Served s (s.serve .get) := by
  obtain ⟨g, q, hq, hpos, hsuits, hreserve, hperm, hsize, hslots⟩ := h.get
  have hlive : (Loans.mk q (s.guards ++ [some g])).live = s.live ++ [g] := by
    rw [live, List.reduceOption_append]
    rfl
  rw [hq]
  refine ⟨⟨?_, ?_, ?_⟩, hreserve, ?_⟩
  · rw [lent, hlive, List.map_append]
    exact hperm
  · intro index hindex
    obtain ⟨hfree, hslot⟩ := hslots index hindex
    dsimp only
    rw [hslot, hreserve]
    exact h.rested index hfree
  · intro g' hg'
    dsimp only
    rw [hreserve]
    obtain hg' | hg' := List.mem_append.1 (hlive ▸ hg')
    · exact h.suits g' hg'
    · cases List.mem_singleton.1 hg'
      exact hsuits
  · rw [hlive, List.length_append]
    exact hsize

theorem Sound.served_drop (h : s.Sound) (n : Nat) : Served s (s.serve (.drop n)) := by
  have hlength := h.length
  cases hg : s.guard? n with
  | none =>
    rw [serve, hg]
    exact h.served
  | some g =>
    obtain ⟨q, hq, hfree, hreserve, hsize, hback, hslots⟩ := h.drop hg
    obtain ⟨rest, hlive, hset⟩ := live_perm hg
    have hlive' : (Loans.mk q (s.guards.set n none)).live.Perm rest := hset q none
    rw [hq]
    refine ⟨⟨?_, ?_, ?_⟩, hreserve, ?_⟩
    · dsimp only
      rw [hfree, hsize]
      calc
        g.index :: s.pool.free ++ (Loans.mk q (s.guards.set n none)).lent
        _ ~ g.index :: (s.pool.free ++ rest.map Guard.index) :=
          .cons _ ((hlive'.map _).append_left _)
        _ ~ s.pool.free ++ g.index :: rest.map Guard.index := List.perm_middle.symm
        _ ~ s.pool.free ++ s.lent := (hlive.map _).symm.append_left _
        _ ~ List.range s.pool.size := h.accounted
    · intro index hindex
      dsimp only at hindex ⊢
      rw [hreserve]
      by_cases heq : index = g.index
      · subst heq
        exact ⟨_, hback, rfl, (h.suits g (mem_live hg)).clear⟩
      · rw [hslots index heq]
        rw [hfree] at hindex
        exact h.rested index ((List.mem_cons.1 hindex).resolve_left heq)
    · intro g' hg'
      dsimp only
      rw [hreserve]
      exact h.suits g' (hlive.mem_iff.2 (List.mem_cons_of_mem g (hlive'.mem_iff.1 hg')))
    · have hrest := hlive.length_eq
      rw [List.length_cons] at hrest
      rw [hlive'.length_eq, hsize]
      omega

theorem Sound.served_use (h : s.Sound) (n : Nat) (call : ArenaCall) :
    Served s (s.serve (.use n call)) := by
  have hlength := h.length
  cases hg : s.guard? n with
  | none =>
    rw [serve, hg]
    exact h.served
  | some g =>
    let g' : Guard := { g with arena := g.arena.serve call }
    obtain ⟨rest, hlive, hset⟩ := live_perm hg
    have hlive' : (Loans.mk s.pool (s.guards.set n (some g'))).live.Perm (g' :: rest) := hset _ _
    rw [serve, hg]
    refine ⟨⟨?_, h.rested, ?_⟩, rfl, ?_⟩
    · have hlent : (Loans.mk s.pool (s.guards.set n (some g'))).lent.Perm s.lent :=
        (hlive'.map _).trans (hlive.map Guard.index).symm
      exact (hlent.append_left _).trans h.accounted
    · intro g'' hg''
      obtain rfl | hrest := List.mem_cons.1 (hlive'.mem_iff.1 hg'')
      · exact (h.suits g (mem_live hg)).serve call
      · exact h.suits g'' (hlive.mem_iff.2 (List.mem_cons_of_mem g hrest))
    · have hsame := hlive'.length_eq.trans hlive.length_eq.symm
      rw [hsame]
      exact (Nat.max_eq_left (hlength ▸ Nat.le_add_left ..)).symm

theorem Sound.serve (h : s.Sound) (call : ScratchCall) : Served s (s.serve call) := by
  cases call with
  | get => exact h.served_get
  | drop n => exact h.served_drop n
  | use n call => exact h.served_use n call

theorem Sound.run (h : s.Sound) (calls : List ScratchCall) :
    (s.run calls).Sound ∧ (s.run calls).pool.reserve = s.pool.reserve := by
  induction calls generalizing s with
  | nil => exact ⟨h, rfl⟩
  | cons call calls ih =>
    have hserved := h.serve call
    obtain ⟨hsound, hreserve⟩ := ih hserved.sound
    exact ⟨hsound, hreserve.trans hserved.reserve⟩

/-- No more arenas are made than were lent at one time. -/
theorem isGreatest_size (reserve : Nat) (calls : List ScratchCall) :
    IsGreatest {n | ∃ past, past <+: calls ∧ ((start reserve).run past).live.length = n}
      ((start reserve).run calls).pool.size := by
  induction calls using List.reverseRecOn with
  | nil =>
    refine ⟨⟨[], List.nil_prefix, rfl⟩, ?_⟩
    rintro _ ⟨past, hpast, rfl⟩
    rw [List.prefix_nil.1 hpast]
    exact Nat.le_refl 0
  | append_singleton calls call ih =>
    obtain ⟨⟨peak, hpeak, heq⟩, hbound⟩ := ih
    have hsound := ((sound_start reserve).run calls).1
    have hsize := (hsound.serve call).size
    rw [← run_concat] at hsize
    rw [hsize]
    constructor
    · obtain hle | hle := Nat.le_total ((start reserve).run calls).pool.size
        ((start reserve).run (calls ++ [call])).live.length
      · exact ⟨_, List.prefix_rfl, (Nat.max_eq_right hle).symm⟩
      · exact ⟨peak, hpeak.trans (List.prefix_append ..), heq.trans (Nat.max_eq_left hle).symm⟩
    · rintro _ ⟨past, hpast, rfl⟩
      obtain rfl | hpast := List.prefix_concat_iff.1 hpast
      · exact Nat.le_max_right ..
      · exact (hbound ⟨past, hpast, rfl⟩).trans (Nat.le_max_left ..)

/-! ### Guards apart from each other -/

theorem guard?_serve {call : ScratchCall} (h : s.guard? n = some g) (hkept : call ≠ .drop n) :
    (s.serve call).guard? n = some { g with arena := g.arena.run (call.on n).toList } := by
  have hget := guard?_eq_some.1 h
  have hlt : n < s.guards.length := (List.getElem?_eq_some_iff.1 hget).1
  refine guard?_eq_some.2 ?_
  cases call with
  | get => exact (List.getElem?_append_left hlt).trans hget
  | drop m =>
    have hne : m ≠ n := fun heq => hkept (heq ▸ rfl)
    rw [serve]
    cases hm : s.guard? m with
    | none => exact hget
    | some g' => exact (List.getElem?_set_ne hne).trans hget
  | use m call =>
    rw [serve, ScratchCall.on]
    by_cases hmn : m = n
    · subst hmn
      rw [h, if_pos rfl]
      exact List.getElem?_set_self hlt
    · rw [if_neg hmn]
      cases hm : s.guard? m with
      | none => exact hget
      | some g' => exact (List.getElem?_set_ne hmn).trans hget

/-- What becomes of an arena while it is lent is told by the calls on its own guard. -/
theorem guard?_run {calls : List ScratchCall} (h : s.guard? n = some g)
    (hkept : .drop n ∉ calls) : (s.run calls).guard? n =
      some { g with arena := g.arena.run (calls.filterMap (ScratchCall.on n)) } := by
  induction calls generalizing s g with
  | nil => exact h
  | cons call calls ih =>
    have hcall : call ≠ .drop n := fun heq => hkept (heq ▸ List.mem_cons_self)
    have hrest : .drop n ∉ calls := fun hmem => hkept (List.mem_cons_of_mem _ hmem)
    have hrun := ih (guard?_serve h hcall) hrest
    rw [List.filterMap_cons]
    cases hon : call.on n with
    | none =>
      rw [hon] at hrun
      exact hrun
    | some own =>
      rw [hon] at hrun
      exact hrun

/-- What a pool and its guards guarantee between any two calls. -/
structure Exclusive (s : Loans) : Prop where
  /-- No arena is lent twice. -/
  distinct : s.lent.Nodup
  lent_lt : ∀ index ∈ s.lent, index < s.pool.size
  /-- Those at rest are all others, each listed once. -/
  free_nodup : s.pool.free.Nodup
  mem_free : ∀ index, index ∈ s.pool.free ↔ index < s.pool.size ∧ index ∉ s.lent
  inUse : s.pool.inUse = s.live.length
  /-- The next arena is nobody else's, is at its start and has what the pool reserves. -/
  acquired : ∃ g q, s.serve .get = ⟨q, s.guards ++ [some g]⟩ ∧ g.index ∉ s.lent ∧
    g.arena.pos = 0 ∧ g.arena.reserve = min s.pool.reserve maxOffset
  /-- A guard is changed by the calls on it and by no others. -/
  apart : ∀ n g calls, s.guard? n = some g → .drop n ∉ calls →
    (s.run calls).guard? n =
      some { g with arena := g.arena.run (calls.filterMap (ScratchCall.on n)) }
  /-- An arena that came back is lent next, with the memory it had. -/
  recycled : ∀ n g, s.guard? n = some g → ((s.serve (.drop n)).serve .get).guards =
    s.guards.set n none ++ [some { g with arena := g.arena.clear }]

theorem Sound.exclusive (h : s.Sound) : s.Exclusive := by
  obtain ⟨hfree, hlent, hapart⟩ := List.nodup_append.1 h.nodup
  refine ⟨hlent, ?_, hfree, ?_, ?_, ?_, fun _ _ _ => guard?_run, ?_⟩
  · exact fun index hindex => h.mem_range.2 (.inr hindex)
  · intro index
    rw [h.mem_range]
    constructor
    · exact fun hindex => ⟨.inl hindex, fun hlent => hapart index hindex index hlent rfl⟩
    · exact fun ⟨hindex, hlent⟩ => hindex.resolve_right hlent
  · exact Nat.sub_eq_of_eq_add' h.length.symm
  · obtain ⟨g, q, hq, hpos, hsuits, -, hperm, -⟩ := h.get
    have hnew : (s.lent ++ [g.index]).Nodup :=
      (List.nodup_append.1 (hperm.nodup_iff.2 List.nodup_range)).2.1
    refine ⟨g, q, hq, fun hindex => ?_, hpos, hsuits.reserve_eq⟩
    exact (List.nodup_append.1 hnew).2.2 _ hindex _ (List.mem_singleton_self _) rfl
  · intro n g hg
    obtain ⟨q, hq, hfree, -, -, hback, -⟩ := h.drop hg
    obtain ⟨a, q', hq', hslot, -⟩ := ScratchPool.acquire_recycled hfree
    cases hslot.symm.trans hback
    rw [hq, Loans.serve, hq']

/-- A pool under any loans and returns: no arena is lent twice at a time, none that is at rest is
forgotten, each is at its start when it is lent, a guard is changed by its own calls only, and there
are as many arenas as were ever lent at one time. -/
theorem exclusive_run (reserve : Nat) (calls : List ScratchCall) :
    ((start reserve).run calls).Exclusive ∧
      ((start reserve).run calls).pool.reserve = reserve ∧
      IsGreatest {n | ∃ past, past <+: calls ∧ ((start reserve).run past).live.length = n}
        ((start reserve).run calls).pool.size := by
  obtain ⟨hsound, hreserve⟩ := (sound_start reserve).run calls
  exact ⟨hsound.exclusive, hreserve, isGreatest_size reserve calls⟩

/-- A pool may be asked for more than offsets of 32 bits can reach; its arenas stop there. -/
theorem reserve_below_request : ¬ ∀ reserve calls g q,
    ((start reserve).run calls).serve .get =
      ⟨q, ((start reserve).run calls).guards ++ [some g]⟩ → g.arena.reserve = reserve := by
  intro h
  have hreserve := h 0x100000000 [] ⟨0, .withReserve 0x100000000⟩ _ rfl
  exact absurd hreserve (by decide)

end Loans

end FrontEnd
