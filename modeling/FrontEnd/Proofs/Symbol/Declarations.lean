import FrontEnd.Proofs.Symbol.Dictionary
import FrontEnd.Symbol.Tables

/-! What declaring a name and leaving a block do to the symbol tables. -/

namespace FrontEnd

namespace OpenTable

variable {κ β : Type} [Hashable κ] [DecidableEq κ] {t : OpenTable κ β}

theorem Sound.holds (h : t.Sound) : t.Holds t.get? where
  sound := h
  stored key value := (h.get?_eq_some key value).symm

theorem Sound.get?_insert (h : t.Sound) (key : κ) (value : β) (k : κ) :
    (t.insert key value).2.get? k = if k = key then some value else t.get? k :=
  (h.holds.insert key value).2.get? k

theorem Sound.get?_erase (h : t.Sound) (key k : κ) :
    (t.erase key).2.get? k = if k = key then none else t.get? k :=
  (h.holds.erase key).2.get? k

theorem Sound.get?_modify (h : t.Sound) (key : κ) (f : β → β) (k : κ) :
    (t.modify key f).get? k = if k = key then (t.get? k).map f else t.get? k :=
  (h.holds.modify key f).get? k

theorem Sound.get?_filter (h : t.Sound) (keep : κ → β → Bool) (k : κ) :
    (t.filter keep).get? k = (t.get? k).filter (keep k) :=
  (h.holds.filter keep).get? k

theorem Sound.get?_insertAll {u : OpenTable κ β} (h : t.Sound) (hu : u.Sound) (k : κ) :
    (t.insertAll u).get? k = (u.get? k).or (t.get? k) :=
  (h.holds.insertAll hu.holds).get? k

end OpenTable

namespace FuncTable

variable {t u : FuncTable} {types : TypeTable} {key k : ScopedKey} {o p : Overload}
  {chain chain' : List Overload} {replaced : Bool}

/-- Every overload of a longer chain is the new one or an old one. -/
theorem mem_extend (h : extend types o chain = .ok (replaced, chain')) (hp : p ∈ chain') :
    p = o ∨ p ∈ chain := by
  induction chain generalizing replaced chain' with
  | nil =>
    simp only [extend, Pure.pure, Except.pure, Except.ok.injEq, Prod.mk.injEq] at h
    obtain ⟨-, rfl⟩ := h
    simpa using hp
  | cons q rest ih =>
    simp only [extend] at h
    cases hs : q.sameParams types o with
    | error f => simp [hs, Bind.bind, Except.bind] at h
    | ok same =>
      cases same with
      | true =>
        simp only [hs, Bind.bind, Except.bind, if_true, Pure.pure, Except.pure, Except.ok.injEq,
          Prod.mk.injEq] at h
        obtain ⟨-, rfl⟩ := h
        rcases List.mem_cons.1 hp with rfl | hp
        · exact .inl rfl
        · exact .inr (List.mem_cons_of_mem _ hp)
      | false =>
        cases he : extend types o rest with
        | error f => simp [hs, he, Bind.bind, Except.bind] at h
        | ok r =>
          obtain ⟨b, rest'⟩ := r
          simp only [hs, he, Bind.bind, Except.bind, Bool.false_eq_true, if_false, Pure.pure,
            Except.pure, Except.ok.injEq, Prod.mk.injEq] at h
          obtain ⟨-, rfl⟩ := h
          rcases List.mem_cons.1 hp with rfl | hp
          · exact .inr (by simp)
          · rcases ih he hp with rfl | hp
            · exact .inl rfl
            · exact .inr (List.mem_cons_of_mem _ hp)

/-- Declaring an overload changes only its key. -/
theorem declare_ok (h : t.Sound) (hd : FuncTable.declare t types key o = .ok (replaced, u)) :
    u.Sound ∧ (∀ k, k ≠ key → u.get? k = t.get? k) ∧
      ∀ k, ∀ p ∈ u.overloads k, k = key ∧ p = o ∨ p ∈ t.overloads k := by
  unfold FuncTable.declare at hd
  cases hk : t.get? key with
  | none =>
    simp only [hk, Pure.pure, Except.pure, Except.ok.injEq, Prod.mk.injEq] at hd
    obtain ⟨-, rfl⟩ := hd
    refine ⟨(h.holds.insert key [o]).2.sound, fun k hne => ?_, fun k p hp => ?_⟩
    · rw [h.get?_insert, if_neg hne]
    · unfold overloads at hp
      rw [h.get?_insert] at hp
      split at hp
      · simp_all
      · exact .inr hp
  | some chain =>
    simp only [hk] at hd
    cases he : extend types o chain with
    | error f => simp [he, Bind.bind, Except.bind] at hd
    | ok r =>
      obtain ⟨b, chain'⟩ := r
      simp only [he, Bind.bind, Except.bind, Pure.pure, Except.pure, Except.ok.injEq,
        Prod.mk.injEq] at hd
      obtain ⟨-, rfl⟩ := hd
      refine ⟨(h.holds.modify key _).sound, fun k hne => ?_, fun k p hp => ?_⟩
      · rw [h.get?_modify, if_neg hne]
      · unfold overloads at hp ⊢
        rw [h.get?_modify] at hp
        split at hp
        · subst k
          simp only [hk, Option.map_some, Option.getD_some] at hp ⊢
          rcases mem_extend he hp with rfl | hp
          · exact .inl (by simp)
          · exact .inr hp
        · exact .inr hp

end FuncTable

/-- The table with the named parameters of a function. -/
def VarTable.withParams (vars : VarTable) (depth : Nat) (params : List (TypeId × Name)) :
    VarTable :=
  params.foldl
    (fun vars (type, name) =>
      if name = .empty then vars else (OpenTable.insert vars ⟨name, depth⟩ type).2)
    vars

theorem VarTable.withParams_cons (vars : VarTable) (depth : Nat) (type : TypeId) (name : Name)
    (params : List (TypeId × Name)) : vars.withParams depth ((type, name) :: params) =
      VarTable.withParams (if name = .empty then vars else
        (OpenTable.insert vars ⟨name, depth⟩ type).2) depth params := rfl

namespace Symbols

variable {s t : Symbols} {depth limit : Nat}

structure Sound (s : Symbols) : Prop where
  vars : s.vars.Sound
  funcs : s.funcs.Sound
  types : s.types.Sound

/-- Nothing is declared deeper than `depth`. -/
structure Shallow (s : Symbols) (depth : Nat) : Prop where
  vars : ∀ key, depth < key.depth → s.vars.get? key = none
  funcs : ∀ key, depth < key.depth → s.funcs.get? key = none
  types : ∀ key, depth < key.depth → s.types.get? key = none

/-- The same is declared at all depths below `limit`. -/
structure Agree (limit : Nat) (s t : Symbols) : Prop where
  vars : ∀ key, key.depth < limit → t.vars.get? key = s.vars.get? key
  funcs : ∀ key, key.depth < limit → t.funcs.get? key = s.funcs.get? key
  types : ∀ key, key.depth < limit → t.types.get? key = s.types.get? key

theorem Agree.refl (limit : Nat) (s : Symbols) : Agree limit s s :=
  ⟨fun _ _ => rfl, fun _ _ => rfl, fun _ _ => rfl⟩

theorem Agree.trans {u : Symbols} (h : Agree limit s t) (h' : Agree limit t u) :
    Agree limit s u :=
  ⟨fun k hk => (h'.vars k hk).trans (h.vars k hk), fun k hk => (h'.funcs k hk).trans (h.funcs k hk),
    fun k hk => (h'.types k hk).trans (h.types k hk)⟩

theorem Agree.mono {m : Nat} (h : Agree limit s t) (hm : m ≤ limit) : Agree m s t :=
  ⟨fun k hk => h.vars k (by omega), fun k hk => h.funcs k (by omega),
    fun k hk => h.types k (by omega)⟩

/-- The same is declared at all depths but one. -/
structure AgreeOff (depth : Nat) (s t : Symbols) : Prop where
  vars : ∀ key, key.depth ≠ depth → t.vars.get? key = s.vars.get? key
  funcs : ∀ key, key.depth ≠ depth → t.funcs.get? key = s.funcs.get? key
  types : ∀ key, key.depth ≠ depth → t.types.get? key = s.types.get? key

theorem AgreeOff.agree (h : AgreeOff depth s t) : Agree depth s t :=
  ⟨fun k hk => h.vars k (by omega), fun k hk => h.funcs k (by omega),
    fun k hk => h.types k (by omega)⟩

theorem AgreeOff.trans {u : Symbols} (h : AgreeOff depth s t) (h' : AgreeOff depth t u) :
    AgreeOff depth s u :=
  ⟨fun k hk => (h'.vars k hk).trans (h.vars k hk), fun k hk => (h'.funcs k hk).trans (h.funcs k hk),
    fun k hk => (h'.types k hk).trans (h.types k hk)⟩

theorem AgreeOff.shallow (h : AgreeOff depth s t) (hs : s.Shallow depth) : t.Shallow depth :=
  ⟨fun k hk => (h.vars k (by omega)).trans (hs.vars k hk),
    fun k hk => (h.funcs k (by omega)).trans (hs.funcs k hk),
    fun k hk => (h.types k (by omega)).trans (hs.types k hk)⟩

theorem Shallow.mono {m : Nat} (h : s.Shallow depth) (hm : depth ≤ m) : s.Shallow m :=
  ⟨fun k hk => h.vars k (by omega), fun k hk => h.funcs k (by omega),
    fun k hk => h.types k (by omega)⟩

theorem Sound.insert_var (h : s.Sound) (name : Name) (depth : Nat) (type : TypeId) :
    Sound { s with vars := (s.vars.insert ⟨name, depth⟩ type).2 } ∧
      AgreeOff depth s { s with vars := (s.vars.insert ⟨name, depth⟩ type).2 } := by
  refine ⟨{ h with vars := (h.vars.insert _ _).1 }, fun k hk => ?_, fun _ _ => rfl, fun _ _ => rfl⟩
  rw [h.vars.get?_insert, if_neg (by rintro rfl; exact hk rfl)]

theorem Sound.withParams (h : s.Sound) (depth : Nat) (params : List (TypeId × Name)) :
    Sound { s with vars := s.vars.withParams depth params } ∧
      s.AgreeOff depth { s with vars := s.vars.withParams depth params } := by
  induction params generalizing s with
  | nil => exact ⟨h, fun _ _ => rfl, fun _ _ => rfl, fun _ _ => rfl⟩
  | cons param params ih =>
    obtain ⟨type, name⟩ := param
    rw [VarTable.withParams_cons]
    by_cases hname : name = .empty
    · rw [if_pos hname]
      exact ih h
    · rw [if_neg hname]
      obtain ⟨hs, ha⟩ := h.insert_var name depth type
      obtain ⟨hs', ha'⟩ := ih hs
      exact ⟨hs', ha.trans ha'⟩

theorem Sound.insert_type (h : s.Sound) (name : Name) (depth : Nat) (type : TypeId) :
    Sound { s with types := (s.types.insert ⟨name, depth⟩ type).2 } ∧
      AgreeOff depth s { s with types := (s.types.insert ⟨name, depth⟩ type).2 } := by
  refine ⟨{ h with types := (h.types.insert _ _).1 }, fun _ _ => rfl,
    fun _ _ => rfl, fun k hk => ?_⟩
  rw [h.types.get?_insert, if_neg (by rintro rfl; exact hk rfl)]

theorem sound_empty : empty.Sound :=
  ⟨OpenTable.sound_empty, OpenTable.sound_empty, OpenTable.sound_empty⟩

theorem shallow_empty (depth : Nat) : empty.Shallow depth :=
  ⟨fun _ _ => OpenTable.holds_empty.get? _, fun _ _ => OpenTable.holds_empty.get? _,
    fun _ _ => OpenTable.holds_empty.get? _⟩

theorem Sound.leaveDepth (h : s.Sound) (depth : Nat) : (s.leaveDepth depth).Sound :=
  ⟨(h.vars.filter _).1, (h.funcs.filter _).1, (h.types.filter _).1⟩

theorem Sound.get?_leaveDepth (h : s.Sound) (depth : Nat) (key : ScopedKey) :
    (s.leaveDepth depth).vars.get? key =
        (if key.depth = depth then none else s.vars.get? key) ∧
      (s.leaveDepth depth).funcs.get? key =
        (if key.depth = depth then none else s.funcs.get? key) ∧
      (s.leaveDepth depth).types.get? key =
        if key.depth = depth then none else s.types.get? key := by
  simp only [Symbols.leaveDepth, h.vars.get?_filter, h.funcs.get?_filter, h.types.get?_filter]
  by_cases he : key.depth = depth
  · simp [he]
  · have hkeep : (key.depth != depth) = true := by simp [he]
    have hall {α : Type} (o : Option α) : o.filter (fun _ => true) = o := by cases o <;> rfl
    simp only [he, hkeep, if_false, hall, and_self]

/-- What a block declared is gone, and the rest is as before. -/
theorem Sound.agree_leaveDepth (h : s.Sound) (depth : Nat) :
    Agree depth s (s.leaveDepth depth) := by
  refine ⟨fun key hk => ?_, fun key hk => ?_, fun key hk => ?_⟩
  all_goals
    have hne : key.depth ≠ depth := by omega
    simp [h.get?_leaveDepth, hne]

theorem Sound.shallow_leaveDepth (h : s.Sound) (hs : s.Shallow (depth + 1)) :
    (s.leaveDepth (depth + 1)).Shallow depth := by
  refine ⟨fun key hk => ?_, fun key hk => ?_, fun key hk => ?_⟩
  · rw [(h.get?_leaveDepth _ key).1]
    split
    · rfl
    · exact hs.vars key (by omega)
  · rw [(h.get?_leaveDepth _ key).2.1]
    split
    · rfl
    · exact hs.funcs key (by omega)
  · rw [(h.get?_leaveDepth _ key).2.2]
    split
    · rfl
    · exact hs.types key (by omega)

end Symbols

end FrontEnd
