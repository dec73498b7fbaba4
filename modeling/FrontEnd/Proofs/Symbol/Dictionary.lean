import FrontEnd.Proofs.Symbol.TableOperations
import Mathlib.Data.Set.Card

/-! Open tables answer as finite maps do, whatever they are asked and in whatever order. -/

namespace FrontEnd

/-- What can be asked of one table among several. -/
inductive Request (κ β : Type)
  | insert (key : κ) (value : β)
  | get (key : κ)
  | modify (key : κ) (f : β → β)
  | contains (key : κ)
  | erase (key : κ)
  | filter (keep : κ → β → Bool)
  /-- Inserts all entries of the table with number `source`. -/
  | insertAll (source : Nat)
  | clear
  /-- Appends a copy to the tables. -/
  | clone

inductive Answer (β : Type)
  | done
  | flag (b : Bool)
  | value (v : Option β)

/-- An implementation of all requests but copying. -/
structure Operations (τ κ β : Type) where
  empty : τ
  insert : τ → κ → β → Bool × τ
  get? : τ → κ → Option β
  modify : τ → κ → (β → β) → τ
  contains : τ → κ → Bool
  erase : τ → κ → Option β × τ
  filter : τ → (κ → β → Bool) → τ
  insertAll : τ → τ → τ
  clear : τ → τ

namespace Operations

variable {τ κ β : Type} (o : Operations τ κ β)

/-- The answer of one table, and the table after it. A change answers with the value it found. -/
def respond (tables : List τ) (t : τ) : Request κ β → Answer β × τ
  | .insert key value => (.flag (o.insert t key value).1, (o.insert t key value).2)
  | .get key => (.value (o.get? t key), t)
  | .modify key f => (.value (o.get? t key), o.modify t key f)
  | .contains key => (.flag (o.contains t key), t)
  | .erase key => (.value (o.erase t key).1, (o.erase t key).2)
  | .filter keep => (.done, o.filter t keep)
  | .insertAll source => (.done, o.insertAll t (tables[source]?.getD o.empty))
  | .clear => (.done, o.clear t)
  | .clone => (.done, t)

/-- Serves a request to the table with number `target`, if there is one. -/
def serve (tables : List τ) (target : Nat) (request : Request κ β) : Answer β × List τ :=
  match tables[target]? with
  | none => (.done, tables)
  | some t =>
    match request with
    | .clone => (.done, tables ++ [t])
    | request => ((o.respond tables t request).1, tables.set target (o.respond tables t request).2)

/-- Serves requests in order. -/
def run (tables : List τ) : List (Nat × Request κ β) → List (Answer β) × List τ
  | [] => ([], tables)
  | (target, request) :: rest =>
    let (answer, tables) := o.serve tables target request
    let (answers, tables) := run tables rest
    (answer :: answers, tables)

end Operations

abbrev Dictionary (κ β : Type) := κ → Option β

def Dictionary.operations (κ β : Type) [DecidableEq κ] :
    Operations (Dictionary κ β) κ β where
  empty := fun _ => none
  insert m key value := ((m key).isNone, fun k => if k = key then some value else m k)
  get? m key := m key
  modify m key f := fun k => if k = key then (m k).map f else m k
  contains m key := (m key).isSome
  erase m key := (m key, fun k => if k = key then none else m k)
  filter m keep := fun k => (m k).filter (keep k)
  insertAll m other := fun k => (other k).or (m k)
  clear _ := fun _ => none

namespace OpenTable

def operations (κ β : Type) [DecidableEq κ] [Hashable κ] :
    Operations (OpenTable κ β) κ β where
  empty := empty
  insert := insert
  get? := get?
  modify := modify
  contains := contains
  erase := erase
  filter := filter
  insertAll := insertAll
  clear := clear

variable {κ β : Type} [DecidableEq κ] [Hashable κ]

/-- The table is sound and holds the entries of the dictionary. -/
structure Holds (t : OpenTable κ β) (m : Dictionary κ β) : Prop where
  sound : t.Sound
  stored : ∀ key value, Stored t.cells key value ↔ m key = some value

/-- All that can be observed of the table is as in the dictionary. -/
structure Refines (t : OpenTable κ β) (m : Dictionary κ β) : Prop where
  sound : t.Sound
  get? : ∀ key, t.get? key = m key
  size : t.size = {key | (m key).isSome}.ncard
  isEmpty : t.size = 0 ↔ ∀ key, m key = none
  entries : ∀ key value, (key, value) ∈ t.entries ↔ m key = some value
  entries_nodup : (t.entries.map Prod.fst).Nodup
  /-- A probe ends within one turn, at the key or at an empty cell. -/
  probe_ends : ∀ key extra, probeFrom t.cells key (t.capacity + extra) (home t.capacity key) none =
    t.probe key

theorem Holds.get? {t : OpenTable κ β} {m : Dictionary κ β} (h : t.Holds m) (key : κ) :
    t.get? key = m key := by
  apply Option.ext
  intro value
  rw [h.sound.get?_eq_some, h.stored]

theorem Holds.refines {t : OpenTable κ β} {m : Dictionary κ β} (h : t.Holds m) :
    t.Refines m := by
  have hmem : ∀ key value, (key, value) ∈ t.entries ↔ m key = some value :=
    fun key value => mem_entries.trans (h.stored key value)
  have hnodup : (t.entries.map Prod.fst).Nodup :=
    List.pairwise_map.2 (pairwise_entries h.sound.distinct)
  have hkeys : {key | (m key).isSome} = ((t.entries.map Prod.fst).toFinset : Set κ) := by
    ext key
    simp [Option.isSome_iff_exists, hmem]
  have hsize : t.size = {key | (m key).isSome}.ncard := by
    rw [hkeys, Set.ncard_coe_finset, List.toFinset_card_of_nodup hnodup, List.length_map,
      length_entries, h.sound.size_eq]
  refine ⟨h.sound, h.get?, hsize, ?_, hmem, hnodup, h.sound.probeFrom_eq_probe⟩
  rw [h.sound.size_eq, ← length_entries, List.length_eq_zero_iff, List.eq_nil_iff_forall_not_mem]
  simp [hmem, Option.eq_none_iff_forall_ne_some]

/-! ### One request -/

omit [DecidableEq κ] in
theorem holds_empty : Holds (empty : OpenTable κ β) fun _ => none where
  sound := sound_empty
  stored := by simp [Stored, empty]

theorem Holds.insert {t : OpenTable κ β} {m : Dictionary κ β} (h : t.Holds m) (key : κ)
    (value : β) : (t.insert key value).1 = (m key).isNone ∧
      (t.insert key value).2.Holds fun k => if k = key then some value else m k := by
  obtain ⟨hs, hb, hst⟩ := h.sound.insert key value
  refine ⟨?_, hs, ?_⟩
  · rw [Bool.eq_iff_iff, hb]
    simp [h.stored, Option.eq_none_iff_forall_ne_some]
  · intro k v
    rw [hst, h.stored]
    by_cases hk : k = key <;> simp [hk, eq_comm]

theorem Holds.erase {t : OpenTable κ β} {m : Dictionary κ β} (h : t.Holds m) (key : κ) :
    (t.erase key).1 = m key ∧ (t.erase key).2.Holds fun k => if k = key then none else m k := by
  obtain ⟨hs, hv, hst⟩ := h.sound.erase key
  refine ⟨hv.trans (h.get? key), hs, ?_⟩
  intro k v
  rw [hst, h.stored]
  by_cases hk : k = key <;> simp [hk]

theorem Holds.modify {t : OpenTable κ β} {m : Dictionary κ β} (h : t.Holds m) (key : κ)
    (f : β → β) : (t.modify key f).Holds fun k => if k = key then (m k).map f else m k := by
  obtain ⟨hs, hst⟩ := h.sound.modify key f
  refine ⟨hs, ?_⟩
  intro k v
  rw [hst]
  by_cases hk : k = key
  · subst hk
    simp [h.stored, eq_comm]
  · simp [hk, h.stored]

omit [DecidableEq κ] in
theorem Holds.filter {t : OpenTable κ β} {m : Dictionary κ β} (h : t.Holds m)
    (keep : κ → β → Bool) : (t.filter keep).Holds fun k => (m k).filter (keep k) := by
  obtain ⟨hs, hst⟩ := h.sound.filter keep
  refine ⟨hs, ?_⟩
  intro k v
  rw [hst, h.stored, Option.filter_eq_some_iff]

theorem Holds.insertEach {entries : List (κ × β)} {t : OpenTable κ β} {m : Dictionary κ β}
    (h : t.Holds m) (hd : entries.Pairwise fun e f => e.1 ≠ f.1) :
    let u := entries.foldl (fun t (key, value) => (t.insert key value).2) t
    u.Sound ∧ ∀ k v, Stored u.cells k v ↔
      (k, v) ∈ entries ∨ (∀ e ∈ entries, e.1 ≠ k) ∧ m k = some v := by
  induction entries generalizing t m with
  | nil => simpa using ⟨h.sound, h.stored⟩
  | cons e rest ih =>
    obtain ⟨key, value⟩ := e
    rw [List.pairwise_cons] at hd
    obtain ⟨hs, hst⟩ := ih (h.insert key value).2 hd.2
    refine ⟨hs, ?_⟩
    intro k v
    refine (hst k v).trans ?_
    by_cases hk : k = key
    · subst hk
      have hrest : ∀ w, (k, w) ∉ rest := fun w hw => hd.1 (k, w) hw rfl
      have hne : ∀ e ∈ rest, e.1 ≠ k := fun e he => (hd.1 e he).symm
      simp only [List.mem_cons, hrest, or_false, forall_eq_or_imp, ne_eq, not_true_eq_false,
        false_and, Prod.mk.injEq, true_and, if_true, Option.some.injEq, false_or]
      exact ⟨fun h => h.2.symm, fun h => ⟨hne, h.symm⟩⟩
    · have hk' : key ≠ k := Ne.symm hk
      simp [hk, hk']

theorem Holds.insertAll {t u : OpenTable κ β} {m n : Dictionary κ β} (h : t.Holds m)
    (hu : u.Holds n) : (t.insertAll u).Holds fun k => (n k).or (m k) := by
  obtain ⟨hs, hst⟩ := h.insertEach (pairwise_entries hu.sound.distinct)
  refine ⟨hs, ?_⟩
  intro k v
  refine (hst k v).trans ?_
  simp only [mem_entries, hu.stored, Option.or_eq_some_iff]
  have hnone : (∀ e ∈ u.entries, e.1 ≠ k) ↔ n k = none := by
    rw [Option.eq_none_iff_forall_ne_some]
    constructor
    · intro hall w hw
      exact hall (k, w) (mem_entries.2 ((hu.stored k w).2 hw)) rfl
    · rintro hall ⟨key, w⟩ he rfl
      exact hall w ((hu.stored key w).1 (mem_entries.1 he))
  rw [hnone]

/-! ### Any number of requests -/

omit [DecidableEq κ] in
theorem holds_lookup {tables : List (OpenTable κ β)} {dictionaries : List (Dictionary κ β)}
    (h : List.Forall₂ Holds tables dictionaries) (i : Nat) :
    (tables[i]? = none ∧ dictionaries[i]? = none) ∨
      ∃ t m, tables[i]? = some t ∧ dictionaries[i]? = some m ∧ t.Holds m := by
  induction h generalizing i with
  | nil => exact .inl ⟨rfl, rfl⟩
  | @cons t m _ _ htm _ ih =>
    cases i with
    | zero => exact .inr ⟨t, m, rfl, rfl, htm⟩
    | succ i => simpa using ih i

omit [DecidableEq κ] in
theorem holds_set {tables : List (OpenTable κ β)} {dictionaries : List (Dictionary κ β)}
    (h : List.Forall₂ Holds tables dictionaries) (i : Nat) {t : OpenTable κ β}
    {m : Dictionary κ β} (htm : t.Holds m) :
    List.Forall₂ Holds (tables.set i t) (dictionaries.set i m) := by
  induction h generalizing i with
  | nil => exact .nil
  | cons hab hrest ih =>
    cases i with
    | zero => exact .cons htm hrest
    | succ i => exact .cons hab (ih i)

theorem holds_respond {tables : List (OpenTable κ β)} {dictionaries : List (Dictionary κ β)}
    (h : List.Forall₂ Holds tables dictionaries) {t : OpenTable κ β} {m : Dictionary κ β}
    (htm : t.Holds m) (request : Request κ β) :
    ((operations κ β).respond tables t request).1 =
        ((Dictionary.operations κ β).respond dictionaries m request).1 ∧
      ((operations κ β).respond tables t request).2.Holds
        ((Dictionary.operations κ β).respond dictionaries m request).2 := by
  cases request with
  | insert key value =>
    exact ⟨congrArg Answer.flag (htm.insert key value).1, (htm.insert key value).2⟩
  | get key => exact ⟨congrArg Answer.value (htm.get? key), htm⟩
  | modify key f => exact ⟨congrArg Answer.value (htm.get? key), htm.modify key f⟩
  | contains key =>
    exact ⟨congrArg (fun v : Option β => Answer.flag v.isSome) (htm.get? key), htm⟩
  | erase key => exact ⟨congrArg Answer.value (htm.erase key).1, (htm.erase key).2⟩
  | filter keep => exact ⟨rfl, htm.filter keep⟩
  | insertAll source =>
    refine ⟨rfl, htm.insertAll ?_⟩
    rcases holds_lookup h source with ⟨ht, hm⟩ | ⟨u, n, ht, hm, hun⟩
    · rw [ht, hm]
      exact holds_empty
    · rw [ht, hm]
      exact hun
  | clear => exact ⟨rfl, holds_empty⟩
  | clone => exact ⟨rfl, htm⟩

theorem holds_serve {tables : List (OpenTable κ β)} {dictionaries : List (Dictionary κ β)}
    (h : List.Forall₂ Holds tables dictionaries) (target : Nat) (request : Request κ β) :
    ((operations κ β).serve tables target request).1 =
        ((Dictionary.operations κ β).serve dictionaries target request).1 ∧
      List.Forall₂ Holds ((operations κ β).serve tables target request).2
        ((Dictionary.operations κ β).serve dictionaries target request).2 := by
  unfold Operations.serve
  rcases holds_lookup h target with ⟨ht, hm⟩ | ⟨t, m, ht, hm, htm⟩
  · rw [ht, hm]
    exact ⟨rfl, h⟩
  · rw [ht, hm]
    have hr := holds_respond h htm request
    cases request with
    | clone => exact ⟨rfl, List.rel_append h (.cons htm .nil)⟩
    | _ => exact ⟨hr.1, holds_set h target hr.2⟩

theorem holds_run {tables : List (OpenTable κ β)} {dictionaries : List (Dictionary κ β)}
    (h : List.Forall₂ Holds tables dictionaries) (calls : List (Nat × Request κ β)) :
    ((operations κ β).run tables calls).1 =
        ((Dictionary.operations κ β).run dictionaries calls).1 ∧
      List.Forall₂ Holds ((operations κ β).run tables calls).2
        ((Dictionary.operations κ β).run dictionaries calls).2 := by
  induction calls generalizing tables dictionaries with
  | nil => exact ⟨rfl, h⟩
  | cons call rest ih =>
    obtain ⟨ha, ht⟩ := holds_serve h call.1 call.2
    obtain ⟨has, hts⟩ := ih ht
    exact ⟨congrArg₂ List.cons ha has, hts⟩

/-- Any requests to an empty table and to its copies are answered as finite maps answer them, and
leave sound tables with the entries of these maps. -/
theorem run_refines (calls : List (Nat × Request κ β)) :
    ((operations κ β).run [empty] calls).1 =
        ((Dictionary.operations κ β).run [fun _ => none] calls).1 ∧
      List.Forall₂ Refines ((operations κ β).run [empty] calls).2
        ((Dictionary.operations κ β).run [fun _ => none] calls).2 := by
  obtain ⟨ha, ht⟩ := holds_run (.cons holds_empty .nil) calls
  exact ⟨ha, ht.imp fun _ _ h => h.refines⟩

end OpenTable

end FrontEnd
