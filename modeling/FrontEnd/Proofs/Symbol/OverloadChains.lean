import FrontEnd.Proofs.Symbol.LinkNames
import FrontEnd.Proofs.Typing.OverloadChoice

/-!
The overloads under a key, whatever is declared, removed and merged while types are added: there is
at least one, no two have equal parameters, and a lookup finds the first that admits its arguments.
-/

namespace FrontEnd

/-! ### Equal parameters -/

namespace TypeTable

variable {t : TypeTable} {a b c : TypeId} {r : Bool} {ps qs ts : List TypeId}

/-- One of the types that are wanted is not in the table. -/
def Lacks (t : TypeTable) (wanted : TypeId → Prop) (fault : Fault) : Prop :=
  ∃ type, wanted type ∧ fault = .deadSlot type.slot ∧ ¬ t.Live type

theorem Lacks.imp {wanted wanted' : TypeId → Prop} {fault : Fault} (h : t.Lacks wanted fault)
    (hw : ∀ type, wanted type → wanted' type) : t.Lacks wanted' fault :=
  let ⟨type, hwanted, hdead⟩ := h
  ⟨type, hw type hwanted, hdead⟩

theorem faults_lacks {wanted : TypeId → Prop} (h : wanted a) :
    Faults (t.desc a) (t.Lacks wanted) := by
  intro fault hf
  refine ⟨a, h, ?_, fun ⟨d, hd⟩ => by cases hd.symm.trans hf⟩
  unfold TypeTable.desc Pool.read at hf
  split at hf
  · cases hf
  · exact (Except.error.inj hf).symm

theorem equal_eq_ok : t.equal a b = .ok r ↔ a = b ∧ r = true ∨
    ∃ d e, t.desc a = .ok d ∧ t.desc b = .ok e ∧ r = (d.text == e.text) := by
  by_cases hsame : a = b
  · subst hsame
    simp only [equal, if_true, Pure.pure, Except.pure, Except.ok.injEq, true_and, eq_comm (a := r)]
    refine ⟨.inl, fun h => h.elim id ?_⟩
    rintro ⟨d, e, hd, he, hr⟩
    obtain rfl := Except.ok.inj (hd.symm.trans he)
    simpa using hr.symm
  · simp only [equal, hsame, if_false, false_and, false_or]
    constructor
    · intro h
      obtain ⟨d, hd, h⟩ := bind_ok h
      obtain ⟨e, he, h⟩ := bind_ok h
      exact ⟨d, e, hd, he, (Except.ok.inj h).symm⟩
    · rintro ⟨d, e, hd, he, rfl⟩
      rw [hd, he]
      rfl

theorem equal_symm (h : t.equal a b = .ok r) : t.equal b a = .ok r := by
  rw [equal_eq_ok] at h ⊢
  rcases h with ⟨rfl, rfl⟩ | ⟨d, e, hd, he, rfl⟩
  · exact .inl ⟨rfl, rfl⟩
  · exact .inr ⟨e, d, he, hd, Bool.beq_comm⟩

theorem equal_trans (h : t.equal a b = .ok true) (hc : t.equal b c = .ok r) :
    t.equal a c = .ok r := by
  rcases equal_eq_true.1 h with rfl | ⟨d, e, hd, he, htext⟩
  · exact hc
  · rw [equal_eq_ok] at hc ⊢
    rcases hc with ⟨rfl, rfl⟩ | ⟨e', f, he', hf, rfl⟩
    · exact .inr ⟨d, e, hd, he, by simpa using htext⟩
    · obtain rfl := Except.ok.inj (he.symm.trans he')
      exact .inr ⟨d, f, hd, hf, by rw [htext]⟩

theorem allM_equal_symm (h : (ps.zip qs).allM (fun (a, b) => t.equal a b) = .ok r) :
    (qs.zip ps).allM (fun (a, b) => t.equal a b) = .ok r := by
  induction ps generalizing qs with
  | nil => simpa using h
  | cons a ps ih =>
    cases qs with
    | nil => exact h
    | cons b qs =>
      simp only [List.zip_cons_cons, List.allM] at h ⊢
      obtain ⟨same, hsame, h⟩ := bind_ok h
      rw [equal_symm hsame]
      cases same with
      | false => exact h
      | true => exact ih h

theorem allM_equal_trans (h : List.Forall₂ t.Equal ps qs)
    (hts : (qs.zip ts).allM (fun (a, b) => t.equal a b) = .ok r) :
    (ps.zip ts).allM (fun (a, b) => t.equal a b) = .ok r := by
  induction h generalizing ts with
  | nil => exact hts
  | cons hab _ ih =>
    cases ts with
    | nil => exact hts
    | cons c ts =>
      simp only [List.zip_cons_cons, List.allM] at hts ⊢
      obtain ⟨same, hsame, hts⟩ := bind_ok hts
      rw [equal_trans (equal_eq_true.2 hab) hsame]
      cases same with
      | false => exact hts
      | true => exact ih hts

end TypeTable

namespace Overload

variable {types types' : TypeTable} {o p q : Overload} {r : Bool}

/-- Parameters of equal types, and further arguments in both or in neither. -/
def SameParams (types : TypeTable) (o p : Overload) : Prop :=
  o.variadic = p.variadic ∧ List.Forall₂ types.Equal o.params p.params

theorem sameParams_eq_true : o.sameParams types p = .ok true ↔ o.SameParams types p := by
  unfold sameParams SameParams
  rw [List.forall₂_iff_zip, ← and_assoc]
  split
  next h =>
    rw [allM_eq_true, and_iff_right h]
    exact ⟨fun hall a b hab => TypeTable.equal_eq_true.1 (hall _ hab),
      fun hall v hv => TypeTable.equal_eq_true.2 (hall hv)⟩
  next h => exact ⟨nofun, fun hsame => absurd hsame.1 h⟩

theorem sameParams_symm (h : o.sameParams types p = .ok r) : p.sameParams types o = .ok r := by
  unfold sameParams at h ⊢
  split at h
  next hshape =>
    rw [if_pos (hshape.imp Eq.symm Eq.symm)]
    exact TypeTable.allM_equal_symm h
  next hshape =>
    rw [if_neg fun hshape' => hshape (hshape'.imp Eq.symm Eq.symm)]
    exact h

theorem sameParams_trans (h : o.SameParams types p) (hq : p.sameParams types q = .ok r) :
    o.sameParams types q = .ok r := by
  unfold sameParams at hq ⊢
  rw [h.1, h.2.length_eq]
  split at hq
  next hshape =>
    rw [if_pos hshape]
    exact TypeTable.allM_equal_trans h.2 hq
  next hshape =>
    rw [if_neg hshape]
    exact hq

theorem stays_sameParams (h : types.Grows types') :
    Stays (o.sameParams types p) (o.sameParams types' p) :=
  stays_ite (stays_allM fun _ => h.stays_equal) (stays_refl _)

/-- What declaring an overload makes of a chain: it takes the place of one with equal parameters, or
comes last if there is none. The flag says which. -/
def Joins (types : TypeTable) (o : Overload) (chain : List Overload) :
    Bool → List Overload → Prop
  | true, chain' => ∃ before p after, chain = before ++ p :: after ∧ p.SameParams types o ∧
      chain' = before ++ o :: after
  | false, chain' => (∀ p ∈ chain, ¬ p.SameParams types o) ∧ chain' = chain ++ [o]

end Overload

/-! ### One chain -/

namespace FuncTable

variable {types types' : TypeTable} {known known' : Overload → Prop} {chain chain' : List Overload}
  {o : Overload} {replaced : Bool}

/-- No two overloads have equal parameters, and all are known. -/
structure Chain (types : TypeTable) (known : Overload → Prop) (chain : List Overload) : Prop where
  distinct : chain.Pairwise fun o p => o.sameParams types p = .ok false
  known : ∀ o ∈ chain, known o

theorem Chain.mono (h : Chain types known chain) (ht : types.Grows types')
    (hk : ∀ o, known o → known' o) : Chain types' known' chain where
  distinct := h.distinct.imp fun hop => Overload.stays_sameParams ht _ hop
  known o ho := hk o (h.known o ho)

theorem Chain.sublist (h : Chain types known chain) (hs : chain'.Sublist chain) :
    Chain types known chain' where
  distinct := h.distinct.sublist hs
  known o ho := h.known o (hs.subset ho)

/-- The chain is searched up to the first overload with equal parameters. -/
theorem extend_ok (h : extend types o chain = .ok (replaced, chain')) :
    replaced = true ∧ (∃ before p after, chain = before ++ p :: after ∧
        (∀ q ∈ before, q.sameParams types o = .ok false) ∧ p.SameParams types o ∧
        chain' = before ++ o :: after) ∨
      replaced = false ∧ (∀ q ∈ chain, q.sameParams types o = .ok false) ∧
        chain' = chain ++ [o] := by
  induction chain generalizing replaced chain' with
  | nil =>
    obtain ⟨rfl, rfl⟩ := Prod.mk.inj (Except.ok.inj h)
    exact .inr ⟨rfl, nofun, rfl⟩
  | cons p chain ih =>
    rw [extend] at h
    obtain ⟨same, hsame, h⟩ := bind_ok h
    cases same with
    | true =>
      obtain ⟨rfl, rfl⟩ := Prod.mk.inj (Except.ok.inj h)
      exact .inl ⟨rfl, [], p, chain, rfl, nofun, Overload.sameParams_eq_true.1 hsame, rfl⟩
    | false =>
      obtain ⟨⟨flag, rest⟩, hrest, h⟩ := bind_ok h
      obtain ⟨rfl, rfl⟩ := Prod.mk.inj (Except.ok.inj h)
      rcases ih hrest with ⟨rfl, before, q, after, rfl, hbefore, hq, rfl⟩ | ⟨rfl, hall, rfl⟩
      · exact .inl ⟨rfl, p :: before, q, after, rfl, List.forall_mem_cons.2 ⟨hsame, hbefore⟩, hq,
          rfl⟩
      · exact .inr ⟨rfl, List.forall_mem_cons.2 ⟨hsame, hall⟩, rfl⟩

theorem joins_of_extend (h : extend types o chain = .ok (replaced, chain')) :
    o.Joins types chain replaced chain' := by
  rcases extend_ok h with ⟨rfl, before, p, after, hchain, -, hp, rfl⟩ | ⟨rfl, hall, rfl⟩
  · exact ⟨before, p, after, hchain, hp, rfl⟩
  · refine ⟨fun p hp hsame => ?_, rfl⟩
    cases (hall p hp).symm.trans (Overload.sameParams_eq_true.2 hsame)

/-- The new overload differs from those after the one that it replaces, because that one does. -/
theorem Chain.extend (h : Chain types known chain) (ho : known o)
    (he : FuncTable.extend types o chain = .ok (replaced, chain')) :
    Chain types known chain' := by
  have hknown : ∀ q ∈ chain', known q := by
    intro q hq
    rcases mem_extend he hq with rfl | hq
    · exact ho
    · exact h.known q hq
  rcases extend_ok he with ⟨-, before, p, after, rfl, hbefore, hp, rfl⟩ | ⟨-, hall, rfl⟩
  · obtain ⟨hdb, hdp, hcross⟩ := List.pairwise_append.1 h.distinct
    obtain ⟨hpa, hda⟩ := List.pairwise_cons.1 hdp
    have hop : o.SameParams types p :=
      Overload.sameParams_eq_true.1 (Overload.sameParams_symm (Overload.sameParams_eq_true.2 hp))
    refine ⟨List.pairwise_append.2 ⟨hdb, List.pairwise_cons.2 ⟨fun q hq => ?_, hda⟩,
      fun q hq u hu => ?_⟩, hknown⟩
    · exact Overload.sameParams_trans hop (hpa q hq)
    · rcases List.mem_cons.1 hu with rfl | hu
      · exact hbefore q hq
      · exact hcross q hq u (List.mem_cons_of_mem _ hu)
  · refine ⟨List.pairwise_append.2 ⟨h.distinct, List.pairwise_singleton _ o,
      fun q hq u hu => ?_⟩, hknown⟩
    obtain rfl := List.mem_singleton.1 hu
    exact hall q hq

theorem ne_nil_of_extend (h : FuncTable.extend types o chain = .ok (replaced, chain')) :
    chain' ≠ [] := by
  rcases extend_ok h with ⟨-, before, p, after, -, -, -, rfl⟩ | ⟨-, -, rfl⟩ <;> simp

/-! ### One table -/

variable {t u : FuncTable} {key : ScopedKey}

theorem overloads_eq (h : t.get? key = some chain) : t.overloads key = chain := by
  rw [overloads, h, Option.getD_some]

theorem declare_eq_ok (h : t.Sound) (hd : t.declare types key o = .ok (replaced, u)) :
    u.Sound ∧ ∃ chain', FuncTable.extend types o (t.overloads key) = .ok (replaced, chain') ∧
      ∀ k, u.get? k = if k = key then some chain' else t.get? k := by
  unfold declare at hd
  unfold overloads
  cases hkey : t.get? key with
  | none =>
    rw [hkey] at hd
    obtain ⟨rfl, rfl⟩ := Prod.mk.inj (Except.ok.inj hd)
    exact ⟨(h.holds.insert key [o]).2.sound, [o], rfl, h.get?_insert key [o]⟩
  | some chain =>
    rw [hkey] at hd
    obtain ⟨⟨flag, chain'⟩, hextend, hd⟩ := bind_ok hd
    obtain ⟨rfl, rfl⟩ := Prod.mk.inj (Except.ok.inj hd)
    refine ⟨(h.holds.modify key _).sound, chain', hextend, fun k => ?_⟩
    rw [h.get?_modify]
    split
    next hk => rw [hk, hkey, Option.map_some]
    next => rfl

/-- No key has an empty chain. -/
structure Tidy (types : TypeTable) (known : Overload → Prop) (t : FuncTable) : Prop where
  sound : t.Sound
  ne_nil : ∀ key, t.get? key ≠ some []
  chain : ∀ key, Chain types known (t.overloads key)

theorem tidy_empty : Tidy types known .empty where
  sound := OpenTable.sound_empty
  ne_nil key := by simp [OpenTable.holds_empty.get?]
  chain key := by
    simp only [overloads, OpenTable.holds_empty.get?]
    exact ⟨.nil, fun o ho => absurd ho List.not_mem_nil⟩

theorem Tidy.mono (h : Tidy types known t) (ht : types.Grows types')
    (hk : ∀ o, known o → known' o) : Tidy types' known' t where
  sound := h.sound
  ne_nil := h.ne_nil
  chain key := (h.chain key).mono ht hk

/-- It is enough to look at the keys that are there. -/
theorem tidy_of_get? (hs : t.Sound)
    (h : ∀ key chain, t.get? key = some chain → chain ≠ [] ∧ Chain types known chain) :
    Tidy types known t where
  sound := hs
  ne_nil key hkey := (h key [] hkey).1 rfl
  chain key := by
    unfold overloads
    cases hkey : t.get? key with
    | none => exact ⟨.nil, nofun⟩
    | some chain => exact (h key chain hkey).2

theorem Tidy.get? (h : Tidy types known t) (hkey : t.get? key = some chain) :
    chain ≠ [] ∧ Chain types known chain := by
  refine ⟨fun hnil => h.ne_nil key (hnil ▸ hkey), ?_⟩
  exact overloads_eq hkey ▸ h.chain key

theorem Tidy.declare (h : Tidy types known t) (ho : known o)
    (hd : t.declare types key o = .ok (replaced, u)) : Tidy types known u := by
  obtain ⟨hs, chain', hextend, hget⟩ := declare_eq_ok h.sound hd
  refine tidy_of_get? hs fun k chain hk => ?_
  rw [hget] at hk
  split at hk
  · obtain rfl := Option.some.inj hk
    exact ⟨ne_nil_of_extend hextend, (h.chain key).extend ho hextend⟩
  · exact h.get? hk

theorem Tidy.eraseOverload (h : Tidy types known t) (key : ScopedKey) (mangled : Name) :
    Tidy types known (t.eraseOverload key mangled).2 := by
  unfold FuncTable.eraseOverload
  cases hkey : t.get? key with
  | none => exact h
  | some chain =>
    dsimp only
    cases chain.find? (·.mangled == mangled) with
    | none => exact h
    | some o =>
      dsimp only
      split
      next =>
        refine tidy_of_get? (h.sound.erase key).1 fun k chain' hk => ?_
        rw [h.sound.get?_erase] at hk
        split at hk
        · cases hk
        · exact h.get? hk
      next hne =>
        refine tidy_of_get? (h.sound.modify key _).1 fun k chain' hk => ?_
        rw [h.sound.get?_modify] at hk
        split at hk
        next hsame =>
          rw [hsame, hkey] at hk
          obtain rfl := Option.some.inj hk
          refine ⟨fun hnil => hne (List.isEmpty_iff.2 hnil), ?_⟩
          exact (h.get? hkey).2.sublist List.eraseP_sublist
        next => exact h.get? hk

theorem Tidy.erase (h : Tidy types known t) (key : ScopedKey) :
    Tidy types known (OpenTable.erase t key).2 := by
  refine tidy_of_get? (h.sound.erase key).1 fun k chain hk => ?_
  rw [h.sound.get?_erase] at hk
  split at hk
  · cases hk
  · exact h.get? hk

theorem Tidy.filter (h : Tidy types known t) (keep : ScopedKey → List Overload → Bool) :
    Tidy types known (OpenTable.filter t keep) := by
  refine tidy_of_get? (h.sound.filter keep).1 fun k chain hk => ?_
  rw [h.sound.get?_filter] at hk
  exact h.get? (Option.filter_eq_some_iff.1 hk).1

/-- A chain of the other table comes as it is. -/
theorem Tidy.insertAll (h : Tidy types known t) (hu : Tidy types known u) :
    Tidy types known (OpenTable.insertAll t u) := by
  refine tidy_of_get? (h.sound.holds.insertAll hu.sound.holds).sound fun k chain hk => ?_
  rw [h.sound.get?_insertAll hu.sound, Option.or_eq_some_iff] at hk
  rcases hk with hk | ⟨-, hk⟩
  · exact hu.get? hk
  · exact h.get? hk

/-! ### What a table answers -/

/-- The overload that is found is the first that admits the arguments. -/
def Finds (types : TypeTable) (exact : Bool) (args : List TypeId) (chain : List Overload) :
    Option Overload → Prop
  | some o => ∃ before after, chain = before ++ o :: after ∧
      o.Admits (if exact then types.Equal else types.Compatible) args ∧
      ∀ p ∈ before, ¬ p.Admits (if exact then types.Equal else types.Compatible) args
  | none => ∀ p ∈ chain, ¬ p.Admits (if exact then types.Equal else types.Compatible) args

theorem finds_findM? {exact : Bool} {args : List TypeId} {found : Option Overload}
    (h : chain.findM? (fun o => o.accepts types exact args) = .ok found) :
    Finds types exact args chain found := by
  induction chain with
  | nil =>
    obtain rfl := Except.ok.inj h
    exact nofun
  | cons p chain ih =>
    rw [List.findM?] at h
    obtain ⟨accepted, hp, h⟩ := bind_ok h
    cases accepted with
    | true =>
      obtain rfl := Except.ok.inj h
      exact ⟨[], chain, rfl, Overload.accepts_eq_true.1 hp, nofun⟩
    | false =>
      have hno : ¬ p.Admits (if exact then types.Equal else types.Compatible) args := by
        intro hadmits
        cases hp.symm.trans (Overload.accepts_eq_true.2 hadmits)
      have hrest := ih h
      cases found with
      | none => exact List.forall_mem_cons.2 ⟨hno, hrest⟩
      | some o =>
        obtain ⟨before, after, rfl, ho, hbefore⟩ := hrest
        exact ⟨p :: before, after, rfl, ho, List.forall_mem_cons.2 ⟨hno, hbefore⟩⟩

theorem faults_findM? {E : Fault → Prop} {p : Overload → Except Fault Bool}
    (h : ∀ o ∈ chain, Faults (p o) E) : Faults (chain.findM? p) E := by
  induction chain with
  | nil => exact faults_pure _
  | cons o chain ih =>
    rw [List.findM?]
    refine (h o List.mem_cons_self).bind fun accepted _ => ?_
    cases accepted with
    | true => exact faults_pure _
    | false => exact ih fun o ho => h o (List.mem_cons_of_mem _ ho)

/-- A type that is looked at when something is matched with the overloads under a key. -/
def Weighs (t : FuncTable) (key : ScopedKey) (given : List TypeId) (type : TypeId) : Prop :=
  type ∈ given ∨ ∃ p ∈ t.overloads key, type ∈ p.params

/-- The overloads under each key are in order, and a table answers by them. A call fails only if one
of the types that it has to compare is not there. -/
structure Orderly (types : TypeTable) (t : FuncTable) : Prop where
  ne_nil : ∀ key, t.get? key ≠ some []
  distinct : ∀ key, (t.overloads key).Pairwise fun o p =>
    o.sameParams types p = .ok false ∧ p.sameParams types o = .ok false
  declare : ∀ key o, match t.declare types key o with
    | .ok (replaced, u) => o.Joins types (t.overloads key) replaced (u.overloads key) ∧
        ∀ k, k ≠ key → u.get? k = t.get? k
    | .error fault => types.Lacks (t.Weighs key o.params) fault
  find : ∀ key args exact, match t.find? types key args exact with
    | .ok found => Finds types exact args (t.overloads key) found
    | .error fault => types.Lacks (t.Weighs key args) fault

theorem Tidy.orderly (h : Tidy types known t) : Orderly types t where
  ne_nil := h.ne_nil
  distinct key := (h.chain key).distinct.imp fun hop => ⟨hop, Overload.sameParams_symm hop⟩
  declare key o := by
    cases hd : t.declare types key o with
    | ok r =>
      obtain ⟨hs, chain', hextend, hget⟩ := declare_eq_ok h.sound hd
      have hchain : r.2.overloads key = chain' := overloads_eq ((hget key).trans (if_pos rfl))
      exact ⟨hchain ▸ joins_of_extend hextend, fun k hk => by rw [hget, if_neg hk]⟩
    | error fault =>
      refine faults_declare (E := types.Lacks (t.Weighs key o.params)) ?_ ?_ fault hd
      · exact fun type htype => TypeTable.faults_lacks (.inl htype)
      · exact fun p hp type htype => TypeTable.faults_lacks (.inr ⟨p, hp, htype⟩)
  find key args exact := by
    cases hf : t.find? types key args exact with
    | ok found => exact finds_findM? hf
    | error fault =>
      refine faults_findM? (E := types.Lacks (t.Weighs key args)) (fun o ho => ?_) fault hf
      exact faults_accepts exact (fun type htype => TypeTable.faults_lacks (.inr ⟨o, ho, htype⟩))
        fun type htype => TypeTable.faults_lacks (.inl htype)

end FuncTable

/-! ### Any number of calls -/

/-- What can be asked of function tables over one table of types. -/
inductive OverloadCall
  | declare (target : Nat) (key : ScopedKey) (o : Overload)
  | eraseOverload (target : Nat) (key : ScopedKey) (mangled : Name)
  | erase (target : Nat) (key : ScopedKey)
  | leaveDepth (target depth : Nat)
  /-- Inserts all entries of the table with number `source`. -/
  | insertAll (target source : Nat)
  | addType (kind : TypeKind) (text : Name)

/-- The call declares an overload with a parameter of this type. -/
def OverloadCall.Wants (type : TypeId) : OverloadCall → Prop
  | .declare _ _ o => type ∈ o.params
  | _ => False

structure OverloadStore where
  types : TypeTable
  tables : Nat → FuncTable

namespace OverloadStore

/-- No types yet, and empty tables. -/
def start (maxSlots : Nat) : OverloadStore := ⟨⟨Pool.withMaxSlots maxSlots⟩, fun _ => .empty⟩

def put (s : OverloadStore) (target : Nat) (t : FuncTable) : OverloadStore :=
  { s with tables := Function.update s.tables target t }

/-- A type that finds no room is not added. -/
def step (s : OverloadStore) : OverloadCall → Except Fault OverloadStore
  | .declare target key o => do
    let (_, t) ← FuncTable.declare (s.tables target) s.types key o
    return s.put target t
  | .eraseOverload target key mangled =>
    return s.put target (FuncTable.eraseOverload (s.tables target) key mangled).2
  | .erase target key => return s.put target ((s.tables target).erase key).2
  | .leaveDepth target depth =>
    return s.put target
      (Symbols.leaveDepth { Symbols.empty with funcs := s.tables target } depth).funcs
  | .insertAll target source =>
    return s.put target ((s.tables target).insertAll (s.tables source))
  | .addType kind text =>
    match s.types.add kind text with
    | .ok (_, types) => return { s with types }
    | .error _ => return s

def run (s : OverloadStore) (calls : List OverloadCall) : Except Fault OverloadStore :=
  calls.foldlM step s

theorem run_cons (s : OverloadStore) (call : OverloadCall) (calls : List OverloadCall) :
    s.run (call :: calls) = s.step call >>= fun s => s.run calls :=
  List.foldlM_cons

variable {s : OverloadStore} {calls done : List OverloadCall} {call : OverloadCall}

theorem step_declare_new {target : Nat} {key : ScopedKey} {o : Overload}
    (h : (s.tables target).get? key = none) : s.step (.declare target key o) =
      .ok (s.put target ((s.tables target).insert key [o]).2) := by
  simp only [OverloadStore.step, FuncTable.declare, h]
  rfl

/-- The tables are tidy, and hold only what was declared. -/
structure Kept (s : OverloadStore) (calls : List OverloadCall) : Prop where
  types : s.types.Sound
  tidy : ∀ i, FuncTable.Tidy s.types (fun o => ∃ target key, .declare target key o ∈ calls)
    (s.tables i)

theorem kept_start (maxSlots : Nat) : Kept (start maxSlots) [] where
  types := Pool.sound_withMaxSlots _
  tidy _ := FuncTable.tidy_empty

/-- Types are added, or one table changes. -/
theorem Kept.put (h : Kept s calls) {t : FuncTable} {target : Nat}
    (ht : FuncTable.Tidy s.types (fun o => ∃ target key, .declare target key o ∈ calls) t) :
    Kept (s.put target t) calls where
  types := h.types
  tidy i := by
    unfold OverloadStore.put
    dsimp only
    rcases eq_or_ne i target with rfl | hne
    · rwa [Function.update_self]
    · rw [Function.update_of_ne hne]
      exact h.tidy i

theorem Kept.snoc (h : Kept s calls) (call : OverloadCall) : Kept s (calls ++ [call]) where
  types := h.types
  tidy i := (h.tidy i).mono (.refl _) fun _ ⟨target, key, hmem⟩ =>
    ⟨target, key, List.mem_append_left _ hmem⟩

theorem Kept.step (h : Kept s done) (call : OverloadCall) : match s.step call with
    | .ok s' => Kept s' (done ++ [call])
    | .error fault => s.types.Lacks (fun type => ∃ c ∈ done ++ [call], c.Wants type) fault := by
  have h' := h.snoc call
  cases call with
  | declare target key o =>
    have ho : ∃ target' key', OverloadCall.declare target' key' o ∈
        done ++ [.declare target key o] := ⟨target, key, by simp⟩
    simp only [OverloadStore.step]
    cases hd : FuncTable.declare (s.tables target) s.types key o with
    | ok r => exact h'.put ((h'.tidy target).declare ho hd)
    | error fault =>
      have hlacks := (h.tidy target).orderly.declare key o
      rw [hd] at hlacks
      refine hlacks.imp fun type => ?_
      rintro (hp | ⟨p, hp, hmem⟩)
      · exact ⟨.declare target key o, by simp, hp⟩
      · obtain ⟨target', key', hdone⟩ := ((h.tidy target).chain key).known p hp
        exact ⟨.declare target' key' p, List.mem_append_left _ hdone, hmem⟩
  | eraseOverload target key mangled => exact h'.put ((h'.tidy target).eraseOverload key mangled)
  | erase target key => exact h'.put ((h'.tidy target).erase key)
  | leaveDepth target depth => exact h'.put ((h'.tidy target).filter _)
  | insertAll target source => exact h'.put ((h'.tidy target).insertAll (h'.tidy source))
  | addType kind text =>
    simp only [OverloadStore.step]
    cases ha : s.types.add kind text with
    | error e => exact h'
    | ok r =>
      obtain ⟨hsound, -, hgrows, -⟩ := TypeTable.Sound.add h.types ha
      exact ⟨hsound, fun i => (h'.tidy i).mono hgrows fun _ => id⟩

theorem Kept.run (h : Kept s done) (calls : List OverloadCall) : match s.run calls with
    | .ok s' => Kept s' (done ++ calls)
    | .error fault => ∃ before call after s', calls = before ++ call :: after ∧
        s.run before = .ok s' ∧
        s'.types.Lacks (fun type => ∃ c ∈ done ++ before ++ [call], c.Wants type) fault := by
  induction calls generalizing s done with
  | nil =>
    rw [List.append_nil]
    exact h
  | cons call calls ih =>
    have hstep := h.step call
    rw [run_cons]
    cases hs : s.step call with
    | error fault =>
      rw [hs] at hstep
      exact ⟨[], call, calls, s, rfl, rfl, by rwa [List.append_nil]⟩
    | ok s₁ =>
      rw [hs] at hstep
      have hrest := ih hstep
      change match s₁.run calls with | .ok s' => _ | .error fault => _
      cases hr : s₁.run calls with
      | ok s' =>
        rw [hr] at hrest
        rwa [List.append_cons]
      | error fault =>
        rw [hr] at hrest
        obtain ⟨before, c, after, s', rfl, hrun, hlacks⟩ := hrest
        refine ⟨call :: before, c, after, s', rfl, ?_, by rwa [List.append_cons done]⟩
        rw [run_cons, hs]
        exact hrun

end OverloadStore

/-- Whatever is declared, removed, left and merged, and whatever types are added meanwhile: the
overloads under every key are in order in all tables. The one thing that can stop the calls is a
parameter of a type that the table of types does not have. -/
theorem overloads_orderly (maxSlots : Nat) (calls : List OverloadCall) :
    match (OverloadStore.start maxSlots).run calls with
    | .ok s => ∀ i, FuncTable.Orderly s.types (s.tables i)
    | .error fault => ∃ before call after s, calls = before ++ call :: after ∧
        (OverloadStore.start maxSlots).run before = .ok s ∧
        s.types.Lacks (fun type => ∃ c ∈ before ++ [call], c.Wants type) fault := by
  have h := (OverloadStore.kept_start maxSlots).run calls
  cases hr : (OverloadStore.start maxSlots).run calls with
  | ok s =>
    rw [hr] at h
    exact fun i => (h.tidy i).orderly
  | error fault =>
    rw [hr] at h
    exact h

/-! ### Merging -/

/-- Merging goes by keys and not by overloads: the chain of the table that is merged in stands for
the whole chain that was under its key, and only a key that it does not have keeps its overloads. -/
theorem overloads_merged {t u : FuncTable} (h : t.Sound) (hu : u.Sound) (key : ScopedKey) :
    FuncTable.overloads (t.insertAll u) key =
        (if u.contains key then u.overloads key else t.overloads key) ∧
      (∀ o ∈ u.overloads key, o ∈ FuncTable.overloads (t.insertAll u) key) ∧
      ∀ o ∈ t.overloads key, u.contains key = false →
        o ∈ FuncTable.overloads (t.insertAll u) key := by
  have hmerged : FuncTable.overloads (t.insertAll u) key =
      if u.contains key then u.overloads key else t.overloads key := by
    unfold FuncTable.overloads OpenTable.contains
    rw [h.get?_insertAll hu]
    cases u.get? key <;> rfl
  refine ⟨hmerged, fun o ho => ?_, fun o ho hno => ?_⟩
  · have hkey : u.contains key = true := by
      simp only [FuncTable.overloads, OpenTable.contains] at ho ⊢
      cases hget : u.get? key with
      | none =>
        rw [hget] at ho
        cases ho
      | some chain => rfl
    rwa [hmerged, if_pos hkey]
  · rwa [hmerged, if_neg (by simp [hno])]

/-- Two tables with one key in common, and a key that only the first has. -/
theorem merged_of_overlap :
    let f : ScopedKey := ⟨⟨1⟩, 0⟩
    let g : ScopedKey := ⟨⟨2⟩, 0⟩
    let o : Overload := ⟨⟨3⟩, [], false, false, .void, ⟨9⟩⟩
    let p : Overload := ⟨⟨4⟩, [.integer], false, false, .void, ⟨10⟩⟩
    let t : FuncTable := ((OpenTable.empty.insert f [o, p]).2.insert g [o]).2
    let u : FuncTable := (OpenTable.empty.insert f [{ p with ret := .integer }]).2
    t.Sound ∧ u.Sound ∧ FuncTable.overloads (t.insertAll u) f = [{ p with ret := .integer }] ∧
      o ∈ FuncTable.overloads (t.insertAll u) g := by
  intro f g o p t u
  have hempty : (OpenTable.empty : FuncTable).Sound := OpenTable.sound_empty
  have hf := (hempty.insert f [o, p]).1
  have ht : t.Sound := (hf.insert g [o]).1
  have hu : u.Sound := (hempty.insert f [{ p with ret := .integer }]).1
  have hnone : ∀ key, (OpenTable.empty : FuncTable).get? key = none :=
    OpenTable.holds_empty.get?
  have huf : u.get? f = some [{ p with ret := .integer }] := by
    simp only [u, hempty.get?_insert, if_true]
  have hug : u.get? g = none := by
    rw [hempty.get?_insert, if_neg (by decide), hnone]
  have htg : t.get? g = some [o] := by
    simp only [t, hf.get?_insert, if_true]
  refine ⟨ht, hu, ?_, ?_⟩
  · rw [(overloads_merged ht hu f).1, OpenTable.contains, FuncTable.overloads, huf]
    rfl
  · refine (overloads_merged ht hu g).2.2 o ?_ ?_
    · rw [FuncTable.overloads, htg]
      exact List.mem_singleton.2 rfl
    · rw [OpenTable.contains, hug]
      rfl

/-- An overload without parameters is lost to one with a parameter. -/
theorem merge_loses_overload :
    let f : ScopedKey := ⟨⟨1⟩, 0⟩
    let o : Overload := ⟨⟨3⟩, [], false, false, .void, ⟨9⟩⟩
    let p : Overload := ⟨⟨4⟩, [.integer], false, false, .void, ⟨10⟩⟩
    ∃ s, (OverloadStore.start 16).run [.declare 0 f o, .declare 1 f p] = .ok s ∧
      o ∈ (s.tables 0).overloads f ∧
      (∀ q ∈ (s.tables 1).overloads f, o.sameParams s.types q = .ok false) ∧
      o ∉ FuncTable.overloads ((s.tables 0).insertAll (s.tables 1)) f := by
  intro f o p
  have hempty : (OpenTable.empty : FuncTable).Sound := OpenTable.sound_empty
  have hnone : (OpenTable.empty : FuncTable).get? f = none := OpenTable.holds_empty.get? f
  let t : FuncTable := (OpenTable.empty.insert f [o]).2
  let u : FuncTable := (OpenTable.empty.insert f [p]).2
  have ht : t.get? f = some [o] := by rw [hempty.get?_insert, if_pos rfl]
  have hu : u.get? f = some [p] := by rw [hempty.get?_insert, if_pos rfl]
  have hmerged : OpenTable.get? (t.insertAll u) f = some [p] := by
    rw [(hempty.insert f [o]).1.get?_insertAll (hempty.insert f [p]).1, hu, Option.some_or]
  have hfirst : (OverloadStore.start 16).step (.declare 0 f o) =
      .ok ((OverloadStore.start 16).put 0 t) := OverloadStore.step_declare_new hnone
  have hsecond : ((OverloadStore.start 16).put 0 t).step (.declare 1 f p) =
      .ok (((OverloadStore.start 16).put 0 t).put 1 u) := OverloadStore.step_declare_new hnone
  refine ⟨((OverloadStore.start 16).put 0 t).put 1 u, ?_, ?_, fun q hq => ?_, fun hmem => ?_⟩
  · rw [OverloadStore.run_cons, hfirst]
    change ((OverloadStore.start 16).put 0 t).run [.declare 1 f p] = _
    rw [OverloadStore.run_cons, hsecond]
    rfl
  · exact FuncTable.overloads_eq ht ▸ List.mem_singleton.2 rfl
  · have hq : q ∈ [p] := FuncTable.overloads_eq hu ▸ hq
    obtain rfl := List.mem_singleton.1 hq
    rfl
  · have hmem : o ∈ [p] := FuncTable.overloads_eq hmerged ▸ hmem
    exact absurd (List.mem_singleton.1 hmem) (by decide)

end FrontEnd
