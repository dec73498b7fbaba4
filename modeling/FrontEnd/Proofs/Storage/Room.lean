import FrontEnd.Proofs.Types.TableGrowth
import FrontEnd.Syntax.Tree

/-! Storages with room left do not run out. -/

namespace FrontEnd

namespace Pool

variable {α : Type} {p q : Pool α} {n : Nat}

/-- There is room for `n` more values, however the slots are used. -/
def Roomy (p : Pool α) (n : Nat) : Prop := p.slots.size + n * poolBatch ≤ p.maxSlots

theorem Roomy.mono {m : Nat} (h : p.Roomy n) (hm : m ≤ n) : p.Roomy m := by
  have := Nat.mul_le_mul_right poolBatch hm
  unfold Roomy at h ⊢
  omega

theorem take_of_freeHead {i : Nat} (h : p.freeHead = some i) (value : α) :
    ∃ q, p.take value = .ok (i, q) ∧ q.slots.size = p.slots.size ∧ q.maxSlots = p.maxSlots := by
  unfold Pool.take
  rw [h]
  exact ⟨_, rfl, by simp, rfl⟩

/-- A value that there is room for gets a slot. -/
theorem Roomy.alloc (h : p.Roomy (n + 1)) (value : α) :
    ∃ i q, p.alloc value = .ok (i, q) ∧ q.Roomy n := by
  have hroom : p.slots.size + (n * poolBatch + poolBatch) ≤ p.maxSlots := by
    simpa [Roomy, Nat.add_mul] using h
  unfold Pool.alloc
  cases hf : p.freeHead with
  | some i =>
    obtain ⟨q, hq, hsize, hmax⟩ := take_of_freeHead hf value
    refine ⟨i, q, hq, ?_⟩
    unfold Roomy
    omega
  | none =>
    have hcount : min poolBatch (p.maxSlots - p.slots.size) = poolBatch := by omega
    have hpos : poolBatch ≠ 0 := by decide
    obtain ⟨g, hg, hhead, hsize, hmax⟩ : ∃ g, p.grow = .ok g ∧ g.freeHead = some p.slots.size ∧
        g.slots.size = p.slots.size + poolBatch ∧ g.maxSlots = p.maxSlots := by
      unfold Pool.grow
      simp only [hcount, hpos, if_false]
      exact ⟨_, rfl, rfl, by simpa using hcount, rfl⟩
    obtain ⟨q, hq, hsize', hmax'⟩ := take_of_freeHead hhead value
    refine ⟨_, q, by simpa [hg, Bind.bind, Except.bind] using hq, ?_⟩
    unfold Roomy
    omega

/-- Writing and freeing leave the room as it is. -/
theorem Roomy.of_size (h : p.Roomy n) (hsize : q.slots.size = p.slots.size)
    (hmax : q.maxSlots = p.maxSlots) : q.Roomy n := by
  unfold Roomy at h ⊢
  rw [hsize, hmax]
  exact h

theorem Roomy.write {i : Nat} {value : α} (h : p.Roomy n) (hw : p.write i value = .ok q) :
    q.Roomy n := by
  unfold Pool.write Pool.set? at hw
  split at hw
  · rename_i q' hq
    cases hw
    split at hq
    · cases hq
      exact h.of_size (by simp) rfl
    · cases hq
  · cases hw

theorem Roomy.dealloc {i : Nat} {value : α} (h : p.Roomy n) (hd : p.dealloc i = some (value, q)) :
    q.Roomy n := by
  unfold Pool.dealloc at hd
  split at hd
  · cases hd
    exact h.of_size (by simp) rfl
  · cases hd

theorem roomy_withMaxSlots {maxSlots : Nat} (h : n * poolBatch ≤ min maxSlots maxOffset) :
    (withMaxSlots maxSlots : Pool α).Roomy n := by
  unfold Roomy
  simpa [withMaxSlots] using h

end Pool

namespace Interner

variable {t : Interner} {n : Nat}

/-- There is room for `n` more bytes. -/
def Roomy (t : Interner) (n : Nat) : Prop := t.used + n ≤ t.reserve

theorem Roomy.intern {text : String} (h : t.Roomy (text.utf8ByteSize + n)) :
    ∃ r u, t.intern text = .ok (r, u) ∧ u.Roomy n := by
  unfold Roomy at h
  unfold Interner.intern
  cases t.get? text with
  | some name => exact ⟨name, t, rfl, by unfold Roomy; omega⟩
  | none =>
    rw [if_pos (by omega)]
    refine ⟨_, _, rfl, ?_⟩
    unfold Roomy
    change t.used + text.utf8ByteSize + n ≤ t.reserve
    omega

end Interner

namespace Tree

variable {t u : Tree} {n : Nat}

/-- There is room for `n` more nodes, expressions or statements. -/
def Roomy (t : Tree) (n : Nat) : Prop := t.exprs.Roomy n ∧ t.stmts.Roomy n

theorem roomy_withMaxSlots {maxSlots : Nat} (h : n * poolBatch ≤ min maxSlots maxOffset) :
    (withMaxSlots maxSlots).Roomy n := ⟨Pool.roomy_withMaxSlots h, Pool.roomy_withMaxSlots h⟩

theorem Roomy.addExpr (h : t.Roomy (n + 1)) (e : Expr) :
    ∃ id u, t.addExpr e = .ok (id, u) ∧ u.Roomy n := by
  obtain ⟨slot, exprs, ha, hn⟩ := h.1.alloc e
  exact ⟨⟨slot⟩, { t with exprs }, by simp [Tree.addExpr, ha, Bind.bind, Except.bind, Pure.pure,
    Except.pure], hn, h.2.mono (by omega)⟩

theorem Roomy.addStmt (h : t.Roomy (n + 1)) (s : Stmt) :
    ∃ id u, t.addStmt s = .ok (id, u) ∧ u.Roomy n := by
  obtain ⟨slot, stmts, ha, hn⟩ := h.2.alloc s
  exact ⟨⟨slot⟩, { t with stmts }, by simp [Tree.addStmt, ha, Bind.bind, Except.bind, Pure.pure,
    Except.pure], h.1.mono (by omega), hn⟩

theorem Roomy.setExpr {id : ExprId} {e : Expr} (h : t.Roomy n) (hs : t.setExpr id e = .ok u) :
    u.Roomy n := by
  unfold Tree.setExpr at hs
  cases hw : t.exprs.write id.slot e with
  | error f => simp [hw, Bind.bind, Except.bind] at hs
  | ok exprs =>
    simp only [hw, Bind.bind, Except.bind, Pure.pure, Except.pure, Except.ok.injEq] at hs
    exact hs ▸ ⟨h.1.write hw, h.2⟩

theorem Roomy.free {id : NodeId} {children : List NodeId} (h : t.Roomy n)
    (hf : t.free id = some (children, u)) : u.Roomy n := by
  cases id with
  | expr id =>
    obtain ⟨⟨e, exprs⟩, hd, he⟩ := Option.map_eq_some_iff.1 hf
    cases he
    exact ⟨h.1.dealloc hd, h.2⟩
  | stmt id =>
    obtain ⟨⟨s, stmts⟩, hd, he⟩ := Option.map_eq_some_iff.1 hf
    cases he
    exact ⟨h.1, h.2.dealloc hd⟩

theorem Roomy.releaseAll (h : t.Roomy n) (k : Nat) (work : List NodeId) :
    (t.releaseAll k work).2.Roomy n := by
  fun_induction Tree.releaseAll t k work with
  | case1 => exact h
  | case2 t k id work children u hf ih => exact ih (h.free hf)
  | case3 t k id work hf ih => exact ih h

end Tree

namespace TypeTable

/-- Basic types that there is room for can all be added. -/
theorem exists_addBasics (list : List BasicType) {t : TypeTable} {names : Interner} {m k : Nat}
    (ht : t.types.Roomy (k + list.length))
    (hn : names.Roomy (list.foldr (fun b n => b.text.utf8ByteSize + n) 0 + m)) :
    ∃ u names', t.addBasics names list = .ok (u, names') ∧ names'.Roomy m ∧ u.types.Roomy k := by
  induction list generalizing t names with
  | nil => exact ⟨t, names, rfl, by simpa using hn, ht⟩
  | cons b rest ih =>
    rw [List.foldr_cons, Nat.add_assoc] at hn
    obtain ⟨text, names₁, hi, hn₁⟩ := hn.intern
    obtain ⟨i, types, ha, ht₁⟩ := ht.alloc ⟨.basic b, text⟩
    obtain ⟨u, names', hu, hroom⟩ := ih (t := { t with types }) ht₁ hn₁
    refine ⟨u, names', ?_, hroom⟩
    simp [addBasics, hi, add, ha, Bind.bind, Except.bind, Pure.pure, Except.pure, hu]

/-- A type that there is room for. -/
theorem exists_add {t : TypeTable} {k : Nat} (h : t.types.Roomy (k + 1)) (kind : TypeKind)
    (text : Name) : ∃ id u, t.add kind text = .ok (id, u) ∧ u.types.Roomy k := by
  obtain ⟨slot, types, ha, hk⟩ := h.alloc ⟨kind, text⟩
  refine ⟨⟨slot⟩, { t with types }, ?_, hk⟩
  simp [add, ha, Bind.bind, Except.bind, Pure.pure, Except.pure]

/-- A function type is added if its text can be composed and interned, and the type itself. -/
theorem addFunction_eq {t u : TypeTable} {names names' : Interner} {scratch : Nat}
    {signature : Signature} {text : String} {name : Name} {id : TypeId}
    (htext : t.functionText names scratch signature = .ok text)
    (hi : names.intern text = .ok (name, names'))
    (ha : t.add (.function signature) name = .ok (id, u)) :
    addFunction scratch signature (t, names) = .ok id (u, names') := by
  have hstart
      (f : TypeTable × Interner → EStateM (Halt StorageError) (TypeTable × Interner) TypeId) :
      (get >>= f) (t, names) = f (t, names) (t, names) := rfl
  have hset (s r : TypeTable × Interner)
      (f : PUnit → EStateM (Halt StorageError) (TypeTable × Interner) TypeId) :
      (set s >>= f) r = f ⟨⟩ s := rfl
  unfold addFunction
  rw [hstart]
  simp only [htext, hi, ha, ofExcept, Halt.liftCause, pure_bind, hset]
  rfl

/-- A function type that there is room for, and for its text. -/
theorem exists_addFunction {t : TypeTable} {names : Interner} {m k scratch : Nat}
    {signature : Signature} {text : String}
    (htext : t.functionText names scratch signature = .ok text)
    (hn : names.Roomy (text.utf8ByteSize + m)) (ht : t.types.Roomy (k + 1)) :
    ∃ id u names', addFunction scratch signature (t, names) = .ok id (u, names') ∧
      names'.Roomy m ∧ u.types.Roomy k := by
  obtain ⟨name, names', hi, hm⟩ := hn.intern
  obtain ⟨id, u, ha, hk⟩ := exists_add ht (.function signature) name
  exact ⟨id, u, names', addFunction_eq htext hi ha, hm, hk⟩

end TypeTable

end FrontEnd
