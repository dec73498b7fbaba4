import FrontEnd.Proofs.Pair.Lockstep
import FrontEnd.Proofs.Storage.PoolContents
import FrontEnd.Proofs.Syntax.Forest

/-!
Two pools that are used alike, and two trees that are built alike. Their ceilings may differ: which
slots a pool hands out, and in which order, does not depend on where they end.
-/

namespace FrontEnd

namespace Pool

open Tie

variable {α : Type} {D : Prop} {p q p' q' : Pool α} {i : Nat} {value : α} {l m : List Nat}

/-! ### One pool -/

/-- The slots that are handed out next if none is freed: the free ones and then those that are not
committed yet. -/
def Supplies (p : Pool α) (l : List Nat) : Prop :=
  ∃ free : List Nat, free.Nodup ∧ Linked p.slots p.freeHead free ∧
    l = free ++ List.range' p.slots.size (p.maxSlots - p.slots.size)

theorem Supplies.sound (h : p.Supplies l) : p.Sound :=
  let ⟨free, hnd, hl, _⟩ := h
  ⟨free, hnd, hl⟩

theorem supplies_withMaxSlots (maxSlots : Nat) :
    (withMaxSlots maxSlots : Pool α).Supplies (List.range' 0 (min maxSlots maxOffset)) :=
  ⟨[], List.nodup_nil, trivial, rfl⟩

theorem Supplies.take (h : p.Supplies l) (ht : p.take value = .ok (i, q)) :
    ∃ rest, l = i :: rest ∧ q.Supplies rest ∧ q.size = p.size + 1 := by
  obtain ⟨free, hnd, hl, rfl⟩ := h
  unfold Pool.take at ht
  cases hh : p.freeHead with
  | none => simp [hh] at ht
  | some slot =>
    rw [hh] at hl
    cases free with
    | nil => simp [Linked] at hl
    | cons k rest =>
      obtain ⟨rfl, next, hk, hrest⟩ := hl
      simp only [hh, hk, Except.ok.injEq, Prod.mk.injEq] at ht
      obtain ⟨rfl, rfl⟩ := ht
      obtain ⟨hnotMem, hnd⟩ := List.nodup_cons.1 hnd
      exact ⟨_, rfl, ⟨rest, hnd, hrest.set hnotMem _, by simp⟩, rfl⟩

/-- A new batch is what came next anyway. -/
theorem Supplies.grow (h : p.Supplies l) (hh : p.freeHead = none) (hg : p.grow = .ok q) :
    q.Supplies l ∧ q.size = p.size := by
  obtain ⟨free, -, hl, rfl⟩ := h
  obtain rfl : free = [] := by
    rw [hh] at hl
    cases free with
    | nil => rfl
    | cons => exact hl.elim
  have hasc := (grow_ok hg).1.2
  simp only [Pool.grow] at hg
  generalize hcount : min poolBatch (p.maxSlots - p.slots.size) = count at hg
  split at hg
  · cases hg
  · have hle : count ≤ p.maxSlots - p.slots.size := hcount ▸ Nat.min_le_right _ _
    obtain rfl := (Except.ok.inj hg).symm
    refine ⟨⟨_, List.nodup_range', hasc, ?_⟩, rfl⟩
    simp only [capacity, Array.size_append, Array.size_ofFn, List.nil_append,
      Nat.add_sub_cancel_left]
    rw [show p.maxSlots - (p.slots.size + count) = p.maxSlots - p.slots.size - count by omega,
      List.range'_append_1, Nat.add_sub_cancel' hle]

theorem Supplies.alloc (h : p.Supplies l) (ha : p.alloc value = .ok (i, q)) :
    ∃ rest, l = i :: rest ∧ q.Supplies rest ∧ q.size = p.size + 1 := by
  unfold Pool.alloc at ha
  split at ha
  · exact h.take ha
  next hh =>
    cases hg : p.grow with
    | error e => simp [hg, Bind.bind, Except.bind] at ha
    | ok r =>
      rw [hg] at ha
      obtain ⟨hr, hsize⟩ := h.grow hh hg
      rw [← hsize]
      exact hr.take ha

theorem Supplies.dealloc (h : p.Supplies l) (hd : p.dealloc i = some (value, q)) :
    q.Supplies (i :: l) ∧ q.size = p.size - 1 := by
  obtain ⟨free, hnd, hl, rfl⟩ := h
  have hi := get?_eq_some.1 (get?_of_dealloc hd)
  obtain ⟨hlt, -⟩ := Array.getElem?_eq_some_iff.1 hi
  simp only [Pool.dealloc, hi, Option.some.injEq, Prod.mk.injEq, true_and] at hd
  subst hd
  have hnotMem := hl.notMem_of_live hi
  refine ⟨⟨i :: free, List.nodup_cons.2 ⟨hnotMem, hnd⟩, ⟨rfl, p.freeHead, ?_, hl.set hnotMem _⟩,
    by simp⟩, rfl⟩
  simp [hlt]

theorem Supplies.write (h : p.Supplies l) (hw : p.write i value = .ok q) :
    q.Supplies l ∧ q.size = p.size := by
  obtain ⟨free, hnd, hl, rfl⟩ := h
  obtain ⟨old, hold⟩ := get?_of_write hw
  have hi := get?_eq_some.1 hold
  simp only [Pool.write, Pool.set?, hi, Except.ok.injEq] at hw
  subst hw
  exact ⟨⟨free, hnd, hl.set (hl.notMem_of_live hi) _, by simp⟩, rfl⟩

/-! ### Both pools -/

/-- The pools hold the same, and one hands out what the other does, as long as both have room. If
`D` holds, they are equal. -/
structure Matches (D : Prop) (p q : Pool α) : Prop where
  eq : D → p = q
  size : p.size = q.size
  get? : ∀ i, p.get? i = q.get? i
  supply : ∃ l m, p.Supplies l ∧ q.Supplies m ∧ (l <+: m ∨ m <+: l)

theorem Matches.read_eq (h : Matches D p q) (i : Nat) : p.read i = q.read i := by
  rw [read, h.get?, ← read]

theorem matches_withMaxSlots {maxSlots maxSlots' : Nat} (h : D → maxSlots = maxSlots') :
    Matches D (withMaxSlots maxSlots : Pool α) (withMaxSlots maxSlots') where
  eq hD := by rw [h hD]
  size := rfl
  get? i := by rw [get?_withMaxSlots, get?_withMaxSlots]
  supply := by
    have hrange {j k : Nat} (hle : j ≤ k) : List.range' 0 j <+: List.range' 0 k := by
      obtain ⟨d, rfl⟩ := Nat.exists_eq_add_of_le hle
      exact ⟨_, List.range'_append_1⟩
    refine ⟨_, _, supplies_withMaxSlots _, supplies_withMaxSlots _, ?_⟩
    rcases Nat.le_total (min maxSlots maxOffset) (min maxSlots' maxOffset) with hle | hle
    · exact .inl (hrange hle)
    · exact .inr (hrange hle)

/-- A change of the same slot in both pools. -/
theorem Changed.get?_eq {content : Option α} (hp : p.Changed p' i content)
    (hq : q.Changed q' i content) (h : ∀ j, p.get? j = q.get? j) (j : Nat) :
    p'.get? j = q'.get? j := by
  by_cases hj : j = i
  · rw [hj, hp.1, hq.1]
  · rw [hp.2 j hj, hq.2 j hj, h j]

/-- Both pools hand out the same slot, unless one of them is full. -/
theorem Matches.alloc (h : Matches D p q) (value : α) :
    Answers D (fun a b => a.1 = b.1 ∧ Matches D a.2 b.2) (p.alloc value) (q.alloc value) := by
  refine .of (fun hD => by rw [h.eq hD]) ?_
  rintro ⟨i, p'⟩ ⟨j, q'⟩ hp hq heq
  obtain ⟨l, m, hl, hm, hpre⟩ := h.supply
  obtain ⟨rest, rfl, hrest, hsize⟩ := hl.alloc hp
  obtain ⟨rest', rfl, hrest', hsize'⟩ := hm.alloc hq
  have hsame : i = j ∧ (rest <+: rest' ∨ rest' <+: rest) := by
    simp only [List.cons_prefix_cons] at hpre
    rcases hpre with ⟨rfl, hrests⟩ | ⟨rfl, hrests⟩
    · exact ⟨rfl, .inl hrests⟩
    · exact ⟨rfl, .inr hrests⟩
  obtain ⟨rfl, hrests⟩ := hsame
  have hchanged := (hl.sound.alloc hp).2.2
  have hchanged' := (hm.sound.alloc hq).2.2
  exact ⟨rfl, fun hD => (Prod.mk.inj (heq hD)).2, by rw [hsize, hsize', h.size],
    hchanged.get?_eq hchanged' h.get?, _, _, hrest, hrest', hrests⟩

/-- A slot is freed in both pools, or in none. -/
theorem Matches.dealloc (h : Matches D p q) (i : Nat) :
    p.dealloc i = none ∧ q.dealloc i = none ∨ ∃ value p' q',
      p.dealloc i = some (value, p') ∧ q.dealloc i = some (value, q') ∧ Matches D p' q' := by
  obtain ⟨l, m, hl, hm, hpre⟩ := h.supply
  cases hi : p.get? i with
  | none =>
    have hnone {r : Pool α} (hr : r.get? i = none) : r.dealloc i = none := by
      cases hd : r.dealloc i with
      | none => rfl
      | some d =>
        obtain ⟨value, r'⟩ := d
        rw [get?_of_dealloc hd] at hr
        cases hr
    exact .inl ⟨hnone hi, hnone (h.get? i ▸ hi)⟩
  | some value =>
    obtain ⟨p', hp⟩ := dealloc_of_get? hi
    obtain ⟨q', hq⟩ := dealloc_of_get? (h.get? i ▸ hi)
    refine .inr ⟨value, p', q', hp, hq, fun hD => ?_, ?_, ?_, ?_⟩
    · have heq := h.eq hD
      subst heq
      rw [hp] at hq
      exact (Prod.mk.inj (Option.some.inj hq)).2
    · rw [(hl.dealloc hp).2, (hm.dealloc hq).2, h.size]
    · exact (hl.sound.dealloc hp).2.get?_eq (hm.sound.dealloc hq).2 h.get?
    · refine ⟨_, _, (hl.dealloc hp).1, (hm.dealloc hq).1, ?_⟩
      simpa only [List.cons_prefix_cons, true_and] using hpre

/-- A slot is overwritten in both pools, or in none. -/
theorem Matches.write (h : Matches D p q) (i : Nat) (value : α) :
    Answers D (Matches D) (p.write i value) (q.write i value) := by
  obtain ⟨l, m, hl, hm, hpre⟩ := h.supply
  refine .of (fun hD => by rw [h.eq hD]) fun p' q' hp hq heq => ?_
  obtain ⟨old, hold⟩ := get?_of_write hp
  refine ⟨heq, ?_, ?_, _, _, (hl.write hp).1, (hm.write hq).1, hpre⟩
  · rw [(hl.write hp).2, (hm.write hq).2, h.size]
  · obtain ⟨p₁, hp₁, -, hchanged⟩ := hl.sound.write hold value
    obtain ⟨q₁, hq₁, -, hchanged'⟩ := hm.sound.write (h.get? i ▸ hold) value
    obtain rfl : p₁ = p' := Except.ok.inj (hp₁.symm.trans hp)
    obtain rfl : q₁ = q' := Except.ok.inj (hq₁.symm.trans hq)
    exact hchanged.get?_eq hchanged' h.get?

end Pool

/-! ### Trees -/

namespace Tree

open Tie

variable {D : Prop} {t u : Tree} {id : ExprId} {ids : List ExprId}

/-- The trees hold the same, and go on to hand out the same handles as long as both have room. -/
structure Matches (D : Prop) (t u : Tree) : Prop where
  exprs : t.exprs.Matches D u.exprs
  stmts : t.stmts.Matches D u.stmts
  exprLists : t.exprLists = u.exprLists
  stmtLists : t.stmtLists = u.stmtLists

namespace Matches

theorem eq (h : Matches D t u) (hD : D) : t = u := by
  obtain ⟨hexprs, hstmts, hel, hsl⟩ := h
  cases t
  cases u
  simp only at hel hsl
  rw [mk.injEq]
  exact ⟨hexprs.eq hD, hstmts.eq hD, hel, hsl⟩

theorem expr_eq (h : Matches D t u) (id : ExprId) : t.expr id = u.expr id := h.exprs.read_eq id.slot

theorem stmt_eq (h : Matches D t u) (id : StmtId) : t.stmt id = u.stmt id := h.stmts.read_eq id.slot

theorem exprList_eq (h : Matches D t u) (r : ListRange) : t.exprList r = u.exprList r := by
  rw [exprList, h.exprLists, ← exprList]

theorem stmtList_eq (h : Matches D t u) (r : ListRange) : t.stmtList r = u.stmtList r := by
  rw [stmtList, h.stmtLists, ← stmtList]

theorem exprChildren_eq (h : Matches D t u) (k : ExprKind) :
    t.exprChildren k = u.exprChildren k := by
  cases k <;> simp only [exprChildren, h.exprList_eq]

theorem stmtChildren_eq (h : Matches D t u) (k : StmtKind) :
    t.stmtChildren k = u.stmtChildren k := by
  unfold stmtChildren
  split <;> simp only [h.stmtList_eq]

/-! ### Growth -/

theorem addExpr (h : Matches D t u) (e : Expr) :
    Answers D (fun a b => a.1 = b.1 ∧ Matches D a.2 b.2) (t.addExpr e) (u.addExpr e) := by
  refine (h.exprs.alloc e).bind ?_
  rintro ⟨i, p⟩ ⟨j, q⟩ ⟨hij, hpq⟩
  exact .ok ⟨congrArg ExprId.mk hij, { h with exprs := hpq }⟩

theorem addStmt (h : Matches D t u) (s : Stmt) :
    Answers D (fun a b => a.1 = b.1 ∧ Matches D a.2 b.2) (t.addStmt s) (u.addStmt s) := by
  refine (h.stmts.alloc s).bind ?_
  rintro ⟨i, p⟩ ⟨j, q⟩ ⟨hij, hpq⟩
  exact .ok ⟨congrArg StmtId.mk hij, { h with stmts := hpq }⟩

theorem addExprList (h : Matches D t u) (ids : List ExprId) :
    (t.addExprList ids).1 = (u.addExprList ids).1 ∧
      Matches D (t.addExprList ids).2 (u.addExprList ids).2 := by
  unfold Tree.addExprList
  rw [h.exprLists]
  exact ⟨rfl, { h with exprLists := rfl }⟩

theorem addStmtList (h : Matches D t u) (ids : List StmtId) :
    (t.addStmtList ids).1 = (u.addStmtList ids).1 ∧
      Matches D (t.addStmtList ids).2 (u.addStmtList ids).2 := by
  unfold Tree.addStmtList
  rw [h.stmtLists]
  exact ⟨rfl, { h with stmtLists := rfl }⟩

theorem setExpr (h : Matches D t u) (id : ExprId) (e : Expr) :
    Answers D (Matches D) (t.setExpr id e) (u.setExpr id e) :=
  (h.exprs.write id.slot e).bind fun _ _ hpq => .ok { h with exprs := hpq }

/-! ### Release -/

theorem free (h : Matches D t u) (id : NodeId) :
    t.free id = none ∧ u.free id = none ∨ ∃ children t' u',
      t.free id = some (children, t') ∧ u.free id = some (children, u') ∧ Matches D t' u' := by
  cases id with
  | expr id =>
    rcases h.exprs.dealloc id.slot with ⟨ht, hu⟩ | ⟨e, p, q, ht, hu, hpq⟩
    · exact .inl ⟨by simp [Tree.free, ht], by simp [Tree.free, hu]⟩
    · refine .inr ⟨u.exprChildren e.kind, { t with exprs := p }, { u with exprs := q }, ?_, ?_,
        { h with exprs := hpq }⟩
      · simp [Tree.free, ht, h.exprChildren_eq]
      · simp [Tree.free, hu]
  | stmt id =>
    rcases h.stmts.dealloc id.slot with ⟨ht, hu⟩ | ⟨s, p, q, ht, hu, hpq⟩
    · exact .inl ⟨by simp [Tree.free, ht], by simp [Tree.free, hu]⟩
    · refine .inr ⟨u.stmtChildren s.kind, { t with stmts := p }, { u with stmts := q }, ?_, ?_,
        { h with stmts := hpq }⟩
      · simp [Tree.free, ht, h.stmtChildren_eq]
      · simp [Tree.free, hu]

/-- The same nodes are freed in both trees. -/
theorem releaseAll (h : Matches D t u) (k : Nat) (work : List NodeId) :
    Matches D (t.releaseAll k work).2 (u.releaseAll k work).2 := by
  induction t, k, work using Tree.releaseAll.induct generalizing u with
  | case1 t k =>
    rw [Tree.releaseAll, Tree.releaseAll]
    exact h
  | case2 t k id work children t' hf ih =>
    rcases h.free id with ⟨ht, -⟩ | ⟨_, _, u', ht, hu, h'⟩
    · rw [hf] at ht
      cases ht
    · rw [hf] at ht
      cases ht
      rw [releaseAll_of_some hf, releaseAll_of_some hu]
      exact ih h'
  | case3 t k id work hf ih =>
    rcases h.free id with ⟨-, hu⟩ | ⟨_, _, u', ht, -, -⟩
    · rw [releaseAll_of_none hf, releaseAll_of_none hu]
      exact ih h
    · rw [hf] at ht
      cases ht

theorem replaceExpr (h : Matches D t u) (id : ExprId) (e : Expr) :
    Answers D (fun a b => Matches D a.2 b.2) (t.replaceExpr id e) (u.replaceExpr id e) := by
  unfold Tree.replaceExpr
  rw [h.expr_eq]
  cases u.expr id with
  | error f => exact .refused
  | ok old =>
    refine (h.setExpr id e).bind fun t' u' h' => .ok ?_
    rw [h'.exprChildren_eq]
    exact h'.releaseAll _ _

end Matches

theorem matches_withMaxSlots {maxSlots maxSlots' : Nat} (h : D → maxSlots = maxSlots') :
    Matches D (withMaxSlots maxSlots) (withMaxSlots maxSlots') :=
  ⟨Pool.matches_withMaxSlots h, Pool.matches_withMaxSlots h, rfl, rfl⟩

end Tree

end FrontEnd
