import FrontEnd.Proofs.Syntax.Branch

/-! Every operation on a tree, told by what it does to the forests that the tree holds. -/

namespace FrontEnd

namespace Tree

variable {t u : Tree} {b c x : Branch} {bs cs xs ys zs : List Branch} {id : NodeId} {n m : Node}

theorem sound_withMaxSlots (maxSlots : Nat) : (withMaxSlots maxSlots).Sound :=
  ⟨Pool.sound_withMaxSlots _, Pool.sound_withMaxSlots _⟩

/-- A tree of expressions alone, in the order of their slots. -/
def ofExprs (exprs : List Expr) : Tree :=
  { exprs := ⟨(exprs.map Slot.live).toArray, none, exprs.length, exprs.length⟩
    stmts := Pool.withMaxSlots 0, exprLists := #[], stmtLists := #[] }

theorem sound_ofExprs (exprs : List Expr) : (ofExprs exprs).Sound :=
  ⟨⟨[], List.nodup_nil, trivial⟩, Pool.sound_withMaxSlots 0⟩

/-! ### New nodes -/

theorem places_exprs {exprs : Pool Expr} {id : ExprId} {content : Option Expr} (h : t.Sound)
    (hs : exprs.Sound) (hc : t.exprs.Changed exprs id.slot content) :
    t.Places (.expr id) (content.map .expr) { t with exprs } := by
  obtain ⟨hi, hj⟩ := hc
  refine ⟨⟨hs, h.2⟩, by simp [node?, hi], fun j hne => ?_, rfl, rfl⟩
  cases j with
  | stmt j => rfl
  | expr j =>
    have : j.slot ≠ id.slot := by
      intro he
      apply hne
      cases j
      cases id
      simp_all
    simp [node?, hj _ this]

theorem places_stmts {stmts : Pool Stmt} {id : StmtId} {content : Option Stmt} (h : t.Sound)
    (hs : stmts.Sound) (hc : t.stmts.Changed stmts id.slot content) :
    t.Places (.stmt id) (content.map .stmt) { t with stmts } := by
  obtain ⟨hi, hj⟩ := hc
  refine ⟨⟨h.1, hs⟩, by simp [node?, hi], fun j hne => ?_, rfl, rfl⟩
  cases j with
  | expr j => rfl
  | stmt j =>
    have : j.slot ≠ id.slot := by
      intro he
      apply hne
      cases j
      cases id
      simp_all
    simp [node?, hj _ this]

theorem Sound.addExpr {e : Expr} {id : ExprId} (h : t.Sound) (ha : t.addExpr e = .ok (id, u)) :
    t.node? (.expr id) = none ∧ t.Places (.expr id) (some (.expr e)) u := by
  unfold Tree.addExpr at ha
  cases hp : t.exprs.alloc e with
  | error f => simp [hp, Bind.bind, Except.bind] at ha
  | ok r =>
    obtain ⟨slot, exprs⟩ := r
    simp only [hp, Bind.bind, Except.bind, Pure.pure, Except.pure, Except.ok.injEq,
      Prod.mk.injEq] at ha
    obtain ⟨rfl, rfl⟩ := ha
    obtain ⟨hs, hfree, hc⟩ := h.1.alloc hp
    exact ⟨by simp [node?, hfree], places_exprs h hs hc⟩

theorem Sound.addStmt {s : Stmt} {id : StmtId} (h : t.Sound) (ha : t.addStmt s = .ok (id, u)) :
    t.node? (.stmt id) = none ∧ t.Places (.stmt id) (some (.stmt s)) u := by
  unfold Tree.addStmt at ha
  cases hp : t.stmts.alloc s with
  | error f => simp [hp, Bind.bind, Except.bind] at ha
  | ok r =>
    obtain ⟨slot, stmts⟩ := r
    simp only [hp, Bind.bind, Except.bind, Pure.pure, Except.pure, Except.ok.injEq,
      Prod.mk.injEq] at ha
    obtain ⟨rfl, rfl⟩ := ha
    obtain ⟨hs, hfree, hc⟩ := h.2.alloc hp
    exact ⟨by simp [node?, hfree], places_stmts h hs hc⟩

/-- A new expression takes its children into one branch. -/
theorem Holds.addExpr {e : Expr} {id : ExprId} (h : t.Holds (xs ++ bs))
    (ha : t.addExpr e = .ok (id, u)) (hc : t.Covers (.expr e))
    (hch : t.children (.expr e) = xs.map Branch.root) :
    u.Holds (⟨.expr id, .expr e, xs⟩ :: bs) := by
  obtain ⟨hfree, hp⟩ := h.sound.addExpr ha
  exact h.closed (h.notMem_roots hfree) hp hc hch

theorem Holds.addStmt {s : Stmt} {id : StmtId} (h : t.Holds (xs ++ bs))
    (ha : t.addStmt s = .ok (id, u)) (hc : t.Covers (.stmt s))
    (hch : t.children (.stmt s) = xs.map Branch.root) :
    u.Holds (⟨.stmt id, .stmt s, xs⟩ :: bs) := by
  obtain ⟨hfree, hp⟩ := h.sound.addStmt ha
  exact h.closed (h.notMem_roots hfree) hp hc hch

theorem Holds.addExprList (h : t.Holds bs) (ids : List ExprId) : (t.addExprList ids).2.Holds bs :=
  h.lists rfl rfl ⟨ids.toArray, Array.ext' (by simp [Tree.addExprList])⟩
    ⟨#[], by simp [Tree.addExprList]⟩

theorem Holds.addStmtList (h : t.Holds bs) (ids : List StmtId) : (t.addStmtList ids).2.Holds bs :=
  h.lists rfl rfl ⟨#[], by simp [Tree.addStmtList]⟩
    ⟨ids.toArray, Array.ext' (by simp [Tree.addStmtList])⟩

theorem exprList_addExprList (t : Tree) (ids : List ExprId) :
    (t.addExprList ids).2.exprList (t.addExprList ids).1 = ids := by
  simp [Tree.addExprList, exprList]

theorem stmtList_addStmtList (t : Tree) (ids : List StmtId) :
    (t.addStmtList ids).2.stmtList (t.addStmtList ids).1 = ids := by
  simp [Tree.addStmtList, stmtList]

/-! ### Changed nodes -/

theorem Sound.setExpr {id : ExprId} {e : Expr} (h : t.Sound) (hs : t.setExpr id e = .ok u) :
    t.Places (.expr id) (some (.expr e)) u := by
  unfold Tree.setExpr at hs
  cases hw : t.exprs.write id.slot e with
  | error f => simp [hw, Bind.bind, Except.bind] at hs
  | ok exprs =>
    simp only [hw, Bind.bind, Except.bind, Pure.pure, Except.pure, Except.ok.injEq] at hs
    subst hs
    obtain ⟨old, hold⟩ := Pool.get?_of_write hw
    obtain ⟨q, hq, hs, hc⟩ := h.1.write hold e
    obtain rfl := Except.ok.inj (hw.symm.trans hq)
    exact places_exprs h hs hc

/-- A changed node may give up its children and get others. -/
theorem Holds.rewritten (h : t.Holds (⟨id, n, xs⟩ :: bs)) (hx : (xs ++ bs).Perm (zs ++ cs))
    (hp : t.Places id (some m) u) (hc : t.Covers m) (hch : t.children m = zs.map Branch.root) :
    u.Holds (⟨id, m, zs⟩ :: cs) := by
  obtain ⟨hopen, hid⟩ := h.opened
  refine (hopen.perm hx).closed ?_ hp hc hch
  intro hm
  exact hid ((((Branch.allIn_perm hx).map _).mem_iff).2 hm)

theorem Holds.places {id : ExprId} {old : Expr} (h : t.Holds (⟨.expr id, .expr old, xs⟩ :: bs))
    (e : Expr) : ∃ u, t.setExpr id e = .ok u ∧ t.Places (.expr id) (some (.expr e)) u := by
  have hold := Pool.read_eq_ok.1 h.expr
  obtain ⟨exprs, hw, -⟩ := h.sound.1.write hold e
  have hset : t.setExpr id e = .ok { t with exprs } := by
    simp [setExpr, hw, Bind.bind, Except.bind, Pure.pure, Except.pure]
  exact ⟨_, hset, h.sound.setExpr hset⟩

/-! ### Release -/

theorem Sound.free {children : List NodeId} (h : t.Sound) (hf : t.free id = some (children, u)) :
    u.Sound := by
  cases id with
  | expr id =>
    obtain ⟨⟨e, exprs⟩, hd, he⟩ := Option.map_eq_some_iff.1 hf
    simp only [Prod.mk.injEq] at he
    obtain ⟨-, rfl⟩ := he
    exact ⟨(h.1.dealloc hd).1, h.2⟩
  | stmt id =>
    obtain ⟨⟨s, stmts⟩, hd, he⟩ := Option.map_eq_some_iff.1 hf
    simp only [Prod.mk.injEq] at he
    obtain ⟨-, rfl⟩ := he
    exact ⟨h.1, (h.2.dealloc hd).1⟩

theorem releaseAll_of_some {children work : List NodeId}
    (h : t.free id = some (children, u)) (k : Nat) :
    t.releaseAll k (id :: work) = u.releaseAll (k + 1) (children ++ work) := by
  rw [releaseAll]
  split
  next hf =>
    rw [h] at hf
    cases hf
    rfl
  next hf =>
    rw [h] at hf
    cases hf

theorem releaseAll_of_none {work : List NodeId} (h : t.free id = none) (k : Nat) :
    t.releaseAll k (id :: work) = t.releaseAll k work := by
  rw [releaseAll]
  split
  next hf =>
    rw [h] at hf
    cases hf
  next => rfl

theorem Sound.releaseAll (h : t.Sound) (k : Nat) (work : List NodeId) :
    (t.releaseAll k work).2.Sound := by
  induction t, k, work using releaseAll.induct with
  | case1 t k =>
    rw [Tree.releaseAll]
    exact h
  | case2 t k id work children u hf ih =>
    rw [releaseAll_of_some hf]
    exact ih (h.free hf)
  | case3 t k id work hf ih =>
    rw [releaseAll_of_none hf]
    exact ih h

theorem Sound.replaceExpr {id : ExprId} {e : Expr} {r : Nat × Tree} (h : t.Sound)
    (hr : t.replaceExpr id e = .ok r) : r.2.Sound := by
  unfold Tree.replaceExpr at hr
  cases he : t.expr id with
  | error f => simp [he, Bind.bind, Except.bind] at hr
  | ok old =>
    cases hs : t.setExpr id e with
    | error f => simp [he, hs, Bind.bind, Except.bind] at hr
    | ok v =>
      simp only [he, hs, Bind.bind, Except.bind, Pure.pure, Except.pure, Except.ok.injEq] at hr
      subst hr
      exact (h.setExpr hs).sound.releaseAll 0 _

theorem Holds.free (h : t.Holds (⟨id, n, xs⟩ :: bs)) :
    ∃ u, t.free id = some ((t.children n).reverse, u) ∧ u.Holds (xs ++ bs) ∧
      t.Places id none u := by
  obtain ⟨hopen, hid⟩ := h.opened
  have hn := h.root.node
  cases id with
  | expr id =>
    obtain ⟨e, he, rfl⟩ := Option.map_eq_some_iff.1 hn
    obtain ⟨exprs, hd⟩ := Pool.dealloc_of_get? he
    obtain ⟨hs, hc⟩ := h.sound.1.dealloc hd
    have hp := places_exprs h.sound hs hc
    exact ⟨{ t with exprs }, by simp [Tree.free, hd, children], hopen.elsewhere hid hp, hp⟩
  | stmt id =>
    obtain ⟨s, hs', rfl⟩ := Option.map_eq_some_iff.1 hn
    obtain ⟨stmts, hd⟩ := Pool.dealloc_of_get? hs'
    obtain ⟨hs, hc⟩ := h.sound.2.dealloc hd
    have hp := places_stmts h.sound hs hc
    exact ⟨{ t with stmts }, by simp [Tree.free, hd, children], hopen.elsewhere hid hp, hp⟩

/-- Branches are released node by node: one is freed, and its parts join those that wait. -/
theorem Holds.releaseAll_induct {P : Tree → List Branch → Tree → Prop}
    (nil : ∀ t, t.Holds bs → P t [] t)
    (cons : ∀ t u v id n parts xs children, t.Holds (⟨id, n, parts⟩ :: (xs ++ bs)) →
      t.free id = some (children, u) → t.Places id none u →
      u.Holds ((parts.reverse ++ xs) ++ bs) → P u (parts.reverse ++ xs) v →
      P t (⟨id, n, parts⟩ :: xs) v)
    (h : t.Holds (xs ++ bs)) (k : Nat) : P t xs (t.releaseAll k (xs.map Branch.root)).2 := by
  induction hn : (Branch.allIn xs).length using Nat.strongRecOn generalizing t xs k with
  | ind size ih =>
    cases xs with
    | nil =>
      rw [List.map_nil, Tree.releaseAll]
      exact nil t h
    | cons x xs =>
      obtain ⟨id, n, parts⟩ := x
      rw [List.cons_append] at h
      obtain ⟨u, hfree, hu, hp⟩ := h.free
      have hchildren : (t.children n).reverse = parts.reverse.map Branch.root := by
        rw [h.root.children, List.map_reverse]
      have hrest : u.Holds ((parts.reverse ++ xs) ++ bs) := by
        refine hu.perm ?_
        simp only [List.append_assoc]
        exact (List.reverse_perm parts).symm.append_right _
      have hlen : (Branch.allIn (parts.reverse ++ xs)).length < size := by
        have := (Branch.allIn_perm (List.reverse_perm parts)).length_eq
        simp only [Branch.allIn_cons, Branch.all_mk, List.length_append, List.length_cons] at hn
        simp only [Branch.allIn_append, List.length_append]
        omega
      rw [List.map_cons, releaseAll_of_some hfree, hchildren, ← List.map_append]
      exact cons _ _ _ _ _ _ _ _ h hfree hp hrest (ih _ hlen hrest _ rfl)

/-- Released branches leave the others alone. -/
theorem Holds.releaseAll (h : t.Holds (xs ++ bs)) (k : Nat) :
    (t.releaseAll k (xs.map Branch.root)).2.Holds bs :=
  h.releaseAll_induct (P := fun _ _ u => u.Holds bs) (fun _ h => h)
    (fun _ _ _ _ _ _ _ _ _ _ _ _ hv => hv) k

theorem Holds.release (h : t.Holds (x :: bs)) : (t.release x.root).2.Holds bs := by
  have : t.Holds ([x] ++ bs) := h
  exact this.releaseAll 0

end Tree

/-! ### Size -/

namespace Branch

variable {b : Branch} {bs xs : List Branch} {id : NodeId} {n : Node}

/-- Number of expressions in a forest. -/
def exprCount (bs : List Branch) : Nat :=
  (allIn bs).countP fun b => b.root matches .expr _

@[simp] theorem exprCount_nil : exprCount [] = 0 := by simp [exprCount]

theorem exprCount_cons : exprCount (b :: bs) = exprCount [b] + exprCount bs := by
  simp [exprCount]

theorem exprCount_expr {id : ExprId} : exprCount [⟨.expr id, n, xs⟩] = exprCount xs + 1 := by
  simp [exprCount, all_mk]

theorem exprCount_mem (h : b ∈ bs) : exprCount [b] ≤ exprCount bs := by
  induction bs with
  | nil => simp at h
  | cons c bs ih =>
    have hc : exprCount (c :: bs) = exprCount [c] + exprCount bs := exprCount_cons
    rcases List.mem_cons.1 h with rfl | h
    · omega
    · have := ih h
      omega

end Branch

/-- The slot of an expression. -/
def NodeId.exprSlot? : NodeId → Option Nat
  | .expr id => some id.slot
  | .stmt _ => none

namespace Tree

variable {t : Tree} {bs : List Branch}

/-- All expressions of a forest have slots of their own. -/
theorem Holds.exprCount_le (h : t.Holds bs) : Branch.exprCount bs ≤ t.exprs.capacity := by
  have hcount : Branch.exprCount bs = ((Branch.roots bs).filterMap NodeId.exprSlot?).length := by
    rw [Branch.exprCount, Branch.roots, List.filterMap_map]
    induction Branch.allIn bs with
    | nil => rfl
    | cons b l ih =>
      obtain ⟨root, n, parts⟩ := b
      cases root <;> simp [List.filterMap_cons, NodeId.exprSlot?, ih]
  have hnd : ((Branch.roots bs).filterMap NodeId.exprSlot?).Nodup := by
    refine List.Pairwise.filterMap NodeId.exprSlot? (fun a a' hne s hs s' hs' hss => hne ?_) h.apart
    cases a with
    | stmt a => simp [NodeId.exprSlot?] at hs
    | expr a =>
      cases a' with
      | stmt a' => simp [NodeId.exprSlot?] at hs'
      | expr a' =>
        cases a
        cases a'
        simp_all [NodeId.exprSlot?]
  rw [hcount]
  have hsub : (Branch.roots bs).filterMap NodeId.exprSlot? ⊆ List.range t.exprs.capacity := by
    intro s hs
    obtain ⟨a, ha, has⟩ := List.mem_filterMap.1 hs
    obtain ⟨b, hb, rfl⟩ := List.mem_map.1 ha
    have hn := (h.stores b hb).node
    cases hr : b.root with
    | stmt a => simp [hr, NodeId.exprSlot?] at has
    | expr a =>
      rw [hr] at hn has
      obtain ⟨e, he, -⟩ := Option.map_eq_some_iff.1 hn
      simp only [NodeId.exprSlot?, Option.some.injEq] at has
      rw [List.mem_range, ← has]
      exact Pool.lt_capacity he
  simpa using hnd.length_le_of_subset hsub

end Tree

end FrontEnd
