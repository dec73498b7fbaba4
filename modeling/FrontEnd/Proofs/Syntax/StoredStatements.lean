import FrontEnd.Proofs.Syntax.Forest

/-! What leaves the stored statements as they are. -/

namespace FrontEnd

namespace Tree

variable {t u v : Tree} {among : ExprId → Prop} {id : ExprId} {e : Expr}

/-- Statements of `t` are in `u` as they are. -/
def Remains (t u : Tree) : Prop :=
  ∀ id node, t.node? (.stmt id) = some node → u.node? (.stmt id) = some node

theorem Remains.refl (t : Tree) : t.Remains t := fun _ _ h => h

theorem Remains.trans (h : t.Remains u) (h' : u.Remains v) : t.Remains v :=
  fun id node hn => h' id node (h id node hn)

theorem remains_of_stmts (h : u.stmts = t.stmts) : t.Remains u := fun id node hn => by
  simpa only [node?, h] using hn

/-- A new statement takes the place of none. -/
theorem Sound.remains_addStmt {s : Stmt} {id : StmtId} (h : t.Sound)
    (ha : t.addStmt s = .ok (id, u)) : t.Remains u := by
  intro j node hn
  obtain ⟨hfree, hp⟩ := h.addStmt ha
  rw [hp.elsewhere _ fun he => ?_]
  · exact hn
  · rw [he, hfree] at hn
    cases hn

theorem stmts_addExpr (h : t.addExpr e = .ok (id, u)) : u.stmts = t.stmts := by
  unfold addExpr at h
  cases ha : t.exprs.alloc e with
  | error f => simp [ha, Bind.bind, Except.bind] at h
  | ok r =>
    rw [ha] at h
    cases h
    rfl

theorem stmts_setExpr (h : t.setExpr id e = .ok u) : u.stmts = t.stmts := by
  unfold setExpr at h
  cases hw : t.exprs.write id.slot e with
  | error f => simp [hw, Bind.bind, Except.bind] at h
  | ok exprs =>
    rw [hw] at h
    cases h
    rfl

/-! ### Release of expressions without statements -/

/-- Expressions below which there are only others of them. -/
def Closed (t : Tree) (among : ExprId → Prop) : Prop :=
  ∀ id, among id → ∀ e, t.expr id = .ok e → ∀ child ∈ t.exprChildren e.kind,
    ∃ j, child = .expr j ∧ among j

theorem Closed.free {children : List NodeId} (h : t.Closed among) (hs : t.Sound)
    (hid : among id) (hf : t.free (.expr id) = some (children, u)) :
    u.Closed among ∧ u.stmts = t.stmts ∧ ∀ child ∈ children, ∃ j, child = .expr j ∧ among j := by
  obtain ⟨⟨e, exprs⟩, hd, heq⟩ := Option.map_eq_some_iff.1 hf
  cases heq
  refine ⟨fun j hj x hx child hchild => h j hj x ?_ child hchild, rfl,
    h id hid e (Pool.read_eq_ok.2 (Pool.get?_of_dealloc hd))⟩
  have hlive : exprs.get? j.slot = some x := Pool.read_eq_ok.1 hx
  obtain ⟨-, hgone, hsame⟩ := hs.1.dealloc hd
  refine Pool.read_eq_ok.2 ?_
  rw [← hsame j.slot fun he => ?_]
  · exact hlive
  · rw [he, hgone] at hlive
    cases hlive

/-- The release of such expressions ends with them. -/
theorem Closed.stmts_releaseAll {work : List NodeId} (h : t.Closed among) (hs : t.Sound)
    (hwork : ∀ id ∈ work, ∃ j, id = .expr j ∧ among j) (k : Nat) :
    (t.releaseAll k work).2.stmts = t.stmts := by
  induction t, k, work using releaseAll.induct with
  | case1 t k => rw [Tree.releaseAll]
  | case2 t k id work children u hf ih =>
    obtain ⟨⟨j, rfl, hj⟩, hrest⟩ := List.forall_mem_cons.1 hwork
    obtain ⟨hu, hstmts, hchildren⟩ := h.free hs hj hf
    rw [releaseAll_of_some hf, ih hu (hs.free hf) (List.forall_mem_append.2 ⟨hchildren, hrest⟩),
      hstmts]
  | case3 t k id work hf ih =>
    rw [releaseAll_of_none hf]
    exact ih h hs fun id hid => hwork id (List.mem_cons_of_mem _ hid)

/-- So does their replacement by an expression that has nothing below it. -/
theorem Closed.stmts_replaceExpr {r : Nat × Tree} (h : t.Closed among) (hs : t.Sound)
    (hid : among id) (he : ∀ u : Tree, u.exprChildren e.kind = [])
    (hr : t.replaceExpr id e = .ok r) : r.2.stmts = t.stmts := by
  unfold replaceExpr at hr
  cases hold : t.expr id with
  | error f => simp [hold, Bind.bind, Except.bind] at hr
  | ok old =>
    cases hset : t.setExpr id e with
    | error f => simp [hold, hset, Bind.bind, Except.bind] at hr
    | ok v =>
      simp only [hold, hset, Bind.bind, Except.bind, Pure.pure, Except.pure, Except.ok.injEq] at hr
      subst hr
      have hp := hs.setExpr hset
      have hlists (kind : ExprKind) : v.exprChildren kind = t.exprChildren kind := by
        have := hp.exprLists
        cases kind <;> simp [exprChildren, exprList, this]
      have hv : v.Closed among := fun j hj x hx child hchild => by
        by_cases hji : NodeId.expr j = .expr id
        · obtain rfl := NodeId.expr.inj hji
          have hx : v.node? (.expr j) = some (.expr x) := by
            simp [node?, Pool.read_eq_ok.1 hx]
          rw [hp.here] at hx
          cases hx
          rw [he] at hchild
          cases hchild
        · have hx : v.node? (.expr j) = some (.expr x) := by
            simp [node?, Pool.read_eq_ok.1 hx]
          rw [hp.elsewhere _ hji] at hx
          obtain ⟨y, hy, heq⟩ := Option.map_eq_some_iff.1 hx
          cases heq
          exact h j hj x (Pool.read_eq_ok.2 hy) child (hlists _ ▸ hchild)
      rw [hv.stmts_releaseAll hp.sound (hlists _ ▸ h id hid old hold), stmts_setExpr hset]

end Tree

end FrontEnd
