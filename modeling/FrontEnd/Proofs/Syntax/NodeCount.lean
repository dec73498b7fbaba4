import FrontEnd.Proofs.Syntax.Hole

/-!
The pools of a tree count their nodes. As long as nothing is lost, these are those of a forest, and
no others are live.
-/

namespace FrontEnd

namespace Pool

variable {α : Type} {p q : Pool α} {i : Nat} {value : α}

theorem size_take (h : p.take value = .ok (i, q)) : q.size = p.size + 1 := by
  unfold take at h
  split at h
  · cases h
  · cases h
    rfl

theorem size_grow (h : p.grow = .ok q) : q.size = p.size := by
  unfold grow at h
  dsimp only at h
  split at h
  · cases h
  · cases h
    rfl

theorem get?_take (h : p.take value = .ok (i, q)) {j : Nat} (hj : j ≠ i) :
    q.get? j = p.get? j := by
  unfold take at h
  split at h
  · cases h
  · cases h
    exact get?_of_slots (by simp [hj.symm])

theorem size_alloc (h : p.alloc value = .ok (i, q)) : q.size = p.size + 1 := by
  unfold alloc at h
  split at h
  · exact size_take h
  · cases hg : p.grow with
    | error e => simp [hg, Bind.bind, Except.bind] at h
    | ok r =>
      rw [hg] at h
      rw [← size_grow hg]
      exact size_take h

theorem get?_alloc (h : p.alloc value = .ok (i, q)) {j : Nat} (hj : j ≠ i) :
    q.get? j = p.get? j := by
  unfold alloc at h
  split at h
  · exact get?_take h hj
  · cases hg : p.grow with
    | error e => simp [hg, Bind.bind, Except.bind] at h
    | ok r =>
      rw [hg] at h
      exact (get?_take h hj).trans ((grow_ok hg).2.2 j)

theorem size_dealloc (h : p.dealloc i = some (value, q)) : q.size = p.size - 1 := by
  unfold dealloc at h
  split at h
  · cases h
    rfl
  · cases h

theorem get?_dealloc (h : p.dealloc i = some (value, q)) {j : Nat} {x : α}
    (hx : q.get? j = some x) : j ≠ i ∧ p.get? j = some x := by
  have hlt := lt_capacity (get?_of_dealloc h)
  unfold dealloc at h
  split at h
  · cases h
    have hj : j ≠ i := by
      rintro rfl
      have : j < p.slots.size := hlt
      simp [get?, this] at hx
    exact ⟨hj, hx ▸ (get?_of_slots (by simp [hj.symm])).symm⟩
  · cases h

theorem get?_write (h : p.write i value = .ok q) {j : Nat} (hj : j ≠ i) :
    q.get? j = p.get? j := by
  unfold write set? at h
  split at h
  · rename_i hs
    split at hs
    · cases h
      cases hs
      exact get?_of_slots (by simp [hj.symm])
    · cases hs
  · cases h

theorem size_write (h : p.write i value = .ok q) : q.size = p.size := by
  unfold write set? at h
  split at h
  · rename_i hs
    split at hs
    · cases h
      cases hs
      rfl
    · cases hs
  · cases h

theorem liveSlots_write (h : p.write i value = .ok q) : q.liveSlots = p.liveSlots := by
  unfold write set? at h
  split at h
  · rename_i hs
    split at hs
    · rename_i old hold
      cases h
      cases hs
      obtain ⟨hlt, hold⟩ := Array.getElem?_eq_some_iff.1 hold
      have hpos : 0 < p.slots.countP (·.value?.isSome) :=
        Array.countP_pos_iff.2 ⟨_, Array.getElem_mem hlt, by simp [hold]⟩
      simp only [liveSlots, Array.setIfInBounds, hlt, ↓reduceDIte, Array.countP_set, hold,
        Slot.value?_live, Option.isSome_some, ↓reduceIte]
      omega
    · cases hs
  · cases h

end Pool

/-- Whether a handle names an expression. -/
def NodeId.isExpr : NodeId → Bool
  | .expr _ => true
  | .stmt _ => false

@[simp] theorem NodeId.isExpr_expr (id : ExprId) : (expr id).isExpr = true := rfl

@[simp] theorem NodeId.isExpr_stmt (id : StmtId) : (stmt id).isExpr = false := rfl

namespace Tree

variable {t u v : Tree} {ids ids' : List NodeId} {id : NodeId} {b c : Branch}
  {bs cs ds xs : List Branch}

/-- The pools count as many nodes as there are handles. -/
structure Counts (t : Tree) (ids : List NodeId) : Prop where
  exprs : t.exprs.size = ids.countP NodeId.isExpr
  stmts : t.stmts.size = ids.countP (!·.isExpr)

/-- The pools hold these nodes and no others. -/
structure Comprises (t : Tree) (ids : List NodeId) : Prop where
  counts : t.Counts ids
  only : ∀ id node, t.node? id = some node → id ∈ ids

theorem comprises_withMaxSlots (maxSlots : Nat) : (withMaxSlots maxSlots).Comprises [] where
  counts := ⟨rfl, rfl⟩
  only id node hn := by cases id <;> simp [node?, withMaxSlots, Pool.get?_withMaxSlots] at hn

theorem Counts.perm (h : t.Counts ids) (hp : ids.Perm ids') : t.Counts ids' :=
  ⟨h.exprs.trans (hp.countP_eq _), h.stmts.trans (hp.countP_eq _)⟩

theorem Comprises.perm (h : t.Comprises ids) (hp : ids.Perm ids') : t.Comprises ids' :=
  ⟨h.counts.perm hp, fun id node hn => hp.mem_iff.1 (h.only id node hn)⟩

/-- Other tables with the same pools. -/
theorem Comprises.congr (h : t.Comprises ids) (he : u.exprs = t.exprs) (hs : u.stmts = t.stmts) :
    u.Comprises ids where
  counts := ⟨he ▸ h.counts.exprs, hs ▸ h.counts.stmts⟩
  only id node hn := h.only id node (by cases id <;> simpa [node?, he, hs] using hn)

/-- A forest became another one, and no node was lost. -/
structure Turns (t : Tree) (bs : List Branch) (u : Tree) (cs : List Branch) : Prop where
  holds : u.Holds cs
  counts : t.Comprises (Branch.roots bs) → u.Comprises (Branch.roots cs)

theorem Holds.turns (h : t.Holds bs) : t.Turns bs t bs := ⟨h, id⟩

theorem Turns.trans (h : t.Turns bs u cs) (h' : u.Turns cs v ds) : t.Turns bs v ds :=
  ⟨h'.holds, fun hc => h'.counts (h.counts hc)⟩

theorem Comprises.addExpr {e : Expr} {id : ExprId} (h : t.Comprises ids)
    (ha : t.addExpr e = .ok (id, u)) : u.Comprises (.expr id :: ids) := by
  unfold Tree.addExpr at ha
  cases hp : t.exprs.alloc e with
  | error f => simp [hp, Bind.bind, Except.bind] at ha
  | ok r =>
    rw [hp] at ha
    cases ha
    refine ⟨⟨by simp [Pool.size_alloc hp, h.counts.exprs, List.countP_cons],
      by simp [h.counts.stmts]⟩, fun id node hn => ?_⟩
    cases id with
    | stmt id => exact List.mem_cons_of_mem _ (h.only _ node hn)
    | expr id =>
      by_cases hid : id.slot = r.1
      · exact hid ▸ List.mem_cons_self
      · exact List.mem_cons_of_mem _
          (h.only _ node (by simpa [node?, Pool.get?_alloc hp hid] using hn))

theorem Comprises.addStmt {s : Stmt} {id : StmtId} (h : t.Comprises ids)
    (ha : t.addStmt s = .ok (id, u)) : u.Comprises (.stmt id :: ids) := by
  unfold Tree.addStmt at ha
  cases hp : t.stmts.alloc s with
  | error f => simp [hp, Bind.bind, Except.bind] at ha
  | ok r =>
    rw [hp] at ha
    cases ha
    refine ⟨⟨by simp [h.counts.exprs],
      by simp [Pool.size_alloc hp, h.counts.stmts]⟩, fun id node hn => ?_⟩
    cases id with
    | expr id => exact List.mem_cons_of_mem _ (h.only _ node hn)
    | stmt id =>
      by_cases hid : id.slot = r.1
      · exact hid ▸ List.mem_cons_self
      · exact List.mem_cons_of_mem _
          (h.only _ node (by simpa [node?, Pool.get?_alloc hp hid] using hn))

theorem Comprises.setExpr {e : Expr} {id : ExprId} (h : t.Comprises ids)
    (hs : t.setExpr id e = .ok u) : u.Comprises ids := by
  unfold Tree.setExpr at hs
  cases hw : t.exprs.write id.slot e with
  | error f => simp [hw, Bind.bind, Except.bind] at hs
  | ok exprs =>
    rw [hw] at hs
    cases hs
    refine ⟨⟨by simp [Pool.size_write hw, h.counts.exprs], by simp [h.counts.stmts]⟩,
      fun j node hn => ?_⟩
    cases j with
    | stmt j => exact h.only _ node hn
    | expr j =>
      by_cases hj : j.slot = id.slot
      · obtain ⟨old, hold⟩ := Pool.get?_of_write hw
        exact h.only _ (.expr old) (by simp [node?, hj, hold])
      · exact h.only _ node (by simpa [node?, Pool.get?_write hw hj] using hn)

theorem Comprises.free {children : List NodeId} (h : t.Comprises (id :: ids))
    (hf : t.free id = some (children, u)) : u.Comprises ids := by
  obtain ⟨⟨he, hs⟩, honly⟩ := h
  -- What is live now was live before, and it is not the node that was freed.
  have hrest {j : NodeId} (node : Node) (hne : j ≠ id) (hn : t.node? j = some node) : j ∈ ids :=
    (List.mem_cons.1 (honly j node hn)).resolve_left hne
  cases id with
  | expr id =>
    obtain ⟨⟨e, exprs⟩, hd, heq⟩ := Option.map_eq_some_iff.1 hf
    cases heq
    refine ⟨⟨by simp [Pool.size_dealloc hd, he, List.countP_cons], by simp [hs]⟩,
      fun j node hn => ?_⟩
    cases j with
    | stmt j => exact hrest node (by simp) hn
    | expr j =>
      obtain ⟨x, hx, rfl⟩ := Option.map_eq_some_iff.1 hn
      obtain ⟨hne, hx⟩ := Pool.get?_dealloc hd hx
      exact hrest (.expr x) (fun h => hne (congrArg ExprId.slot (NodeId.expr.inj h)))
        (by simp [node?, hx])
  | stmt id =>
    obtain ⟨⟨s, stmts⟩, hd, heq⟩ := Option.map_eq_some_iff.1 hf
    cases heq
    refine ⟨⟨by simp [he], by simp [Pool.size_dealloc hd, hs]⟩, fun j node hn => ?_⟩
    cases j with
    | expr j => exact hrest node (by simp) hn
    | stmt j =>
      obtain ⟨x, hx, rfl⟩ := Option.map_eq_some_iff.1 hn
      obtain ⟨hne, hx⟩ := Pool.get?_dealloc hd hx
      exact hrest (.stmt x) (fun h => hne (congrArg StmtId.slot (NodeId.stmt.inj h)))
        (by simp [node?, hx])

/-- Released branches are not counted any more. -/
theorem Comprises.releaseAll (hc : t.Comprises (Branch.roots xs ++ ids)) (h : t.Holds xs)
    (k : Nat) :
    (t.releaseAll k (xs.map Branch.root)).2.Comprises ids := by
  have hnil : t.Holds (xs ++ []) := by rwa [List.append_nil]
  refine hnil.releaseAll_induct (P := fun t xs u =>
    t.Comprises (Branch.roots xs ++ ids) → u.Comprises ids) (fun _ _ hc => hc)
    (fun t u v id n parts xs _ _ hfree _ _ ih hc => ih ?_) k hc
  rw [roots_mk_cons, List.cons_append] at hc
  exact (hc.free hfree).perm (roots_reverse_append.symm.append_right ids)

/-! ### Expressions that are lost -/

/-- So many expressions are gone, by the counter and by the slots themselves. -/
structure Loses (t : Tree) (n : Nat) (u : Tree) : Prop where
  size : u.exprs.size = t.exprs.size - n
  live : u.exprs.liveSlots + n = t.exprs.liveSlots

theorem Loses.refl (t : Tree) : t.Loses 0 t := ⟨rfl, rfl⟩

theorem Loses.trans {n m : Nat} (h : t.Loses n u) (h' : u.Loses m v) : t.Loses (n + m) v := by
  obtain ⟨hs, hl⟩ := h
  obtain ⟨hs', hl'⟩ := h'
  exact ⟨by omega, by omega⟩

theorem loses_setExpr {e : Expr} {id : ExprId} (h : t.setExpr id e = .ok u) : t.Loses 0 u := by
  unfold Tree.setExpr at h
  cases hw : t.exprs.write id.slot e with
  | error f => simp [hw, Bind.bind, Except.bind] at h
  | ok exprs =>
    rw [hw] at h
    cases h
    exact ⟨Pool.size_write hw, Pool.liveSlots_write hw⟩

theorem loses_free {children : List NodeId} (h : t.free id = some (children, u)) :
    t.Loses ([id].countP NodeId.isExpr) u := by
  cases id with
  | expr id =>
    obtain ⟨⟨e, exprs⟩, hd, heq⟩ := Option.map_eq_some_iff.1 h
    cases heq
    exact ⟨Pool.size_dealloc hd, Pool.liveSlots_dealloc hd⟩
  | stmt id =>
    obtain ⟨⟨s, stmts⟩, hd, heq⟩ := Option.map_eq_some_iff.1 h
    cases heq
    exact ⟨rfl, rfl⟩

theorem countP_roots (bs : List Branch) :
    (Branch.roots bs).countP NodeId.isExpr = Branch.exprCount bs := by
  rw [Branch.roots, List.countP_map, Branch.exprCount]
  congr 1
  funext b
  cases h : b.root <;> simp [h, NodeId.isExpr]

theorem Holds.loses_releaseAll (h : t.Holds (xs ++ bs)) (k : Nat) :
    t.Loses (Branch.exprCount xs) (t.releaseAll k (xs.map Branch.root)).2 := by
  rw [← countP_roots]
  refine h.releaseAll_induct (P := fun t xs u =>
    t.Loses ((Branch.roots xs).countP NodeId.isExpr) u) (fun t _ => .refl t)
    (fun t u v id n parts xs _ _ hfree _ _ ih => ?_) k
  have hperm : (Branch.roots (⟨id, n, parts⟩ :: xs)).Perm
      ([id] ++ Branch.roots (parts.reverse ++ xs)) := by
    rw [roots_mk_cons]
    exact roots_reverse_append.symm.cons id
  rw [hperm.countP_eq, List.countP_append]
  exact (loses_free hfree).trans ih

/-- A branch that gives way to one node loses what was below its root. -/
theorem Holds.loses_replaceExpr {id : ExprId} {old e : Expr} {r : Nat × Tree}
    (h : t.Holds [⟨.expr id, .expr old, xs⟩]) (hcov : t.Covers (.expr e))
    (hch : t.children (.expr e) = []) (hr : t.replaceExpr id e = .ok r) :
    t.Loses (Branch.exprCount xs) r.2 := by
  obtain ⟨v, hv, -, hparts, hrun⟩ := h.replaceExpr_eq e hcov hch
  obtain rfl := Except.ok.inj (hrun.symm.trans hr)
  have hcount : Branch.exprCount xs.reverse = Branch.exprCount xs :=
    (Branch.allIn_perm (List.reverse_perm xs)).countP_eq _
  have := (loses_setExpr hv).trans (hparts.loses_releaseAll 0)
  rwa [hcount, Nat.zero_add] at this

/-- What a forest has beside the branch in a hole. -/
theorem exists_roots_plug (hole : Hole) : ∃ rest, ∀ b,
    (Branch.roots (hole.plug b)).Perm (Branch.roots [b] ++ rest) := by
  induction hole with
  | top before after =>
    refine ⟨Branch.roots (before ++ after), fun b => ?_⟩
    rw [Hole.plug, roots_append, roots_cons, roots_append]
    exact List.perm_append_comm_assoc ..
  | inside outer root node before after ih =>
    obtain ⟨rest, ih⟩ := ih
    refine ⟨root :: (Branch.roots (before ++ after) ++ rest), fun b => (ih _).trans ?_⟩
    rw [roots_mk, roots_append, roots_cons, roots_append, List.cons_append]
    refine .trans (.cons _ ?_) List.perm_middle.symm
    rw [← List.append_assoc (Branch.roots [b])]
    exact (List.perm_append_comm_assoc ..).append_right _

/-- A branch inside a forest is replaced by one node. -/
theorem Comprises.replace_plugged {hole : Hole} {id : ExprId} {old e : Expr} {r : Nat × Tree}
    (hc : t.Comprises (Branch.roots (hole.plug ⟨.expr id, .expr old, xs⟩)))
    (h : t.Holds (hole.plug ⟨.expr id, .expr old, xs⟩)) (hcov : t.Covers (.expr e))
    (hch : t.children (.expr e) = []) (hr : t.replaceExpr id e = .ok r) :
    r.2.Comprises (Branch.roots (hole.plug ⟨.expr id, .expr e, []⟩)) := by
  obtain ⟨rest, hperm⟩ := exists_roots_plug hole
  obtain ⟨v, hv, -, hparts, hrun⟩ := h.plugged.replaceExpr_eq e hcov hch
  obtain rfl := Except.ok.inj (hrun.symm.trans hr)
  have hcount : v.Comprises (Branch.roots xs.reverse ++ (.expr id :: rest)) := by
    refine (hc.setExpr hv).perm ((hperm _).trans ?_)
    rw [roots_mk, List.cons_append]
    refine .trans (.cons _ ?_) List.perm_middle.symm
    exact ((Branch.allIn_perm (List.reverse_perm xs)).symm.map _).append_right _
  refine (hcount.releaseAll hparts.left 0).perm ((hperm _).trans ?_).symm
  rw [roots_mk]
  exact .refl _

end Tree

end FrontEnd
