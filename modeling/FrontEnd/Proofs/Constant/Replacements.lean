import FrontEnd.Proofs.Constant.FoldedBranch
import FrontEnd.Proofs.Typing.Fitting

/-!
Folding as a whole: which nodes of a tree it replaces, what it leaves alone, and which constants
are still there afterwards. Only those are that had too many literals or names for the tables.
-/

namespace FrontEnd

namespace Branch

variable {bindings : Name → Option Value} {b c x : Branch} {skips : ExprKind → Nat}

/-- A literal that took the place of a constant has its value; so constants stay constants, and
none come about. -/
theorem Folds.constant (h : Folds bindings b c)
    (hc : c.isConstant (Lowering.bound bindings) = true) :
    b.isConstant (Lowering.bound bindings) = true ∧ b.value bindings = c.value bindings := by
  induction c, hc using constant_induct generalizing b with
  | literal root e v hc hk | name root e n hc hk =>
    cases h with
    | same => exact ⟨hc, rfl⟩
    | value hl hconst hv => exact ⟨hconst, hv.trans (by simp [Branch.value, Expr.ofValue])⟩
    | node hl hparts =>
      obtain rfl := List.forall₂_nil_right_iff.1 hparts
      exact ⟨hc, rfl⟩
  | group root e i p hc hp hk ih =>
    cases h with
    | same => exact ⟨hc, rfl⟩
    | node hl hparts =>
      obtain ⟨q, _, hqp, hnil, rfl⟩ := List.forall₂_cons_right_iff.1 hparts
      obtain rfl := List.forall₂_nil_right_iff.1 hnil
      rw [isConstant_group hk, value_group hk, value_group hk]
      exact ih hqp
  | unary root e op i p hc hp hk hm ih =>
    cases h with
    | same => exact ⟨hc, rfl⟩
    | node hl hparts =>
      obtain ⟨q, _, hqp, hnil, rfl⟩ := List.forall₂_cons_right_iff.1 hparts
      obtain rfl := List.forall₂_nil_right_iff.1 hnil
      obtain ⟨hq, hv⟩ := ih hqp
      rw [isConstant_unary hk, value_unary hk, value_unary hk, hm, hq, hv]
      exact ⟨rfl, rfl⟩
  | binary root e op i j l r hc hl hr hk ihl ihr =>
    cases h with
    | same => exact ⟨hc, rfl⟩
    | node hlam hparts =>
      obtain ⟨l', _, hll, hrest, rfl⟩ := List.forall₂_cons_right_iff.1 hparts
      obtain ⟨r', _, hrr, hnil, rfl⟩ := List.forall₂_cons_right_iff.1 hrest
      obtain rfl := List.forall₂_nil_right_iff.1 hnil
      obtain ⟨hcl, hvl⟩ := ihl hll
      obtain ⟨hcr, hvr⟩ := ihr hrr
      rw [isConstant_binary hk, value_binary hk, value_binary hk, hcl, hcr, hvl, hvr]
      exact ⟨rfl, rfl⟩

/-- What is reached after folding stood there before, and is a literal or still the same node. -/
theorem Folds.reached (h : Folds bindings b c) (hx : c.Reached skips x) :
    ∃ y, b.Reached skips y ∧ Folds bindings y x ∧
      (y.node = x.node ∨ ∃ v span, x.node = .expr (Expr.ofValue v span)) := by
  induction hx generalizing b with
  | here =>
    refine ⟨b, .here, h, ?_⟩
    cases h with
    | same => exact .inl rfl
    | value => exact .inr ⟨_, _, rfl⟩
    | node => exact .inl rfl
  | part hp hr ih =>
    cases h with
    | same => exact ⟨_, .part hp hr, .same, .inl rfl⟩
    | value => simp at hp
    | @node i e bs cs hl hparts =>
      obtain ⟨q, hq, hqp⟩ := exists_mem_of_forall₂ (List.forall₂_drop _ hparts) hp
      obtain ⟨y, hy, hyx, hnode⟩ := ih hqp
      exact ⟨y, .part hq hy, hyx, hnode⟩

end Branch

namespace Folder

open Branch

variable {f : Folder} {depth : Nat} {t u : Tree} {b b' x : Branch} {replaced : List Branch}
  {i : ExprId}

/-- Folding an expression succeeds, with the literal that it leaves there. -/
theorem exists_fold (f : Folder) (depth : Nat) (h : t.Holds [b]) (hb : b.root = .expr i) :
    ∃ u b' replaced, f.fold depth i t = .ok b'.literal? u ∧ u.Holds [b'] ∧
      f.Rewrites depth t [b] u replaced ∧ Folds (f.binding · depth) b b' := by
  have hmeets := meets_fold_rewrites f depth (.top [] []) h hb
  cases hrun : f.fold depth i t with
  | error err u => exact (hmeets.of_error hrun).elim
  | ok r u =>
    obtain ⟨b', replaced, hturns, hrewrites, hfolds, rfl⟩ := hmeets.of_ok hrun
    exact ⟨u, b', replaced, rfl, hturns.holds, hrewrites, hfolds⟩

/-- Folding an expression replaces constants by their values where they stand, and does nothing
else to the tree, nor to a forest around the expression. Its result is the value of the literal
that the expression is then. -/
theorem fold_rewrites (f : Folder) (depth : Nat) (h : t.Holds [b]) (hb : b.root = .expr i) :
    ∃ r u b' replaced, f.fold depth i t = .ok r u ∧ b'.root = .expr i ∧
      (∀ hole : Hole, t.Holds (hole.plug b) → u.Holds (hole.plug b')) ∧
      f.Rewrites depth t [b] u replaced ∧ u.stmts = t.stmts ∧
      ∀ v, r = some v ↔ ∃ e, u.expr i = .ok e ∧ e.kind = .literal v := by
  obtain ⟨u, b', replaced, hrun, hu, hrewrites, hfolds⟩ := exists_fold f depth h hb
  have hroot : b'.root = .expr i := hfolds.root_eq.trans hb
  refine ⟨_, u, b', replaced, hrun, hroot, fun hole hholds => ?_, hrewrites,
    ((steady_fold i).meets t |>.of_ok hrun h.sound).2, fun v => ?_⟩
  · obtain ⟨c, _, hc, -, hcfolds, -⟩ := (meets_fold_rewrites _ _ hole hholds hb).of_ok hrun
    obtain rfl : b' = c :=
      hu.eq_of_root hc.holds.plugged (hfolds.root_eq.trans hcfolds.root_eq.symm)
    exact hc.holds
  · obtain ⟨e, parts, rfl, he, -⟩ := hu.expr_of_root hroot
    simp [Branch.literal?, expr?, he, Expr.literal?_eq_some]

/-- In `(2 + 3) / 0` the sum gives way to its value, and the division stays. -/
theorem fold_rewrites_dividend :
    let constant (kind : ExprKind) : Expr := { Expr.new kind ⟨0, 9⟩ with isConstant := true }
    let quotient := constant (.binary .div ⟨2⟩ ⟨3⟩)
    let tree := Tree.ofExprs [constant (.literal (.int 2)), constant (.literal (.int 3)),
      constant (.binary .add ⟨0⟩ ⟨1⟩), constant (.literal (.int 0)), quotient]
    ∃ u, empty.fold 0 ⟨4⟩ tree = .ok none u ∧ u.expr ⟨4⟩ = .ok quotient ∧
      u.expr ⟨2⟩ = .ok (Expr.ofValue (.int 5) ⟨0, 9⟩) ∧ u.node? (.expr ⟨0⟩) = none ∧
      u.exprs.size = 3 := by
  intro constant quotient tree
  let leaf (slot : Nat) (v : Value) : Branch :=
    ⟨.expr ⟨slot⟩, .expr (constant (.literal v)), []⟩
  let sum : Branch := ⟨.expr ⟨2⟩, .expr (constant (.binary .add ⟨0⟩ ⟨1⟩)),
    [leaf 0 (.int 2), leaf 1 (.int 3)]⟩
  let b : Branch := ⟨.expr ⟨4⟩, .expr quotient, [sum, leaf 3 (.int 0)]⟩
  have hall : b.all = [b, sum, leaf 0 (.int 2), leaf 1 (.int 3), leaf 3 (.int 0)] := by
    simp [b, sum, leaf, Branch.all_mk]
  have hb : tree.Holds [b] := by
    refine ⟨Tree.sound_ofExprs _, ?_, ?_⟩
    · simp only [Branch.allIn_cons, Branch.allIn_nil, List.append_nil, hall, List.forall_mem_cons]
      exact ⟨⟨rfl, trivial, rfl⟩, ⟨rfl, trivial, rfl⟩, ⟨rfl, trivial, rfl⟩, ⟨rfl, trivial, rfl⟩,
        ⟨rfl, trivial, rfl⟩, by simp⟩
    · simp only [Branch.roots, Branch.allIn_cons, Branch.allIn_nil, List.append_nil, hall]
      decide
  have hsum : tree.Holds [sum] := hb.part (by simp)
  obtain ⟨r, u, b', replaced, hrun, hb', hheld, hrewrites, -, hr⟩ := fold_rewrites empty 0 hb rfl
  have hyields : empty.Yields 0 tree sum ⟨2⟩ (constant (.binary .add ⟨0⟩ ⟨1⟩)) (.int 5) :=
    ⟨rfl, rfl, rfl, rfl, (evaluate_eq_ok_iff hsum rfl).2 ⟨rfl, by decide, by decide, rfl⟩⟩
  -- Of all branches only the sum can have been replaced.
  have honly (x : Branch) (hx : x ∈ replaced) : x = sum := by
    obtain ⟨j, e, v, hy, -⟩ := hrewrites.value x hx
    have hin := hrewrites.inside.subset (mem_allIn.2 ⟨x, hx, x.mem_all_self⟩)
    rw [allIn_cons, allIn_nil, List.append_nil, hall] at hin
    simp only [List.mem_cons, List.not_mem_nil, or_false] at hin
    rcases hin with rfl | rfl | rfl | rfl | rfl
    · obtain ⟨-, -, -, hvalue⟩ := (evaluate_eq_ok_iff hb hy.root).1 hy.value
      cases hvalue
    · rfl
    all_goals
      cases hy.node
      cases hy.new
  have hroot : .expr ⟨2⟩ ∈ roots replaced :=
    hrewrites.complete b (by simp) sum (.part (p := sum) List.mem_cons_self .here) _ _ _ hyields
  have hsums : allIn [sum] = [sum, leaf 0 (.int 2), leaf 1 (.int 3)] := by
    simp [sum, leaf, Branch.all_mk]
  obtain rfl : replaced = [sum] := by
    have hapart : (roots replaced).Nodup := hb.apart.sublist (hrewrites.inside.map _)
    cases replaced with
    | nil => cases hroot
    | cons x rest =>
      have hx := honly x (by simp)
      cases rest with
      | nil => rw [hx]
      | cons y _ =>
        rw [hx, honly y (by simp), roots, allIn_cons, allIn_cons] at hapart
        simp [sum, Branch.all_mk] at hapart
  obtain ⟨j, e, v, hy, hnode⟩ := hrewrites.value sum (by simp)
  cases hy.root
  cases hy.node
  cases hy.value.symm.trans hyields.value
  have hquotient : u.expr ⟨4⟩ = .ok quotient := by
    rw [Tree.expr_eq_ok, hrewrites.elsewhere _ (by rw [roots, hsums]; decide)]
    rfl
  obtain rfl : r = none := Option.eq_none_iff_forall_ne_some.2 fun v hv => by
    obtain ⟨e, he, hk⟩ := (hr v).1 hv
    cases hquotient.symm.trans he
    cases hk
  refine ⟨u, hrun, hquotient, Tree.expr_eq_ok.2 hnode,
    hrewrites.released sum (by simp) (leaf 0 (.int 2)) (by simp [sum, leaf, Branch.all_mk]), ?_⟩
  have hsize := hrewrites.count.size
  simp only [List.flatMap_cons, List.flatMap_nil, List.append_nil] at hsize
  rw [hsize]
  simp [sum, leaf, Branch.all_mk, tree, Tree.ofExprs]

/-- What gave way is a literal now, or gone. -/
theorem Rewrites.literal_of_live {e : Expr} (h : f.Rewrites depth t [b] u replaced)
    {id : NodeId} (hid : id ∈ roots replaced) (he : u.node? id = some (.expr e)) :
    e.literal? ≠ none := by
  obtain ⟨w, hw, rfl⟩ := List.mem_map.1 hid
  obtain ⟨z, hz, hwz⟩ := mem_allIn.1 hw
  rw [all_eq] at hwz
  rcases List.mem_cons.1 hwz with rfl | hwz
  · obtain ⟨j, old, v, -, hnode⟩ := h.value w hz
    cases he.symm.trans hnode
    simp [Expr.literal?, Expr.ofValue]
  · cases he.symm.trans (h.released z hz w hwz)

/-- A constant that folding leaves had too many literals or names before, where it stood. -/
theorem fold_leaves_crowded {r : Option Value} {e : Expr} {j : ExprId} {v : Value}
    (h : t.Holds [b]) (hb : b.root = .expr i) (hrun : f.fold depth i t = .ok r u)
    (hu : u.Holds [b']) (hb' : b'.root = .expr i) (hx : b'.Reached ExprKind.spared x)
    (hy : f.Yields depth u x j e v) :
    ∃ y, b.Reached ExprKind.spared y ∧ y.root = .expr j ∧
      f.evaluate depth t j = .error (.cause .tooManyConstants) ∧
      (tableLimit < y.literals.length ∨ tableLimit < y.names.dedup.length) := by
  obtain ⟨_, c, replaced, hrun', hc, hrewrites, hfolds⟩ := exists_fold f depth h hb
  cases hrun.symm.trans hrun'
  obtain rfl : b' = c := hu.eq_of_root hc (hb'.trans (hfolds.root_eq.trans hb).symm)
  have hxu : u.Holds [x] := hu.inner (by simpa using hx.mem_all)
  obtain ⟨hconst, -, -, hvalue⟩ := (evaluate_eq_ok_iff hxu hy.root).1 hy.value
  obtain ⟨y, hreach, hyx, hnode | ⟨w, span, hnode⟩⟩ := hfolds.reached hx
  · have hroot : y.root = .expr j := hyx.root_eq.symm.trans hy.root
    have hyt : t.Holds [y] := h.inner (by simpa using hreach.mem_all)
    obtain ⟨hyconst, hyvalue⟩ := hyx.constant hconst
    have hnot (w : Value) : f.evaluate depth t j ≠ .ok w := fun hw => by
      have hroots := hrewrites.complete b (by simp) y hreach j e w
        ⟨hroot, hnode.trans hy.node, hy.constant, hy.new, hw⟩
      refine hrewrites.literal_of_live (hyx.root_eq ▸ hroots) ?_ hy.new
      rw [hxu.root.node, hy.node]
    refine ⟨y, hreach, hroot, ?_, ?_⟩
    · have hevaluates := evaluates f depth hyt hroot
      generalize hresult : f.evaluate depth t j = result at hevaluates
      cases hevaluates with
      | computed => exact absurd (hresult.trans (by rw [hyvalue, hvalue]; rfl)) (hnot v)
      | notConstant hfalse => cases hyconst.symm.trans hfalse
      | crowded => rfl
    · by_contra hroom
      rw [not_or, Nat.not_lt, Nat.not_lt] at hroom
      exact hnot v ((evaluate_eq_ok_iff hyt hroot).2
        ⟨hyconst, hroom.1, hroom.2, hyvalue.trans hvalue⟩)
  · cases hnode.symm.trans hy.node
    cases hy.new

/-- Where no branch has too many literals or names, nothing is left to fold: doing it again
replaces nothing. -/
theorem fold_twice {r : Option Value} (h : t.Holds [b]) (hb : b.root = .expr i)
    (hrun : f.fold depth i t = .ok r u)
    (hroom : ∀ y ∈ b.all, y.literals.length ≤ tableLimit ∧ y.names.dedup.length ≤ tableLimit) :
    ∃ v, f.fold depth i u = .ok r v ∧ ∀ id, v.node? id = u.node? id := by
  obtain ⟨_, b', _, hrun', hu, -, hfolds⟩ := exists_fold f depth h hb
  cases hrun.symm.trans hrun'
  have hb' : b'.root = .expr i := hfolds.root_eq.trans hb
  obtain ⟨v, c, replaced, hagain, hc, hrewrites, hfolds'⟩ := exists_fold f depth hu hb'
  have hnone : replaced = [] := List.eq_nil_iff_forall_not_mem.2 fun x hx => by
    obtain ⟨j, e, w, hy, -⟩ := hrewrites.value x hx
    obtain ⟨_, hmem, hreach⟩ := hrewrites.reached x hx
    obtain rfl := List.mem_singleton.1 hmem
    obtain ⟨y, hyreach, -, -, hcrowd⟩ := fold_leaves_crowded h hb hrun hu hb' hreach hy
    have := hroom y hyreach.mem_all
    omega
  subst hnone
  obtain rfl : b' = c := (hrewrites.toWithin.holds hu).eq_of_root hc hfolds'.root_eq.symm
  exact ⟨v, hagain, fun id => hrewrites.elsewhere id (by simp [roots])⟩

end Folder

end FrontEnd
