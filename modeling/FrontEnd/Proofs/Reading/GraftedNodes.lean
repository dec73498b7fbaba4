import FrontEnd.Proofs.Constant.Replacements
import FrontEnd.Proofs.Program.Calls
import FrontEnd.Proofs.Program.Checks
import FrontEnd.Proofs.Reading.Grafts

/-! Steps that store nodes, give expressions up, check them and fold them. -/

namespace FrontEnd

open Parse

namespace ParseState

/-- An expression stands on top of a forest. -/
def BearsExpr (o : ParseState) (F : List Branch) (id : ExprId) (s : ParseState) : Prop :=
  ∃ y : Branch, y.root = .expr id ∧ o.Bears [y] F s

/-- A statement stands there. -/
def BearsStmt (o : ParseState) (F : List Branch) (id : StmtId) (s : ParseState) : Prop :=
  ∃ y : Branch, y.root = .stmt id ∧ o.Bears [] (y :: F) s

def BearsExprs (o : ParseState) (F : List Branch) (ids : List ExprId) (s : ParseState) : Prop :=
  ∃ ys : List Branch, ys.map Branch.root = ids.map .expr ∧ o.Bears ys F s

def BearsStmts (o : ParseState) (F : List Branch) (ids : List StmtId) (s : ParseState) : Prop :=
  ∃ ys : List Branch, ys.map Branch.root = ids.map .stmt ∧ o.Bears [] (ys ++ F) s

end ParseState

variable {o s t : ParseState} {k : Nat} {F ps xs : List Branch} {x y : Branch} {id : ExprId}

/-! ### New nodes -/

/-- A new expression takes its parts into one branch. -/
theorem grafts_addNode {e : Expr} (ps : List Branch) (hr : o.Reading s)
    (hh : s.tree.Holds (ps ++ F))
    (hps : ∀ p ∈ ps.drop e.kind.enclosed, p.Flagged s.constants) (hc : s.tree.Covers (.expr e))
    (hch : s.tree.children (.expr e) = ps.map Branch.root)
    (he : ∀ root, e.isConstant = Branch.isConstant s.constants ⟨root, .expr e, ps⟩) :
    Grafts o k F (addNode e) (addNode e) s (o.BearsExpr F) := by
  refine .ofTree hr (fun _ => steady_addNode e) ?_
  unfold addNode
  refine meets_bind_of_ok (get_eq s) ?_
  refine Meets.bind (R := fun r t => s = t ∧ s.tree.addExpr e = .ok r)
    (meets_ofStorage (fun r hr => ⟨rfl, hr⟩) fun _ _ => ⟨⟨rfl, rfl, rfl, rfl⟩, nofun⟩) ?_
  rintro ⟨id, tree⟩ _ ⟨rfl, ha⟩
  refine meets_bind_of_ok (t := { s with tree }) rfl (meets_pure ⟨⟨rfl, rfl, rfl, rfl⟩, ?_⟩)
  intro ho hr'
  refine ⟨⟨.expr id, .expr e, ps⟩, rfl, hr', hh.addExpr ha hc hch, fun y hy => ?_⟩
  rw [List.mem_singleton.1 hy, ho.constants_eq]
  exact Branch.flagged_node (he _) hps

/-- A new statement does so as well. -/
theorem grafts_addStmt {kind : StmtKind} (ps : List Branch) (span : Span) (hr : o.Reading s)
    (hh : s.tree.Holds (ps ++ F)) (hc : s.tree.Covers (.stmt ⟨kind, span⟩))
    (hch : s.tree.children (.stmt ⟨kind, span⟩) = ps.map Branch.root) :
    Grafts o k F (addStmt kind span) (addStmt kind span) s (o.BearsStmt F) := by
  refine .ofTree hr (fun _ => steady_addStmt kind span) ?_
  unfold addStmt
  refine meets_bind_of_ok (get_eq s) ?_
  refine Meets.bind (R := fun r t => s = t ∧ s.tree.addStmt ⟨kind, span⟩ = .ok r)
    (meets_ofStorage (fun r hr => ⟨rfl, hr⟩) fun _ _ => ⟨⟨rfl, rfl, rfl, rfl⟩, nofun⟩) ?_
  rintro ⟨id, tree⟩ _ ⟨rfl, ha⟩
  refine meets_bind_of_ok (t := { s with tree }) rfl (meets_pure ⟨⟨rfl, rfl, rfl, rfl⟩, ?_⟩)
  exact fun _ hr' => ⟨⟨.stmt id, .stmt ⟨kind, span⟩, ps⟩, rfl, hr', hh.addStmt ha hc hch, nofun⟩

theorem grafts_errorExpr (span : Span) (hr : o.Reading s) (hh : s.tree.Holds F) :
    Grafts o k F (errorExpr span) (errorExpr span) s (o.BearsExpr F) :=
  grafts_addNode [] hr hh nofun trivial rfl fun _ => rfl

/-- The statements in a list become the children of a block or a namespace. -/
theorem grafts_listStmt {form : ListRange → StmtKind} (ids : List StmtId) (span : Span)
    (hform : form = .block ∨ ∃ name, form = .namesp name) (h : o.BearsStmts F ids s) :
    Grafts o k F (listStmt form span ids) (listStmt form span ids) s (o.BearsStmt F) := by
  obtain ⟨ys, hys, h⟩ := h
  have hlist := Pass.addStmtList_eq ids s
  have ho (k : Nat) := (steady_addStmtList (k := k) ids).ok hlist h.reading.sound
  have ht : o.Reading { s with tree := (s.tree.addStmtList ids).2 } :=
    h.reading.onto (ho 0) ⟨rfl, rfl, rfl, rfl⟩
  refine Grafts.bind (Q := fun range t => range = (s.tree.addStmtList ids).1 ∧
    t = { s with tree := (s.tree.addStmtList ids).2 }) ⟨rfl, meets_of_ok hlist ⟨ho k, rfl, rfl⟩⟩ ?_
  rintro _ _ - ⟨rfl, rfl⟩
  obtain ⟨hc, hch⟩ := Pass.children_list hform s.tree ids span
  exact grafts_addStmt ys span ht (h.holds.addStmtList ids) hc (hch.trans hys.symm)

/-! ### Expressions that are given up -/

/-- After a report, branches are released. -/
theorem grafts_giveUp (ids : List ExprId) {code : ErrorCode} (span span' : Span)
    (message label : String) (hcode : code.stage ≠ .lexer) (h : o.Bears xs F s)
    (hids : xs.map Branch.root = ids.map .expr) :
    Grafts o k F (do report code span message label; ids.forM release; errorExpr span')
      (do report code span message label; ids.forM release; errorExpr span') s (o.BearsExpr F) := by
  refine h.before (idle_report hcode ..) fun _ t hrun ht => ?_
  have hpos := pos_of_report hrun h.reading.sound
  obtain ⟨u, hu, hholds⟩ := Pass.releases_eq ht.holds hids
  have ho (k : Nat) : t.Onto k { t with tree := u } :=
    (keeps_forM ids fun id => loud_release id).ok hu ht.reading.sound hpos
  refine Grafts.bind (Q := fun _ v => v = { t with tree := u })
    ⟨rfl, meets_of_ok hu ⟨ho k, rfl⟩⟩ ?_
  rintro _ _ - rfl
  exact grafts_errorExpr span' (ht.reading.onto (ho 0) ⟨rfl, rfl, rfl, rfl⟩) hholds

/-! ### Expressions that are looked at -/

/-- An expression among those that stand on top. -/
theorem ParseState.Bears.exists_expr (h : o.Bears xs F s) (hx : x ∈ xs) (hid : x.root = .expr id) :
    ∃ e ps, x = ⟨.expr id, .expr e, ps⟩ ∧ expr id s = .ok e s ∧
      e.isConstant = x.isConstant s.constants := by
  have hholds := h.holds.inner (Branch.mem_allIn.2 ⟨x, List.mem_append_left F hx, x.mem_all_self⟩)
  obtain ⟨e, ps, rfl⟩ := hholds.exists_expr hid
  refine ⟨e, ps, rfl, ?_, (h.flagged _ hx).here⟩
  unfold Parse.expr
  rw [bind_of_ok (get_eq s), hholds.expr]
  rfl

/-- The name of a function becomes the call of it, or the call is given up. -/
theorem grafts_callEnd {e : Expr} {ids : List ExprId} (span : Span)
    (h : o.Bears (xs ++ [⟨.expr id, .expr e, ps⟩]) F s)
    (hids : xs.map Branch.root = ids.map .expr) :
    Grafts o k F (callEnd id e ids span) (callEnd id e ids span) s (o.BearsExpr F) := by
  by_cases hvar : ∃ callee, e.kind = .var callee
  · obtain ⟨callee, hk⟩ := hvar
    have hperm (x : Branch) : (xs ++ [x] ++ F).Perm (xs.reverse ++ x :: F) := by
      rw [List.append_assoc]
      exact (List.reverse_perm xs).symm.append_right _
    obtain ⟨rfl, u, hset, hholds, -⟩ := Pass.call_tree hk (h.holds.perm (hperm _)) hids span
    refine .ofTree h.reading (fun _ => ?_)
      (meets_of_ok (Pass.callEnd_eq hk hset) ⟨⟨rfl, rfl, rfl, rfl⟩, fun ho hr => ?_⟩)
    · rw [callEnd_of_var hk]
      exact steady_makeCall ..
    · refine ⟨_, rfl, hr, hholds, fun y hy => ?_⟩
      rw [List.mem_singleton.1 hy, ho.constants_eq]
      refine Branch.flagged_node rfl fun p hp => h.flagged p (List.mem_append_left _ hp)
  · rw [callEnd_of_other fun callee hk => hvar ⟨callee, hk⟩]
    have h' : o.Bears (⟨.expr id, .expr e, ps⟩ :: xs) F s :=
      h.perm (List.perm_append_comm.append_right F) (by simp)
    exact grafts_giveUp (id :: ids) _ _ _ _ (by decide) h' (by simp [hids])

/-! ### Complete expressions -/

/-- What a complete expression is checked for. -/
inductive Completes (id : ExprId) : {α : Type} → (Env → Check α) → Prop
  | infer : Completes id fun env => Check.infer env id
  | ret (expected : Option TypeId) (span : Span) :
    Completes id fun env => Check.checkReturn env (some id) expected span
  | print : Completes id fun env => Check.checkPrint env id
  | condition : Completes id fun env => Check.checkCondition env id
  | initializer (name : Name) (declared : TypeId) :
    Completes id fun env => Check.checkInitializer env name declared id

namespace Completes

variable {α : Type} {p : Env → Check α} {a : α} {env : Env} {tree : Tree} {q : Queue}
  {u : CheckState}

theorem steady (h : Completes id p) (env : Env) : Check.Steady env (p env) := by
  cases h with
  | infer => exact Check.steady_infer id
  | ret expected span => exact Check.steady_checkReturn ..
  | print => exact Check.steady_checkPrint id
  | condition => exact Check.steady_checkCondition id
  | initializer name declared => exact Check.steady_checkInitializer ..

/-- Whatever it is checked for, the expression is the same but for the types in its nodes. -/
theorem retypes (h : Completes id p) (hh : tree.Holds (x :: F)) (hx : x.root = .expr id)
    (hq : q.Sound) (hrun : p env ⟨tree, q⟩ = .ok a u) :
    ∃ y, u.tree.Holds (y :: F) ∧ x.Retyped y := by
  have hM (type : TypeId) (b c : Branch) : True → True := fun _ => trivial
  have hlike : x.Alike (fun _ _ _ => True) x :=
    .refl (fun _ _ => trivial) (hh.sublist (List.singleton_sublist.2 (by simp))) hx
  have hplug : tree.Holds ((Hole.top [] F).plug x) := hh
  have hall (type : TypeId) : env.Supplies (fun _ => True) type := .lambda trivial
  have hpassed {type : TypeId} {u u' : CheckState} (hp : Check.Passed env (fun _ _ _ => True)
      (.top [] F) (.top [] F) x x q type u u') : ∃ y, u.tree.Holds (y :: F) ∧ x.Retyped y := by
    obtain ⟨-, -, -, y, -, hholds, -, -, hretyped, -⟩ := hp
    exact ⟨y, hholds, hretyped⟩
  cases h with
  | infer => exact hpassed ((Check.together_inferred hM hplug hplug hlike hx hx hq).of_ok hrun).2.2
  | ret expected span =>
    obtain ⟨type, hp, -⟩ := (Check.together_checkReturn hM hplug hplug hlike hx hx hq span
      fun type _ => hall type).of_ok hrun
    exact hpassed hp
  | print =>
    obtain ⟨type, hp⟩ := (Check.together_checkPrint hM hplug hplug hlike hx hx hq).of_ok hrun
    exact hpassed hp
  | condition =>
    obtain ⟨type, hp⟩ := (Check.together_checkCondition hM hplug hplug hlike hx hx hq).of_ok hrun
    exact hpassed hp
  | initializer name declared =>
    obtain ⟨-, -, type, -, hp, -⟩ := (Check.together_checkInitializer hM hplug hplug hlike hx hx hq
      name fun _ => hall declared).of_ok hrun
    exact hpassed hp

end Completes

theorem grafts_check {α : Type} {p : Env → Check α} (hp : Completes id p)
    (h : o.Bears [x] F s) (hx : x.root = .expr id) :
    Grafts o k F (check p) (check p) s fun a t => check p s = .ok a t ∧
      ∃ y, y.root = .expr id ∧ x.Retyped y ∧ o.Bears [y] F t := by
  refine .ofTree h.reading (fun _ => steady_check hp.steady)
    (meets_check (meets_intro (fun a u hrun => ?_) fun f u _ => ⟨⟨rfl, rfl, rfl, rfl⟩, nofun⟩))
  obtain ⟨y, hholds, hretyped⟩ := hp.retypes h.holds hx h.reading.sound.reports hrun
  refine ⟨⟨rfl, rfl, rfl, rfl⟩, fun ho hr => ⟨by simp only [check, hrun], y,
    hretyped.root_eq.trans hx, hretyped, hr, hholds, fun z hz => ?_⟩⟩
  rw [List.mem_singleton.1 hz, ho.constants_eq]
  exact (h.flagged x (by simp)).retyped hretyped

/-- Bound names are among those that folding finds. -/
theorem ParseState.Reading.isBound (hr : o.Reading s) {name : Name}
    (hn : s.constants name = true) : s.folder.isBound name s.scope.depth = true := by
  obtain ⟨v, -, -, -, hv⟩ := hr.binding_of_constants hn
  rw [Folder.isBound, hv]
  rfl

theorem grafts_fold (h : o.Bears [x] F s) (hx : x.root = .expr id) :
    Grafts o k F (fold id) (fold id) s fun v t =>
      (∃ y : Branch, y.root = .expr id ∧ o.Bears [] (y :: F) t) ∧
      ∀ w, v = some w → x.isConstant s.constants = true := by
  obtain ⟨v, tree, y, hrun, hturns, hfolds, -, hvalue⟩ := fold_eq h.holds hx
  refine .ofTree h.reading (fun _ => steady_fold id)
    (meets_of_ok hrun ⟨⟨rfl, rfl, rfl, rfl⟩, fun ho hr => ⟨?_, fun w hw => ?_⟩⟩)
  · exact ⟨y, hfolds.root_eq.trans hx, hr, hturns.holds, nofun⟩
  · rw [← (h.flagged x (by simp)).isConstant_eq fun _ => h.reading.isBound]
    exact (hfolds.constant (Branch.isConstant_of_literal hturns.holds.left (hvalue w hw))).1

end FrontEnd
