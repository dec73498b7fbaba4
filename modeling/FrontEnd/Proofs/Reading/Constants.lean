import FrontEnd.Proofs.Grammar.Constants
import FrontEnd.Proofs.Reading.GraftedStatements

/-!
Constants in the course of reading. A name that is flagged as constant has the value of the very
declaration that looking it up finds, and the nodes of an expression are flagged as folding finds
them.
-/

namespace FrontEnd

/-!
### Values of constants

The value to which a key is bound is that of the variable with this key, as it was declared last.
-/

namespace ParseState

open Parse

variable {o s t : ParseState} {log : List Declared} {key : ScopedKey} {v : Value} {id : ExprId}
  {e : Expr}

/-- A key is bound to the value of the constant that was declared last under it. -/
def Binds (s : ParseState) (log : List Declared) (key : ScopedKey) (v : Value) : Prop :=
  s.folder.bindingAt key = some v ∧ s.symbols.vars.get? key = some v.kind.type ∧
    ∃ d, log.find? (·.key = key) = some d ∧ d.isConst = true ∧ d.value = some v

theorem Reading.binds (h : o.Reading s) (hc : o.Course log s)
    (ho : ∀ key, o.folder.bindingAt key = none) (hv : s.folder.bindingAt key = some v) :
    s.Binds log key v :=
  ⟨hv, h.tracked key v hv, hc.latest ho hv⟩

/-- A name is flagged at its reference just if it is that of a constant there. -/
theorem Reading.constants_of_nameExpr (h : o.Reading s) (hrun : nameExpr s = .ok id t)
    (he : t.tree.expr id = .ok e) (hflag : e.isConstant = true) :
    ∃ name u, e.kind = .var name ∧ o.Reading u ∧ s.Still u ∧ s.Onto 1 u ∧
      u.constants name = true ∧ t = { u with tree := t.tree } := by
  rw [Pass.nameExpr_eq] at hrun
  obtain ⟨r, u, hname, hrun⟩ := bind_eq_ok hrun
  obtain ⟨_, _, hconst, hrun⟩ := bind_eq_ok hrun
  rw [isConstantName_run] at hconst
  cases hconst
  obtain ⟨tree, hadd, rfl⟩ := addNode_ok hrun
  have ho := (idle_expectName.steady 1).ok hname h.sound
  have hstill := idle_expectName.still.ok hname
  have hnil : u.tree.Holds ([] ++ []) := ho.sound.tree.holds_nil
  have hnode := (hnil.addExpr hadd trivial rfl).expr
  obtain rfl := Except.ok.inj (hnode.symm.trans he)
  exact ⟨r.1, u, rfl, h.onto ho hstill.toSameTables, hstill, ho, hflag, rfl⟩

end ParseState

namespace Parse

variable {text : String} {settings : Settings} {c : Start} {t : ParseState}

/-- In every state in which a production starts or ends, whatever course led there. -/
theorem constants_track_variables (h : Started text settings c)
    (ht : t = c.2 ∨ Reaches (production c.1) c.2 t) :
    ∃ o, ParseState.ofText text settings = .ok o ∧ (∃ log, o.Course log t) ∧
      ∀ log, o.Course log t →
        (∀ key v, t.folder.bindingAt key = some v → t.Binds log key v) ∧
        ∀ id u e, nameExpr t = .ok id u → u.tree.expr id = .ok e → e.isConstant = true →
          ∃ name depth v, e.kind = .var name ∧
            VarTable.resolve u.symbols.vars name u.scope.depth = some (v.kind.type, depth) ∧
            u.folder.binding name u.scope.depth = some v ∧ u.Binds log ⟨name, depth⟩ v := by
  obtain ⟨o, hopens, hr⟩ := h.reading ht
  have hunbound (key : ScopedKey) : o.folder.bindingAt key = none :=
    hopens.folder ▸ Folder.bindingAt_empty key
  refine ⟨o, ParseState.ofText_eq_ok.2 hopens, hr.course, fun log hc => ⟨fun key v hv =>
    hr.binds hc hunbound hv, fun id u e hrun he hflag => ?_⟩⟩
  obtain ⟨name, w, hk, hw, hstill, ho, hname, hu⟩ := hr.constants_of_nameExpr hrun he hflag
  have hcourse : o.Course log w := hc.pass (hstill.sameVariables ho.window)
  obtain ⟨v, depth, hresolve, hat, hbinding⟩ := hw.binding_of_constants hname
  rw [hu]
  exact ⟨name, depth, v, hk, hresolve, hbinding, hw.binds hcourse hunbound hat⟩

/-- Behind its declaration, a constant has its value. -/
theorem constant_tracked : ∃ s t x, Started "const N := 5;" .standard (.program, s) ∧
    Reaches (production .program) s t ∧ t.names.get? "N" = some x ∧
    ∃ o log, ParseState.ofText "const N := 5;" .standard = .ok o ∧ o.Course log t ∧
      t.Binds log ⟨x, 0⟩ (.int 5) := by
  have hconst : (Window.ofText "const N := 5;").AtConstant "N" (.int 5) := by
    constructor <;> decide +kernel
  have hslots : 9 * poolBatch ≤ min Settings.standard.poolReserve maxOffset := by decide
  obtain ⟨s, hs, hroom⟩ := ParseState.exists_opens "const N := 5;" .standard
    (show 44 + 1 ≤ min Settings.standard.arenaReserve maxOffset by decide) hslots
  have hwindow : s.window = Window.ofText "const N := 5;" := by
    rw [hs.window, Window.skipErrors_of_ne (ne_of_eq_of_ne hconst.const (by decide))]
  have htree : s.tree.Roomy (7 + 2) := hs.tree ▸ Tree.roomy_withMaxSlots hslots
  have hat : s.window.AtConstant "N" (.int 5) := hwindow ▸ hconst
  obtain ⟨id, x, tree, names, hrun, -, hx, -⟩ :=
    stmt_constant (m := 0) hat hs.sound (by rw [hs.scope]; rfl) htree hroom
  have hsound := ((steady_production .stmt).ok hrun hs.sound).sound
  have hend : (s.window.drop 6).atEnd = true := by
    rw [hwindow]
    decide +kernel
  have hcons := program_cons hs.sound (by rw [hwindow]; decide +kernel)
    (by rw [hs.reports]; decide +kernel) hrun (program_atEnd hsound hend)
  have hstarted := Started.first (ParseState.ofText_eq_ok.2 hs)
  obtain ⟨o, ho, ⟨log, hc⟩, hall⟩ := constants_track_variables hstarted (.inr (.inl ⟨_, hcons⟩))
  have hbound : ((s.past 6).declared x (.int 5)).folder.bindingAt ⟨x, 0⟩ = some (.int 5) := by
    simp [ParseState.declared, ParseState.past, hs.folds, hs.scope, Settings.standard, Scope.top,
      Folder.bindingAt_bind]
  exact ⟨s, _, x, hstarted, .inl ⟨_, hcons⟩, hx, o, log, ho, hc, (hall log hc).1 _ _ hbound⟩

end Parse

/-!
### Complete expressions and what folding makes of them

Code generation accepts the nodes that are flagged, unless a table of constants is too small, and
refuses the others.
-/

namespace Parse

variable {text : String} {settings : Settings} {id : ExprId} {s t : ParseState}

/-- An expression as it is handed to folding: it is read as a whole, and checked for what it is to
be there. Whatever statement folds an expression does so right behind such a check. -/
inductive Handed (text : String) (settings : Settings) (id : ExprId) : ParseState → Prop
  | checked {isValue : Bool} {s u t : ParseState} {α : Type} {p : Env → Check α} {a : α} :
    Started text settings (.expr .assign isValue, s) →
    production (.expr .assign isValue) s = .ok id u → Completes id p → check p u = .ok a t →
    Handed text settings id t

/-- Its nodes are flagged just if they are constant where it is folded. -/
theorem Handed.flagged (h : Handed text settings id t) : ∃ b, t.tree.Holds [b] ∧
    b.root = .expr id ∧ b.Flagged (t.folder.isBound · t.scope.depth) := by
  obtain @⟨isValue, s, u, t, _, p, a, hstarted, hrun, hp, hcheck⟩ := h
  obtain ⟨o, -, F, hready⟩ := hstarted.ready
  obtain ⟨-, x, hx, hu⟩ := (grafting_production o _ F s hready).meets.of_ok hrun
  obtain ⟨-, -, y, hy, -, ht⟩ := (grafts_check (k := 0) hp hu hx).meets.of_ok hcheck
  exact ⟨y, ht.holds.left, hy,
    (ht.flagged y (by simp)).mono fun name hname => ht.reading.isBound hname⟩

/-- A literal that is a statement is folded. -/
theorem Started.handed_literal {v : Value} {n : Nat} (h : Started text settings (.stmt, s))
    (hlit : s.window.AtLiteral v) (hroom : s.tree.Roomy (n + 1)) :
    ∃ id t e, Handed text settings id t ∧ t.tree.expr id = .ok e ∧ e.kind = .literal v := by
  let r : ParseState := { s with reports := s.reports.beginStatement }
  have hr : r.Sound := (h.sound.onto_beginStatement 0).sound
  have hnil : r.tree.Holds [] := hr.tree.holds_nil
  obtain ⟨id, e, tree, hrun, hholds, hk, hroom⟩ := production_literal (s := r) hlit hr hnil hroom
    false
  obtain ⟨u, hinfer, hholds, -⟩ := Check.infer_literal r.env hholds hk hroom r.reports
  have hcheck := check_eq (s := { r.past 1 with tree }) (p := fun env => Check.infer env id) hinfer
  exact ⟨id, _, _, .checked (h.call (stmt_calls_expr hlit.value)) hrun .infer hcheck, hholds.expr,
    hk⟩

/-- Outside the bodies of lambdas, flags tell which nodes are lowered where an expression is folded;
the values of those that are flagged have all their names. -/
theorem flags_decide_lowering (h : Handed text settings id t) : ∃ b, t.tree.Holds [b] ∧
    b.root = .expr id ∧ ∀ x, b.Reached ExprKind.enclosed x → ∀ i, x.root = .expr i →
      ∃ e, x.node = .expr e ∧ t.tree.expr i = .ok e ∧
        (e.isConstant = true →
          ((∃ c, t.folder.lower t.scope.depth t.tree i = .ok () c) ∨
            ∃ c, t.folder.lower t.scope.depth t.tree i = .error (.cause .tooManyConstants) c) ∧
          ∀ err, t.folder.evaluate t.scope.depth t.tree i = .error err →
            err ≠ .cause .notConstant ∧ err ≠ .cause .unbound) ∧
        (e.isConstant = false →
          ∃ err c, t.folder.lower t.scope.depth t.tree i = .error (.cause err) c ∧
            (err = .notConstant ∨ err = .tooManyConstants)) := by
  obtain ⟨b, hholds, hb, hflagged⟩ := h.flagged
  refine ⟨b, hholds, hb, fun x hx i hi => ?_⟩
  have hinner := hholds.inner (by simpa using hx.mem_all)
  obtain ⟨e, xs, rfl⟩ := hinner.exists_expr hi
  exact ⟨e, rfl, hinner.expr, Folder.lower_flagged hinner rfl (hflagged.reached hx).here⟩

/-- A literal is flagged, and can be lowered. -/
theorem flagged_literal_lowered : ∃ id t e, Handed "5;" .standard id t ∧ t.tree.expr id = .ok e ∧
    e.isConstant = true ∧
    ((∃ c, t.folder.lower t.scope.depth t.tree id = .ok () c) ∨
      ∃ c, t.folder.lower t.scope.depth t.tree id = .error (.cause .tooManyConstants) c) := by
  have hlit : (Window.ofText "5;").AtLiteral (.int 5) := by constructor <;> decide +kernel
  have hslots : 9 * poolBatch ≤ min Settings.standard.poolReserve maxOffset := by decide
  obtain ⟨s, hs, -⟩ := ParseState.exists_opens "5;" .standard (n := 0) (by decide) hslots
  have hwindow : s.window = Window.ofText "5;" := by
    rw [hs.window, Window.skipErrors_of_ne (Term.plain_of_literal hlit.value).1]
  have hstarted : Started "5;" .standard (.stmt, s) :=
    (Started.first (ParseState.ofText_eq_ok.2 hs)).call (program_calls_stmt
      (by rw [hwindow]; decide +kernel) (by rw [hs.reports]; decide +kernel))
  have hroom : s.tree.Roomy (8 + 1) := hs.tree ▸ Tree.roomy_withMaxSlots hslots
  obtain ⟨id, t, e, hhanded, he, hk⟩ := hstarted.handed_literal (hwindow ▸ hlit) hroom
  obtain ⟨b, hholds, hb, hflags⟩ := flags_decide_lowering hhanded
  obtain ⟨e', hb', he', hlower, -⟩ := hflags b .here id hb
  obtain rfl := Except.ok.inj (he.symm.trans he')
  have hflag : e.isConstant = true := by
    obtain ⟨b, hholds, hb, hflagged⟩ := hhanded.flagged
    obtain ⟨x, xs, rfl⟩ := hholds.exists_expr hb
    obtain rfl := Except.ok.inj (hholds.expr.symm.trans he)
    exact hflagged.here.trans (Branch.isConstant_of_literal hholds (Expr.literal?_eq_some.2 hk))
  exact ⟨id, t, e, hhanded, he, hflag, (hlower hflag).1⟩

end Parse

end FrontEnd
