import FrontEnd.Proofs.Grammar.Outcome
import FrontEnd.Proofs.Report.LexicalReports
import FrontEnd.Proofs.Syntax.NodeCount
import FrontEnd.Proofs.Syntax.StoredStatements

/-! What no step of the checker undoes. -/

namespace FrontEnd

/-- The storages are sound, no report was taken back, no lexical error reported, and no node came or
went. Reports stand where they point. -/
structure CheckState.Later (lines : Lines) (t u : CheckState) : Prop where
  tree : u.tree.Sound
  reports : u.reports.Sound
  accounts : t.reports.Accounts [] u.reports
  placed : t.reports.Placed lines → u.reports.Placed lines
  comprises : ∀ ids, t.tree.Comprises ids → u.tree.Comprises ids
  stmts : u.tree.stmts = t.tree.stmts

/-- From sound storages a step leads on to a later state. -/
def CheckState.Onto (lines : Lines) (t u : CheckState) : Prop :=
  t.tree.Sound → t.reports.Sound → t.Later lines u

instance (lines : Lines) : Std.Refl (CheckState.Onto lines) :=
  ⟨fun t ht hq => ⟨ht, hq, .refl t.reports, id, fun _ => id, rfl⟩⟩

instance (lines : Lines) :
    Trans (CheckState.Onto lines) (CheckState.Onto lines) (CheckState.Onto lines) where
  trans h h' ht hq := by
    have h₁ := h ht hq
    have h₂ := h' h₁.tree h₁.reports
    exact ⟨h₂.tree, h₂.reports, h₁.accounts.trans h₂.accounts, fun hp => h₂.placed (h₁.placed hp),
      fun ids hi => h₂.comprises ids (h₁.comprises ids hi), h₂.stmts.trans h₁.stmts⟩

namespace Check

variable {env : Env} {α : Type}

/-- A step that only adds reports and rewrites live expressions. -/
abbrev Steady (env : Env) (p : Check α) : Prop :=
  Keeps (CheckState.Onto env.lines) (fun t _ u => t.Onto env.lines u) p

theorem steady_ofExcept (r : Except Fault α) : Steady env (ofExcept r) :=
  keeps_ofExcept fun _ t _ => Std.Refl.refl t

theorem steady_expr (id : ExprId) : Steady env (expr id) :=
  keeps_get.bind fun _ => steady_ofExcept _

theorem steady_setExpr (id : ExprId) (e : Expr) : Steady env (setExpr id e) := by
  refine keeps_get_bind fun t =>
    Meets.bind (R := fun tree u => u = t ∧ t.tree.setExpr id e = .ok tree)
    (meets_ofExcept (fun tree h => ⟨rfl, h⟩) fun _ _ => Std.Refl.refl t) ?_
  rintro tree u ⟨rfl, hs⟩
  exact meets_set fun ht hq =>
    ⟨(ht.setExpr hs).sound, hq, .refl u.reports, fun hp => hp, fun _ hc => hc.setExpr hs,
      Tree.stmts_setExpr hs⟩

theorem steady_span (id : ExprId) : Steady env (span id) :=
  (steady_expr id).bind fun _ => keeps_pure _

theorem steady_record (id : ExprId) (type : TypeId) : Steady env (record id type) :=
  (steady_expr id).bind fun _ => steady_setExpr id _

theorem steady_report {code : ErrorCode} (hcode : code.stage ≠ .lexer) (span : Span)
    (message label : String) : Steady env (report env code span message label) := by
  refine keeps_get_bind fun t => Meets.bind (R := fun reports u => u = t ∧
      ∃ line col, reports = t.reports.add ((Report.on code message span label).placed line col) ∧
        ((Report.on code message span label).placed line col).Placed env.lines)
    (meets_ofExcept (fun _ h => ⟨rfl, Queue.emitSpanned_placed h⟩) fun _ _ => Std.Refl.refl t) ?_
  rintro _ u ⟨rfl, line, col, rfl, hplace⟩
  exact meets_set fun ht hq =>
    ⟨ht, hq.add _, u.reports.accounts_add hcode, fun hp => hp.add hplace, fun _ => id, rfl⟩

theorem steady_describe (type : TypeId) : Steady env (describe env type) := steady_ofExcept _

theorem steady_quote (type : TypeId) : Steady env (quote env type) :=
  (steady_describe type).bind fun _ => keeps_pure _

theorem steady_inferVar (name : Name) (span : Span) : Steady env (inferVar env name span) := by
  unfold inferVar
  split
  · exact keeps_pure _
  · exact (steady_report (by decide) ..).bind fun _ => keeps_pure _

theorem steady_settle {result : Application} {span : Span} {message : Check String}
    {label : String} (h : Steady env message) :
    Steady env (settle env result span message label) := by
  unfold settle
  cases result.isAccepted with
  | true => exact keeps_pure _
  | false => exact h.bind fun _ => (steady_report (by decide) ..).bind fun _ => keeps_pure _

theorem steady_operandsMessage (symbol : String) (left right : TypeId) :
    Steady env (operandsMessage env symbol left right) :=
  (steady_quote left).bind fun _ => (steady_quote right).bind fun _ => keeps_pure _

theorem steady_applyUnary (op : UnaryOp) (operand : TypeId) (span : Span) :
    Steady env (applyUnary env op operand span) :=
  (steady_ofExcept _).bind fun _ =>
    steady_settle ((steady_quote operand).bind fun _ => keeps_pure _)

theorem steady_applyBinary (symbol : String) (op : BinaryOp) (left right : TypeId) (span : Span) :
    Steady env (applyBinary env symbol op left right span) :=
  (steady_ofExcept _).bind fun _ => steady_settle (steady_operandsMessage ..)

theorem steady_storedType (op : AssignOp) (target value : TypeId) (span : Span) :
    Steady env (storedType env op target value span) := by
  cases op with
  | assign => exact keeps_pure _
  | compound binary => exact steady_applyBinary ..
  | complement =>
    exact (steady_ofExcept _).bind fun _ => steady_settle (steady_operandsMessage ..)

theorem steady_inferCall (id : ExprId) (callee : Name) (args : List TypeId) (span : Span) :
    Steady env (inferCall env id callee args span) := by
  refine (steady_ofExcept _).bind fun resolved => ?_
  cases resolved with
  | some resolved =>
    refine (steady_expr id).bind fun call => ?_
    cases hk : call.kind with
    | call callee list mangled => exact (steady_setExpr ..).bind fun _ => keeps_pure _
    | _ => exact keeps_pure _
  | none =>
    dsimp only
    split
    · refine (keeps_mapM args fun type _ => steady_quote type).bind fun _ => ?_
      exact (steady_report (by decide) ..).bind fun _ => keeps_pure _
    · exact (steady_report (by decide) ..).bind fun _ => keeps_pure _

theorem steady_unknownMember (type : TypeId) (field : Name) (span : Span) :
    Steady env (unknownMember env type field span) :=
  (steady_quote type).bind fun _ => (steady_report (by decide) ..).bind fun _ => keeps_pure _

theorem steady_variantType (type : TypeId) (variant : Name) (span : Span) :
    Steady env (variantType env type variant span) := by
  refine (steady_ofExcept _).bind fun kind => ?_
  cases kind with
  | enum name variants =>
    dsimp only
    split
    · exact keeps_pure _
    · exact steady_unknownMember ..
  | _ => exact steady_unknownMember ..

theorem steady_memberType (type : TypeId) (field : Name) (span : Span) :
    Steady env (memberType env type field span) := by
  refine (steady_ofExcept _).bind fun kind => ?_
  split
  · exact keeps_pure _
  · split
    · exact keeps_pure _
    · exact steady_unknownMember ..
  · exact steady_variantType ..

/-- One node, given the inference of its children. -/
theorem steady_inferNode {infer : ExprId → Check TypeId} (h : ∀ id, Steady env (infer id))
    (id : ExprId) : Steady env (inferNode env infer id) := by
  refine (steady_expr id).bind fun e => ?_
  cases e.kind with
  | error | literal _ | str _ | lambda _ _ => exact keeps_pure _
  | group inner => exact h inner
  | var name => exact steady_inferVar ..
  | unary op operand => exact (h operand).bind fun _ => steady_applyUnary ..
  | binary op left right =>
    exact (h left).bind fun _ => (h right).bind fun _ => steady_applyBinary ..
  | assign op target value =>
    refine (h target).bind fun _ => (h value).bind fun _ => (steady_storedType ..).bind fun _ => ?_
    refine (steady_ofExcept _).bind fun fits => ?_
    cases fits with
    | true => exact keeps_pure _
    | false =>
      refine (steady_quote _).bind fun _ => (steady_quote _).bind fun _ => ?_
      exact (steady_span value).bind fun _ => (steady_report (by decide) ..).bind fun _ =>
        keeps_pure _
  | call callee args mangled =>
    exact keeps_get.bind fun _ => (keeps_mapM _ fun id _ => h id).bind fun _ => steady_inferCall ..
  | member object field =>
    refine (steady_expr object).bind fun o => ?_
    cases typeNamed? env o with
    | some type => exact (steady_record ..).bind fun _ => steady_variantType ..
    | none => exact (h object).bind fun _ => steady_memberType ..

theorem steady_inferWithin (depth : Nat) (id : ExprId) : Steady env (inferWithin env depth id) := by
  induction depth generalizing id with
  | zero => exact keeps_throw Std.Refl.refl
  | succ depth ih =>
    exact (steady_inferNode ih id).bind fun _ => (steady_record ..).bind fun _ => keeps_pure _

theorem steady_infer (id : ExprId) : Steady env (infer env id) :=
  keeps_get.bind fun _ => steady_inferWithin _ id

/-! ### Statements -/

theorem steady_checkReturn (value : Option ExprId) (expected : Option TypeId) (span : Span) :
    Steady env (checkReturn env value expected span) := by
  refine Keeps.bind ?_ fun actual => ?_
  · cases value with
    | none => exact keeps_pure _
    | some id => exact ((steady_infer id).bind fun _ => keeps_pure _).map
  cases expected.filter (· ≠ .invalid) with
  | none => exact keeps_pure _
  | some expected =>
    cases actual with
    | none =>
      dsimp only
      split
      · exact (steady_quote _).bind fun _ => steady_report (by decide) ..
      · exact keeps_pure _
    | some found =>
      dsimp only
      split
      · exact keeps_pure _
      · split
        · split
          · refine (steady_quote _).bind fun _ => ?_
            exact (steady_span _).bind fun _ => steady_report (by decide) ..
          · exact keeps_pure _
        · have hfits (fits : Bool) : Steady env (if fits = true then pure () else do
              let message := "expected return type " ++ (← quote env expected) ++ ", found " ++
                (← quote env found.2)
              report env .returnType (← Check.span found.1) message "returned here") := by
            cases fits with
            | true => exact keeps_pure _
            | false =>
              refine (steady_quote _).bind fun _ => (steady_quote _).bind fun _ => ?_
              exact (steady_span _).bind fun _ => steady_report (by decide) ..
          split
          · exact (keeps_pure _).bind hfits
          · exact (steady_ofExcept _).bind hfits

theorem steady_checkPrint (value : ExprId) : Steady env (checkPrint env value) := by
  refine (steady_infer value).bind fun type => (steady_ofExcept _).bind fun printable => ?_
  cases printable with
  | true => exact keeps_pure _
  | false =>
    exact (steady_quote _).bind fun _ => (steady_span _).bind fun _ => steady_report (by decide) ..

theorem steady_checkCondition (cond : ExprId) : Steady env (checkCondition env cond) := by
  refine (steady_infer cond).bind fun type => ?_
  have hfits (fits : Bool) : Steady env (if fits = true then pure () else do
      let message := "condition must be `Bool` or numeric, found " ++ (← quote env type)
      report env .condition (← span cond) message "condition") := by
    cases fits with
    | true => exact keeps_pure _
    | false =>
      exact (steady_quote _).bind fun _ => (steady_span _).bind fun _ =>
        steady_report (by decide) ..
  dsimp only
  split
  · exact (keeps_pure _).bind hfits
  · exact (steady_ofExcept _).bind hfits

theorem steady_checkInitializer (name : Name) (declared : TypeId) (init : ExprId) :
    Steady env (checkInitializer env name declared init) := by
  refine (steady_infer init).bind fun type => ?_
  dsimp only
  split
  · exact keeps_pure _
  · refine (steady_ofExcept _).bind fun fits => ?_
    cases fits with
    | true => exact keeps_pure _
    | false =>
      refine (steady_quote _).bind fun _ => (steady_quote _).bind fun _ => ?_
      exact (steady_span _).bind fun _ => (steady_report (by decide) ..).bind fun _ => keeps_pure _

end Check

end FrontEnd
