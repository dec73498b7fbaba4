import FrontEnd.Proofs.Pair.Reports
import FrontEnd.Proofs.Pair.Pools
import FrontEnd.Proofs.Pair.Types

/-!
Two runs of the checker, with and without a ceiling for reports, or with different storages. The
checker asks its environment nothing but what is the same in matching ones.
-/

namespace FrontEnd

/-! ### Environments -/

section

variable {t u : TypeTable} {v w : Env}

section

variable (h : t.desc = u.desc)

include h

theorem checkUnary_eq : checkUnary t = checkUnary u := by
  funext op operand
  have haccepts : op.accepts t operand = op.accepts u operand := by
    cases op <;>
      simp only [UnaryOp.accepts, TypeTable.isNumeric_eq h, TypeTable.isIntegral_eq h]
  rw [checkUnary, checkUnary, haccepts]

theorem checkBinary_eq : checkBinary t = checkBinary u := by
  funext op left right
  have haccepts (group : OperatorGroup) :
      group.accepts t left right = group.accepts u left right := by
    cases group <;> simp only [OperatorGroup.accepts, TypeTable.isNumeric_eq h,
      TypeTable.isIntegral_eq h, TypeTable.equal_eq h, TypeTable.wider_eq_of_desc h]
  simp only [checkBinary, haccepts]

end

namespace Env.Matches

open Check

variable (h : v.Matches w)

include h

theorem report_eq : report v = report w := by
  funext code span message label
  simp only [report, h.lines]

theorem describe_eq : describe v = describe w := by
  funext type
  rw [describe, describe, TypeTable.describe_eq h.desc h.lookup]

theorem quote_eq : quote v = quote w := by
  funext type
  rw [quote, quote, h.describe_eq]

theorem quoteName_eq : quoteName v = quoteName w := by
  funext name
  rw [quoteName, quoteName, h.lookup]

theorem inferVar_eq : inferVar v = inferVar w := by
  funext name span
  rw [inferVar, inferVar, h.resolveVar_eq, h.report_eq, h.quoteName_eq]

theorem settle_eq : settle v = settle w := by
  funext result span message label
  rw [settle, settle, h.report_eq]

theorem applyUnary_eq : applyUnary v = applyUnary w := by
  funext op operand span
  rw [applyUnary, applyUnary, h.settle_eq, h.quote_eq, checkUnary_eq h.desc]

theorem operandsMessage_eq : operandsMessage v = operandsMessage w := by
  funext symbol left right
  rw [operandsMessage, operandsMessage, h.quote_eq]

theorem applyBinary_eq : applyBinary v = applyBinary w := by
  funext symbol op left right span
  rw [applyBinary, applyBinary, h.settle_eq, h.operandsMessage_eq, checkBinary_eq h.desc]

theorem storedType_eq : storedType v = storedType w := by
  funext op target value span
  simp only [storedType, h.applyBinary_eq, h.settle_eq, h.operandsMessage_eq, checkUnary_eq h.desc]

theorem inferCall_eq : inferCall v = inferCall w := by
  funext id callee args span
  simp only [inferCall, h.resolveCall_eq, h.functionDeclared_eq, h.quote_eq, h.quoteName_eq,
    h.report_eq]

theorem unknownMember_eq : unknownMember v = unknownMember w := by
  funext type field span
  rw [unknownMember, unknownMember, h.report_eq, h.quote_eq, h.quoteName_eq]

theorem variantType_eq : variantType v = variantType w := by
  funext type variant span
  simp only [variantType, TypeTable.kind_eq h.desc, h.unknownMember_eq]

theorem memberType_eq : memberType v = memberType w := by
  funext type field span
  simp only [memberType, TypeTable.kind_eq h.desc, h.unknownMember_eq, h.variantType_eq]

theorem typeNamed?_eq : typeNamed? v = typeNamed? w := by
  funext object
  simp only [typeNamed?, h.resolveVar_eq, h.resolveType_eq]

theorem inferNode_eq : inferNode v = inferNode w := by
  funext infer id
  simp only [inferNode, h.inferVar_eq, h.applyUnary_eq, h.applyBinary_eq, h.storedType_eq,
    TypeTable.compatible_eq h.desc, h.quote_eq, h.report_eq, h.inferCall_eq, h.typeNamed?_eq,
    h.variantType_eq, h.memberType_eq]

theorem inferWithin_eq : inferWithin v = inferWithin w := by
  funext depth
  induction depth with
  | zero => rfl
  | succ depth ih =>
    funext id
    rw [inferWithin, inferWithin, h.inferNode_eq, ih]

theorem infer_eq : infer v = infer w := by
  funext id
  rw [infer, infer, h.inferWithin_eq]

theorem checkReturn_eq : checkReturn v = checkReturn w := by
  funext value expected statement
  simp only [checkReturn, h.infer_eq, h.report_eq, h.quote_eq, TypeTable.compatible_eq h.desc]

theorem checkPrint_eq : checkPrint v = checkPrint w := by
  funext value
  have hprintable : isPrintable v = isPrintable w := by
    funext type
    simp only [isPrintable, TypeTable.isNumeric_eq h.desc, TypeTable.kind_eq h.desc]
  rw [checkPrint, checkPrint, h.infer_eq, hprintable, h.quote_eq, h.report_eq]

theorem checkCondition_eq : checkCondition v = checkCondition w := by
  funext cond
  simp only [checkCondition, h.infer_eq, TypeTable.isNumeric_eq h.desc, h.quote_eq, h.report_eq]

theorem checkInitializer_eq : checkInitializer v = checkInitializer w := by
  funext name declared init
  rw [checkInitializer, checkInitializer, h.infer_eq, TypeTable.compatible_eq h.desc,
    h.quoteName_eq, h.quote_eq, h.report_eq]

end Env.Matches

end

/-! ### Runs -/

section

open Tie

namespace Check

variable {D : Prop} {n : Nat} {env : Env} {α β : Type}

/-- The trees match, and the reports do up to the ceiling. Unless `D` holds, a run can also stop
alone. -/
def tie (D : Prop) (n : Nat) : Tie Fault CheckState where
  inStep s t := s.tree.Matches D t.tree ∧ s.reports.Limits n t.reports
  parted x y := x.2.reports.Cut n y.2.reports ∨ ¬D ∧ (x.1.isSome ∨ y.1.isSome)
  leads x y := x.2.reports.Later y.2.reports ∧ (x.1.isSome → y.1.isSome)

instance : (tie D n).Lawful where
  refl _ := ⟨.refl _, id⟩
  trans h h' := ⟨h.1.trans h'.1, h'.2 ∘ h.2⟩
  left h hl := h.imp (fun hc => hc.left hl.1) fun ⟨hD, hs⟩ => ⟨hD, hs.imp hl.2 id⟩
  right h hl := h.imp (fun hc => hc.right hl.1) fun ⟨hD, hs⟩ => ⟨hD, hs.imp id hl.2⟩

theorem steps_throw (f : Fault) : (tie D n).Steps (throw f : Check α) :=
  .mk (fun _ => ⟨.refl _, nofun⟩) fun _ _ h => .stop h

theorem steps_ofExcept (r : Except Fault α) : (tie D n).Steps (ofExcept r : Check α) := by
  cases r with
  | ok a => exact steps_pure a
  | error f => exact steps_throw f

theorem ofExcept_eq (r : Except Fault α) (s : CheckState) :
    (ofExcept r : Check α) s = answered id s r := by
  cases r <;> rfl

theorem steps_expr (id : ExprId) : (tie D n).Steps (expr id) :=
  lockstep_look (fun s => steps_ofExcept _) fun s t h => by rw [h.1.expr_eq]

theorem steps_setExpr (id : ExprId) (e : Expr) : (tie D n).Steps (setExpr id e) := by
  refine steps_get_bind (fun s => ?_) fun s t h => ?_
  · exact leads_answer (ofExcept_eq _ s) (fun _ => ⟨.refl _, nofun⟩) fun tree _ => ⟨.refl _, nofun⟩
  · refine Pair.answer (ofExcept_eq _ s) (ofExcept_eq _ t) h (h.1.setExpr id e)
      (fun hD _ _ => .inr ⟨hD, .inl rfl⟩) (fun hD _ _ => .inr ⟨hD, .inr rfl⟩)
      fun tree tree' ht => ?_
    exact .ok ⟨ht, h.2⟩

theorem steps_span (id : ExprId) : (tie D n).Steps (span id) :=
  (steps_expr id).bind fun _ => steps_pure _

theorem steps_record (id : ExprId) (type : TypeId) : (tie D n).Steps (record id type) :=
  (steps_expr id).bind fun _ => steps_setExpr id _

theorem steps_report {code : ErrorCode} (hcode : code ≠ .tooManyErrors) (span : Span)
    (message label : String) : (tie D n).Steps (report env code span message label) := by
  refine steps_get_bind (fun s => ?_) fun s t h => ?_
  · exact leads_answer (ofExcept_eq _ s) (fun _ => ⟨.refl _, nofun⟩) fun reports hr =>
      ⟨Queue.later_emitSpanned hcode hr, nofun⟩
  · refine Pair.answer (ofExcept_eq _ s) (ofExcept_eq _ t) h (h.2.emitSpanned hcode env.lines)
      (fun hD _ _ => .inr ⟨hD, .inl rfl⟩) (fun hD _ _ => .inr ⟨hD, .inr rfl⟩) fun q u hqu => ?_
    rcases hqu with hqu | hqu
    · exact .ok ⟨h.1, hqu⟩
    · exact .parted (.inl hqu)

theorem steps_quote (type : TypeId) : (tie D n).Steps (quote env type) :=
  Lockstep.bind (steps_ofExcept _) fun _ => steps_pure _

theorem steps_inferVar (name : Name) (span : Span) : (tie D n).Steps (inferVar env name span) := by
  unfold inferVar
  split
  · exact steps_pure _
  · exact (steps_report (by decide) ..).bind fun _ => steps_pure _

theorem steps_settle {result : Application} {span : Span} {message : Check String}
    {label : String} (h : (tie D n).Steps message) :
    (tie D n).Steps (settle env result span message label) := by
  unfold settle
  cases result.isAccepted with
  | true => exact steps_pure _
  | false => exact h.bind fun _ => (steps_report (by decide) ..).bind fun _ => steps_pure _

theorem steps_operandsMessage (symbol : String) (left right : TypeId) :
    (tie D n).Steps (operandsMessage env symbol left right) :=
  (steps_quote left).bind fun _ => (steps_quote right).bind fun _ => steps_pure _

theorem steps_applyUnary (op : UnaryOp) (operand : TypeId) (span : Span) :
    (tie D n).Steps (applyUnary env op operand span) :=
  (steps_ofExcept _).bind fun _ =>
    steps_settle ((steps_quote operand).bind fun _ => steps_pure _)

theorem steps_applyBinary (symbol : String) (op : BinaryOp) (left right : TypeId) (span : Span) :
    (tie D n).Steps (applyBinary env symbol op left right span) :=
  (steps_ofExcept _).bind fun _ => steps_settle (steps_operandsMessage ..)

theorem steps_storedType (op : AssignOp) (target value : TypeId) (span : Span) :
    (tie D n).Steps (storedType env op target value span) := by
  cases op with
  | assign => exact steps_pure _
  | compound binary => exact steps_applyBinary ..
  | complement =>
    exact (steps_ofExcept _).bind fun _ => steps_settle (steps_operandsMessage ..)

theorem steps_inferCall (id : ExprId) (callee : Name) (args : List TypeId) (span : Span) :
    (tie D n).Steps (inferCall env id callee args span) := by
  refine (steps_ofExcept _).bind fun resolved => ?_
  cases resolved with
  | some resolved =>
    refine (steps_expr id).bind fun call => ?_
    cases hk : call.kind with
    | call callee list mangled => exact (steps_setExpr ..).bind fun _ => steps_pure _
    | _ => exact steps_pure _
  | none =>
    dsimp only
    split
    · refine (lockstep_mapM args fun type _ => steps_quote type).bind fun _ => ?_
      exact (steps_report (by decide) ..).bind fun _ => steps_pure _
    · exact (steps_report (by decide) ..).bind fun _ => steps_pure _

theorem steps_unknownMember (type : TypeId) (field : Name) (span : Span) :
    (tie D n).Steps (unknownMember env type field span) :=
  (steps_quote type).bind fun _ => (steps_report (by decide) ..).bind fun _ => steps_pure _

theorem steps_variantType (type : TypeId) (variant : Name) (span : Span) :
    (tie D n).Steps (variantType env type variant span) := by
  refine (steps_ofExcept _).bind fun kind => ?_
  cases kind with
  | enum name variants =>
    dsimp only
    split
    · exact steps_pure _
    · exact steps_unknownMember ..
  | _ => exact steps_unknownMember ..

theorem steps_memberType (type : TypeId) (field : Name) (span : Span) :
    (tie D n).Steps (memberType env type field span) := by
  refine (steps_ofExcept _).bind fun kind => ?_
  split
  · exact steps_pure _
  · split
    · exact steps_pure _
    · exact steps_unknownMember ..
  · exact steps_variantType ..

/-! ### Inference -/

/-- One node, given the inference of its children. -/
theorem lockstep_inferNode {f g : ExprId → Check TypeId}
    (h : ∀ id, (tie D n).Lockstep (f id) (g id))
    (id : ExprId) : (tie D n).Lockstep (inferNode env f id) (inferNode env g id) := by
  refine (steps_expr id).bind fun e => ?_
  cases e.kind with
  | error | literal _ | str _ | lambda _ _ => exact steps_pure _
  | group inner => exact h inner
  | var name => exact steps_inferVar ..
  | unary op operand => exact (h operand).bind fun _ => steps_applyUnary ..
  | binary op left right =>
    exact (h left).bind fun _ => (h right).bind fun _ => steps_applyBinary ..
  | assign op target value =>
    refine (h target).bind fun _ => (h value).bind fun _ => (steps_storedType ..).bind fun _ => ?_
    refine (steps_ofExcept _).bind fun fits => ?_
    cases fits with
    | true => exact steps_pure _
    | false =>
      refine (steps_quote _).bind fun _ => (steps_quote _).bind fun _ => ?_
      exact (steps_span value).bind fun _ => (steps_report (by decide) ..).bind fun _ =>
        steps_pure _
  | call callee args mangled =>
    refine lockstep_look (fun s => ?_) fun s t hst => by rw [hst.1.exprList_eq]
    exact (lockstep_mapM _ fun id _ => h id).bind fun _ => steps_inferCall ..
  | member object field =>
    refine (steps_expr object).bind fun o => ?_
    cases typeNamed? env o with
    | some type => exact (steps_record ..).bind fun _ => steps_variantType ..
    | none => exact (h object).bind fun _ => steps_memberType ..

theorem steps_inferWithin (depth : Nat) (id : ExprId) :
    (tie D n).Steps (inferWithin env depth id) := by
  induction depth generalizing id with
  | zero => exact steps_throw _
  | succ depth ih =>
    exact (lockstep_inferNode ih id).bind fun _ => (steps_record ..).bind fun _ => steps_pure _

/-- Inference goes on in the same way until one run has no more steps. -/
theorem lockstep_inferWithin {d e : Nat} (hde : D → d = e) (id : ExprId) :
    (tie D n).Lockstep (inferWithin env d id) (inferWithin env e id) := by
  by_cases hD : D
  · rw [hde hD]
    exact steps_inferWithin e id
  · induction d generalizing e id with
    | zero =>
      exact ⟨(steps_inferWithin 0 id).left, (steps_inferWithin e id).left,
        fun _ _ _ => .parted (.inr ⟨hD, .inl rfl⟩)⟩
    | succ d ih =>
      cases e with
      | zero =>
        exact ⟨(steps_inferWithin (d + 1) id).left, (steps_inferWithin 0 id).left,
          fun _ _ _ => .parted (.inr ⟨hD, .inr rfl⟩)⟩
      | succ e =>
        refine (lockstep_inferNode (ih fun h => absurd h hD) id).bind fun _ => ?_
        exact (steps_record ..).bind fun _ => steps_pure _

theorem steps_infer (id : ExprId) : (tie D n).Steps (infer env id) := by
  refine steps_get_bind (fun s => (steps_inferWithin (D := D) (n := n) _ id).left s) fun s t h => ?_
  exact (lockstep_inferWithin (fun hD => by rw [h.1.eq hD]) id).pair s t h

/-! ### Statements -/

theorem steps_checkReturn (value : Option ExprId) (expected : Option TypeId) (span : Span) :
    (tie D n).Steps (checkReturn env value expected span) := by
  refine Lockstep.bind (p := value.mapM fun id => do return (id, ← infer env id)) ?_
    fun actual => ?_
  · cases value with
    | none => exact steps_pure _
    | some id => exact ((steps_infer id).bind fun _ => steps_pure _).map
  cases expected.filter (· ≠ .invalid) with
  | none => exact steps_pure _
  | some expected =>
    cases actual with
    | none =>
      dsimp only
      split
      · exact (steps_quote _).bind fun _ => steps_report (by decide) ..
      · exact steps_pure _
    | some found =>
      dsimp only
      split
      · exact steps_pure _
      · split
        · split
          · refine (steps_quote _).bind fun _ => ?_
            exact (steps_span _).bind fun _ => steps_report (by decide) ..
          · exact steps_pure _
        · have hfits (fits : Bool) : (tie D n).Steps (if fits = true then pure () else do
              let message := "expected return type " ++ (← quote env expected) ++ ", found " ++
                (← quote env found.2)
              report env .returnType (← Check.span found.1) message "returned here") := by
            cases fits with
            | true => exact steps_pure _
            | false =>
              refine (steps_quote _).bind fun _ => (steps_quote _).bind fun _ => ?_
              exact (steps_span _).bind fun _ => steps_report (by decide) ..
          split
          · exact (steps_pure _).bind hfits
          · exact (steps_ofExcept _).bind hfits

theorem steps_checkPrint (value : ExprId) : (tie D n).Steps (checkPrint env value) := by
  refine (steps_infer value).bind fun type => (steps_ofExcept _).bind fun printable => ?_
  cases printable with
  | true => exact steps_pure _
  | false =>
    exact (steps_quote _).bind fun _ => (steps_span _).bind fun _ => steps_report (by decide) ..

theorem steps_checkCondition (cond : ExprId) : (tie D n).Steps (checkCondition env cond) := by
  refine (steps_infer cond).bind fun type => ?_
  have hfits (fits : Bool) : (tie D n).Steps (if fits = true then pure () else do
      let message := "condition must be `Bool` or numeric, found " ++ (← quote env type)
      report env .condition (← span cond) message "condition") := by
    cases fits with
    | true => exact steps_pure _
    | false =>
      exact (steps_quote _).bind fun _ => (steps_span _).bind fun _ =>
        steps_report (by decide) ..
  dsimp only
  split
  · exact (steps_pure _).bind hfits
  · exact (steps_ofExcept _).bind hfits

theorem steps_checkInitializer (name : Name) (declared : TypeId) (init : ExprId) :
    (tie D n).Steps (checkInitializer env name declared init) := by
  refine (steps_infer init).bind fun type => ?_
  dsimp only
  split
  · exact steps_pure _
  · refine (steps_ofExcept _).bind fun fits => ?_
    cases fits with
    | true => exact steps_pure _
    | false =>
      refine (steps_quote _).bind fun _ => (steps_quote _).bind fun _ => ?_
      exact (steps_span _).bind fun _ => (steps_report (by decide) ..).bind fun _ => steps_pure _

end Check

end

end FrontEnd
