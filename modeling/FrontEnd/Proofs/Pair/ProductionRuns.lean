import FrontEnd.Proofs.Grammar.Ends
import FrontEnd.Proofs.Pair.ScopeRuns

/-! Two runs of reading one text: types, expressions and bodies. -/

namespace FrontEnd

open Tie

namespace Parse

variable {D : Prop} {n : Nat} {parse : Productions} (h : ∀ q, (tie D n).Steps (parse q))

include h

/-! ### Blocks and types -/

theorem steps_bodyItems : (tie D n).Steps (bodyItems parse) :=
  (h .items).bind fun _ => steps_addStmtList _

theorem steps_block : (tie D n).Steps (block parse) := by
  refine (steps_expect .openBrace).bind fun _ => ?_
  refine (steps_inScope (steps_bodyItems h)).bind fun _ => ?_
  exact (steps_spanFrom _).bind fun _ => steps_addStmt ..

theorem steps_functionBody (type : TypeId) : (tie D n).Steps (functionBody parse type) := by
  have hbody (signature : Option Signature) : (tie D n).Steps (inScope do
      signature.forM declareParams
      returning ((signature.map Signature.ret).getD .invalid) (bodyItems parse)) := by
    refine steps_inScope (Lockstep.bind ?_ fun _ => steps_returning _ (steps_bodyItems h))
    cases signature with
    | none => exact steps_pure _
    | some signature => exact steps_declareParams signature
  refine (steps_expect .openBrace).bind fun _ => lockstep_look (fun _ => ?_) fun _ _ hst => ?_
  · refine (steps_ofFault _).bind fun signature => (hbody signature).bind fun _ => ?_
    exact (steps_spanFrom _).bind fun _ => steps_addStmt ..
  · rw [TypeTable.function?_eq hst.types.desc_eq]

/-- A stop that was caught for the next item. -/
theorem leads_synchronize (start : Span) (q : Production) (s : ParseState) :
    (tie D n).leads (some .reported, s) (ending ((do synchronize start; parse q) s)) :=
  leads_of_reported (((steps_synchronize (D := D) (n := n) start).bind fun _ => h q).left s).1

theorem steps_afterItem (start : Span) (r : Except Stop StmtId) :
    (tie D n).Steps (afterItem parse start r) := by
  cases r with
  | ok id => exact (h .items).bind fun _ => steps_pure _
  | error stop =>
    cases stop with
    | reported => exact (steps_synchronize start).bind fun _ => h .items
    | exhausted cause => exact steps_throw _
    | fault f => exact steps_throw _

theorem leads_afterItem (start : Span) (e : Stop) (s : ParseState) :
    (tie D n).leads (some e, s) (ending (afterItem parse start (.error e) s)) := by
  cases e with
  | reported => exact leads_synchronize h start .items s
  | exhausted cause => exact Lawful.refl _
  | fault f => exact Lawful.refl _

theorem steps_items : (tie D n).Steps (items parse) := by
  refine (steps_eat .closeBrace).bind fun closed => ?_
  cases closed with
  | true => exact steps_pure _
  | false =>
    refine steps_truncated.bind fun truncated => ?_
    cases truncated with
    | true => exact steps_pure _
    | false =>
      have hrest : (tie D n).Steps (do
          afterItem parse (← currentSpan) (← attempt (parse .stmt))) :=
        steps_currentSpan.bind fun start =>
          steps_attempt (h .stmt) (steps_afterItem h start) (leads_afterItem h start)
      refine steps_atEnd.bind fun atEnd => ?_
      cases atEnd with
      | true => exact (steps_unexpected _).bind fun _ => hrest
      | false => exact hrest

theorem steps_params : (tie D n).Steps (params parse) := by
  have hname : (tie D n).Steps paramName := by
    refine (steps_currentIs .ident).bind fun named => ?_
    cases named with
    | true => exact steps_expectName.bind fun _ => steps_pure _
    | false => exact steps_pure _
  refine (steps_eat .ellipsis).bind fun dots => ?_
  cases dots with
  | true => exact steps_pure _
  | false =>
    refine (h .type).bind fun type => hname.bind fun name => (steps_eat .comma).bind fun more => ?_
    cases more with
    | true => exact (h .params).bind fun _ => steps_pure _
    | false => exact steps_pure _

theorem steps_signatureEnd (params : List (TypeId × Name) × Bool) :
    (tie D n).Steps (signatureEnd parse params) := by
  refine (steps_expect .closeParen).bind fun _ => (steps_eat .thinArrow).bind fun arrow => ?_
  cases arrow with
  | true => exact (h .type).bind fun _ => steps_addFunction _
  | false => exact (steps_pure _).bind fun _ => steps_addFunction _

theorem steps_signature : (tie D n).Steps (signature parse) := by
  refine (steps_expect .openParen).bind fun _ => (steps_currentIs .closeParen).bind fun none => ?_
  cases none with
  | true => exact (steps_pure _).bind (steps_signatureEnd h)
  | false => exact (h .params).bind (steps_signatureEnd h)

theorem steps_typeName : (tie D n).Steps (typeName parse) := by
  refine steps_current.bind fun token => ?_
  split
  · exact steps_advance.bind fun _ => steps_pure _
  · split
    · exact steps_advance.bind fun _ => steps_signature h
    · split
      · exact steps_namedType
      · split
        · exact steps_reject (by decide) ..
        · exact steps_expected (by decide) ..

/-! ### Expressions -/

omit h in
theorem steps_errorExpr (span : Span) : (tie D n).Steps (errorExpr span) := steps_addExpr ..

omit h in
theorem steps_literal (token : Token) : (tie D n).Steps (literal token) := by
  refine lockstep_look (fun s => steps_advance.bind fun _ => ?_) fun _ _ hst => by rw [hst.window]
  split
  · exact steps_addConstant ..
  · exact (steps_report (by decide) ..).bind fun _ => steps_errorExpr _

omit h in
theorem steps_stringLiteral (token : Token) : (tie D n).Steps (stringLiteral token) := by
  refine lockstep_look (fun s => steps_advance.bind fun _ => ?_) fun _ _ hst => by rw [hst.window]
  exact (steps_intern _).bind fun _ => steps_addExpr ..

omit h in
theorem steps_nameExpr : (tie D n).Steps nameExpr := by
  refine steps_expectName.bind fun name => (steps_isConstantName name.1).bind fun constant => ?_
  cases constant with
  | true => exact steps_addConstant ..
  | false => exact steps_addTarget ..

theorem steps_group : (tie D n).Steps (group parse) := by
  refine steps_advance.bind fun _ => (h .value).bind fun inner => ?_
  refine (steps_expect .closeParen).bind fun _ => (steps_spanFrom _).bind fun _ => ?_
  exact (steps_expr inner).bind fun _ => steps_addConstant ..

theorem steps_lambda : (tie D n).Steps (lambda parse) := by
  refine steps_advance.bind fun _ => (steps_signature h).bind fun type => ?_
  refine (steps_functionBody h type).bind fun _ => ?_
  exact (steps_spanFrom _).bind fun _ => steps_addExpr ..

theorem steps_primary : (tie D n).Steps (primary parse) := by
  refine steps_current.bind fun token => ?_
  split
  any_goals exact steps_literal token
  · exact steps_stringLiteral token
  · exact steps_nameExpr
  · exact steps_group h
  · exact steps_lambda h
  · exact steps_expected (by decide) ..

theorem steps_unary : (tie D n).Steps (unary parse) := by
  refine steps_current.bind fun token => ?_
  split
  · exact steps_primary h
  · refine steps_advance.bind fun _ => (h (.expr .call true)).bind fun id => ?_
    refine (steps_expr id).bind fun operand => ?_
    dsimp only
    split
    · refine (steps_report (by decide) ..).bind fun _ => ?_
      exact (steps_release id).bind fun _ => steps_errorExpr _
    · exact steps_addConstant ..

theorem steps_binary (left : ExprId) (level : Level) :
    (tie D n).Steps (binary parse left level) := by
  refine steps_current.bind fun token => ?_
  split
  · exact steps_unexpected _
  · refine steps_advance.bind fun _ => (h (.expr level.next true)).bind fun right => ?_
    exact (steps_expr left).bind fun _ => (steps_expr right).bind fun _ => steps_addConstant ..

theorem steps_assignment (target : ExprId) : (tie D n).Steps (assignment parse target) := by
  refine steps_current.bind fun token => ?_
  split
  · exact steps_unexpected _
  · refine steps_advance.bind fun _ => (h (.expr .assign false)).bind fun value => ?_
    refine (steps_expr target).bind fun lhs => (steps_expr value).bind fun _ => ?_
    dsimp only
    split
    · exact steps_addExpr ..
    · refine (steps_report (by decide) ..).bind fun _ => (steps_release target).bind fun _ => ?_
      exact (steps_release value).bind fun _ => steps_errorExpr _

theorem steps_args : (tie D n).Steps (args parse) := by
  refine (h .value).bind fun arg => (steps_eat .comma).bind fun more => ?_
  cases more with
  | true => exact (h .args).bind fun _ => steps_pure _
  | false => exact steps_pure _

omit h in
theorem steps_callEnd (left : ExprId) (object : Expr) (args : List ExprId) (span : Span) :
    (tie D n).Steps (callEnd left object args span) := by
  unfold callEnd
  split
  · exact steps_makeCall ..
  · refine (steps_report (by decide) ..).bind fun _ => (steps_release left).bind fun _ => ?_
    exact (steps_forM args steps_release).bind fun _ => steps_errorExpr _

omit h in
theorem steps_endCall (left : ExprId) (object : Expr) (args : List ExprId) :
    (tie D n).Steps (endCall left object args) :=
  (steps_expect .closeParen).bind fun _ => (steps_spanFrom _).bind fun _ => steps_callEnd ..

theorem steps_call (left : ExprId) (object : Expr) : (tie D n).Steps (call parse left object) := by
  refine (steps_expect .openParen).bind fun _ => (steps_currentIs .closeParen).bind fun none => ?_
  cases none with
  | true => exact (steps_pure _).bind (steps_endCall left object)
  | false => exact (h .args).bind (steps_endCall left object)

theorem steps_postfixForm (left : ExprId) : (tie D n).Steps (postfixForm parse left) := by
  refine (steps_expr left).bind fun object => (steps_eat .dot).bind fun dot => ?_
  cases dot with
  | true => exact steps_expectName.bind fun _ => steps_addTarget ..
  | false => exact steps_call h left object

theorem steps_infixes (left : ExprId) (least : Level) (isValue : Bool) :
    (tie D n).Steps (infixes parse left least isValue) := by
  refine steps_current.bind fun token => ?_
  dsimp only
  split
  · exact steps_pure _
  · split
    · exact (steps_assignment h left).bind fun whole => h (.infixes whole least isValue)
    · exact (steps_postfixForm h left).bind fun whole => h (.infixes whole least isValue)
    · exact (steps_binary h left _).bind fun whole => h (.infixes whole least isValue)

theorem steps_expression (least : Level) (isValue : Bool) :
    (tie D n).Steps (expression parse least isValue) :=
  (steps_unary h).bind fun left => h (.infixes left least isValue)

end Parse

end FrontEnd
