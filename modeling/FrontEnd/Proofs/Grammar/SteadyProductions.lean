import FrontEnd.Proofs.Grammar.Ends
import FrontEnd.Proofs.Grammar.SteadyScopes

/-! Every production is steady. -/

namespace FrontEnd

/-- How far around the current depth a production leaves declarations alone: statements declare
at the current depth, all else only inside blocks of its own. -/
def Production.reach : Production → Nat
  | .stmt | .items | .program => 0
  | _ => 1

namespace Parse

variable {α : Type} {p : Parse α}

theorem Steady.weaken (h : Steady 1 p) : Steady 0 p where
  meets s := (h.meets s).imp (fun _ _ ho hs => (ho hs).mono (Nat.zero_le _))
    fun _ _ ho hs => ⟨(ho hs).1.mono (Nat.zero_le _), (ho hs).2⟩

theorem Stores.weaken {p : Parse StmtId} (h : Stores 1 p) : Stores 0 p where
  steady := h.steady.weaken
  stored := h.stored

/-! ### Leaves and ends of expressions -/

section

variable {k : Nat}

theorem steady_errorExpr (span : Span) : Steady k (errorExpr span) := steady_addExpr ..

theorem steady_literal (token : Token) : Steady k (literal token) := by
  refine keeps_get.bind fun _ => steady_advance.bind fun _ => ?_
  split
  · exact steady_addConstant ..
  · exact (steady_report (by decide) ..).bind fun _ => steady_errorExpr _

theorem steady_stringLiteral (token : Token) : Steady k (stringLiteral token) :=
  keeps_get.bind fun _ => steady_advance.bind fun _ =>
    (steady_intern _).bind fun _ => steady_addExpr ..

theorem steady_nameExpr : Steady k nameExpr := by
  refine steady_expectName.bind fun name => Keeps.bind (p := isConstantName name.1) ?_ fun is => ?_
  · refine keeps_get.bind fun s => ?_
    split <;> exact keeps_pure _
  · cases is with
    | true => exact steady_addConstant ..
    | false => exact steady_addTarget ..

theorem steady_groupEnd (inner : ExprId) (span : Span) : Steady k (groupEnd inner span) :=
  (steady_expr inner).bind fun _ => steady_addConstant ..

theorem steady_unaryEnd (op : UnaryOp) (start : Span) (id : ExprId) :
    Steady k (unaryEnd op start id) := by
  refine (steady_expr id).bind fun operand => ?_
  dsimp only
  split
  · refine steady_report_bind (by decide) fun _ => ?_
    exact (loud_release id).bind fun _ => (steady_errorExpr _).loud
  · exact steady_addConstant ..

theorem steady_binaryEnd (op : BinaryOp) (left right : ExprId) :
    Steady k (binaryEnd op left right) :=
  (steady_expr left).bind fun _ => (steady_expr right).bind fun _ => steady_addConstant ..

theorem steady_assignmentEnd (op : AssignOp) (target value : ExprId) :
    Steady k (assignmentEnd op target value) := by
  refine (steady_expr target).bind fun lhs => (steady_expr value).bind fun _ => ?_
  dsimp only
  split
  · exact steady_addExpr ..
  · refine steady_report_bind (by decide) fun _ => (loud_release target).bind fun _ => ?_
    exact (loud_release value).bind fun _ => (steady_errorExpr _).loud

/-- The name of a function becomes the call of it. -/
theorem steady_makeCall (left : ExprId) (callee : Name) (args : List ExprId) (span : Span) :
    Steady k (makeCall left callee args span) := by
  refine keeps_get_bind fun s => ?_
  refine Meets.bind (R := fun tree t => t = s ∧ (s.tree.addExprList args).2.setExpr left
    (Expr.new (.call callee (s.tree.addExprList args).1 none) span) = .ok tree)
    (meets_ofFault (fun _ hr => ⟨rfl, hr⟩) fun _ _ hs => ⟨hs.refl k, by simp⟩) ?_
  rintro tree t ⟨rfl, hr⟩
  refine Meets.bind (R := fun _ u => u = { t with tree }) (meets_set rfl) ?_
  rintro _ _ rfl
  refine meets_pure fun hs => ?_
  have hlist : (t.tree.addExprList args).2.Sound := hs.tree
  have hstmts : tree.stmts = (t.tree.addExprList args).2.stmts := Tree.stmts_setExpr hr
  exact hs.onto_tree (hlist.setExpr hr).sound (fun _ => Tree.remains_of_stmts hstmts) k

theorem steady_callEnd (left : ExprId) (object : Expr) (args : List ExprId) (span : Span) :
    Steady k (callEnd left object args span) := by
  unfold callEnd
  split
  · exact steady_makeCall ..
  · refine steady_report_bind (by decide) fun _ => (loud_release left).bind fun _ => ?_
    exact Keeps.bind (keeps_forM args fun id => loud_release id) fun _ => (steady_errorExpr _).loud

theorem steady_endCall (left : ExprId) (object : Expr) (args : List ExprId) :
    Steady k (endCall left object args) :=
  (steady_expect .closeParen).bind fun _ => (steady_spanFrom _).bind fun _ => steady_callEnd ..

end

variable {parse : Productions} (h : ∀ q, Steady q.reach (parse q))

include h

/-! ### Blocks and types -/

theorem steady_bodyItems : Steady 0 (bodyItems parse) :=
  Keeps.bind (h .items) fun _ => steady_addStmtList _

theorem stores_block : Stores 1 (block parse) := by
  refine (steady_expect .openBrace).stores fun _ => ?_
  refine (steady_inScope (steady_bodyItems h)).stores fun _ => ?_
  exact (steady_spanFrom _).stores fun _ => stores_addStmt ..

theorem steady_functionBody (type : TypeId) : Steady 1 (functionBody parse type) := by
  refine (steady_expect .openBrace).bind fun _ => keeps_get.bind fun _ => ?_
  refine (steady_ofFault _).bind fun signature => (steady_inScope ?_).bind fun _ => ?_
  · exact (steady_declareParams? signature).bind fun _ => steady_returning _ (steady_bodyItems h)
  · exact (steady_spanFrom _).bind fun _ => steady_addStmt ..

theorem steady_afterItem (start : Span) (r : Except Stop StmtId) :
    Steady 0 (afterItem parse start r) := by
  cases r with
  | ok id => exact Keeps.bind (h .items) fun _ => keeps_pure _
  | error stop =>
    cases stop with
    | reported => exact (steady_synchronize start).bind fun _ => h .items
    | exhausted cause => exact keeps_throw fun s hs => ⟨hs.refl 0, by simp⟩
    | fault f => exact keeps_throw fun s hs => ⟨hs.refl 0, by simp⟩

theorem steady_items : Steady 0 (items parse) := by
  refine (steady_eat .closeBrace).bind fun closed => ?_
  cases closed with
  | true => exact keeps_pure _
  | false =>
    refine steady_truncated.bind fun truncated => ?_
    cases truncated with
    | true => exact keeps_pure _
    | false =>
      have hrest : Steady 0 (do afterItem parse (← currentSpan) (← attempt (parse .stmt))) :=
        steady_currentSpan.bind fun start =>
          (steady_attempt (h .stmt)).bind (steady_afterItem h start)
      refine steady_atEnd.bind fun atEnd => ?_
      cases atEnd with
      | true => exact (steady_unexpected _).bind fun _ => hrest
      | false => exact hrest

theorem steady_params : Steady 1 (params parse) := by
  refine (steady_eat .ellipsis).bind fun dots => ?_
  cases dots with
  | true => exact keeps_pure _
  | false =>
    refine Keeps.bind (h .type) fun type => Keeps.bind (p := paramName) ?_ fun name => ?_
    · refine (steady_currentIs .ident).bind fun named => ?_
      cases named with
      | true => exact steady_expectName.bind fun _ => keeps_pure _
      | false => exact keeps_pure _
    · refine (steady_eat .comma).bind fun more => ?_
      cases more with
      | true => exact Keeps.bind (h .params) fun _ => keeps_pure _
      | false => exact keeps_pure _

theorem steady_signatureEnd (params : List (TypeId × Name) × Bool) :
    Steady 1 (signatureEnd parse params) := by
  refine (steady_expect .closeParen).bind fun _ => (steady_eat .thinArrow).bind fun arrow => ?_
  cases arrow with
  | true => exact Keeps.bind (h .type) fun _ => steady_addFunction _
  | false => exact (keeps_pure _).bind fun _ => steady_addFunction _

theorem steady_signature : Steady 1 (signature parse) := by
  refine (steady_expect .openParen).bind fun _ => (steady_currentIs .closeParen).bind fun none => ?_
  cases none with
  | true => exact (keeps_pure _).bind (steady_signatureEnd h)
  | false => exact Keeps.bind (h .params) (steady_signatureEnd h)

omit h in
theorem steady_namedType {k : Nat} : Steady k namedType := by
  refine steady_expectName.bind fun name => keeps_get.bind fun s => ?_
  split
  · exact keeps_pure _
  · refine (steady_quote _).bind fun _ => ?_
    exact (steady_report (by decide) ..).bind fun _ => keeps_pure _

theorem steady_typeName : Steady 1 (typeName parse) := by
  refine steady_current.bind fun token => ?_
  split
  · exact steady_advance.bind fun _ => keeps_pure _
  · split
    · exact steady_advance.bind fun _ => steady_signature h
    · split
      · exact steady_namedType
      · split
        · exact steady_reject (by decide) ..
        · exact steady_expected (by decide) ..

/-! ### Expressions -/

theorem steady_group : Steady 1 (group parse) := by
  refine steady_advance.bind fun _ => Keeps.bind (h .value) fun inner => ?_
  exact (steady_expect .closeParen).bind fun _ => (steady_spanFrom _).bind fun span =>
    steady_groupEnd inner span

theorem steady_lambda : Steady 1 (lambda parse) := by
  refine steady_advance.bind fun _ => (steady_signature h).bind fun type => ?_
  refine (steady_functionBody h type).bind fun _ => ?_
  exact (steady_spanFrom _).bind fun _ => steady_addExpr ..

theorem steady_primary : Steady 1 (primary parse) := by
  refine steady_current.bind fun token => ?_
  split
  any_goals exact steady_literal token
  · exact steady_stringLiteral token
  · exact steady_nameExpr
  · exact steady_group h
  · exact steady_lambda h
  · exact steady_expected (by decide) ..

theorem steady_unary : Steady 1 (unary parse) := by
  refine steady_current.bind fun token => ?_
  split
  · exact steady_primary h
  · rename_i op hop
    exact steady_advance.bind fun token => Keeps.bind (h (.expr .call true)) fun id =>
      steady_unaryEnd op token.span id

theorem steady_binary (left : ExprId) (level : Level) : Steady 1 (binary parse left level) := by
  refine steady_current.bind fun token => ?_
  split
  · exact steady_unexpected _
  · rename_i op hop
    exact steady_advance.bind fun _ => Keeps.bind (h (.expr level.next true)) fun right =>
      steady_binaryEnd op left right

theorem steady_assignment (target : ExprId) : Steady 1 (assignment parse target) := by
  refine steady_current.bind fun token => ?_
  split
  · exact steady_unexpected _
  · rename_i op hop
    exact steady_advance.bind fun _ => Keeps.bind (h (.expr .assign false)) fun value =>
      steady_assignmentEnd op target value

theorem steady_args : Steady 1 (args parse) := by
  refine Keeps.bind (h .value) fun arg => (steady_eat .comma).bind fun more => ?_
  cases more with
  | true => exact Keeps.bind (h .args) fun _ => keeps_pure _
  | false => exact keeps_pure _

theorem steady_call (left : ExprId) (object : Expr) : Steady 1 (call parse left object) := by
  refine (steady_expect .openParen).bind fun _ => (steady_currentIs .closeParen).bind fun none => ?_
  cases none with
  | true => exact (keeps_pure _).bind (steady_endCall left object)
  | false => exact Keeps.bind (h .args) (steady_endCall left object)

theorem steady_postfixForm (left : ExprId) : Steady 1 (postfixForm parse left) := by
  refine (steady_expr left).bind fun object => (steady_eat .dot).bind fun dot => ?_
  cases dot with
  | true => exact steady_expectName.bind fun _ => steady_addTarget ..
  | false => exact steady_call h left object

theorem steady_infixes (left : ExprId) (least : Level) (isValue : Bool) :
    Steady 1 (infixes parse left least isValue) := by
  refine steady_current.bind fun token => ?_
  dsimp only
  split
  · exact keeps_pure _
  · split
    · exact (steady_assignment h left).bind fun whole => h (.infixes whole least isValue)
    · exact (steady_postfixForm h left).bind fun whole => h (.infixes whole least isValue)
    · exact (steady_binary h left _).bind fun whole => h (.infixes whole least isValue)

theorem steady_expression (least : Level) (isValue : Bool) :
    Steady 1 (expression parse least isValue) :=
  (steady_unary h).bind fun left => h (.infixes left least isValue)

end Parse

end FrontEnd
