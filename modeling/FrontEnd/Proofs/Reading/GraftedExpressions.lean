import FrontEnd.Proofs.Reading.GraftedTypes

/-!
Productions of bodies and of expressions: what was declared in a block is dropped again, and a node
is flagged as constant just if its parts make it one.
-/

namespace FrontEnd

section

open Parse

variable {α : Type} {o s t : ParseState} {k : Nat} {F ys : List Branch} {p p' : Parse α}
  {parse parse' : Productions} {signature : Signature} {Q R : α → ParseState → Prop}

/-! ### Scopes -/

/-- No tree changes on the way into a scope or out of one. -/
theorem ParseState.Bears.move {scope : Scope} {returns : List TypeId} (h : o.Bears [] F s)
    (hs : Sound { s with scope, returns }) : o.Bears [] F { s with scope, returns } :=
  ⟨h.reading.move hs, h.holds, nofun⟩

theorem ParseState.BearsStmts.move {ids : List StmtId} (h : o.BearsStmts F ids s)
    (hr : o.Reading t) (ht : t.tree = s.tree) : o.BearsStmts F ids t := by
  obtain ⟨ys, hys, h⟩ := h
  exact ⟨ys, hys, hr, ht ▸ h.holds, nofun⟩

theorem ParseState.BearsStmts.reading {ids : List StmtId} (h : o.BearsStmts F ids s) :
    o.Reading s := by
  obtain ⟨ys, -, h⟩ := h
  exact h.reading

/-- The statements of a block. -/
theorem grafts_inScope {p p' : Parse (List StmtId)}
    (h : Grafts o 0 F p p' { s with scope := s.scope.enter } (o.BearsStmts F)) :
    Grafts o 1 F (inScope p) (inScope p') s (o.BearsStmts F) :=
  h.ensuring (fun _ ho hr => ⟨ho.leave, hr.leave ho.leave.sound, rfl⟩) (fun _ _ ht => ht.reading)
    (fun _ _ ht => ht.move) rfl rfl

theorem grafts_returning {p p' : Parse (List StmtId)} (ret : TypeId)
    (h : Grafts o k F p p' { s with returns := ret :: s.returns } (o.BearsStmts F)) :
    Grafts o k F (returning ret p) (returning ret p') s (o.BearsStmts F) :=
  h.ensuring (fun _ ho hr => ⟨ho.popReturn, hr.move ho.popReturn.sound, rfl⟩)
    (fun _ _ ht => ht.reading) (fun _ _ ht => ht.move) rfl rfl

theorem grafts_inNamespace {p p' : Parse (List StmtId)} (name : Name)
    (h : Grafts o k F p p' { s with scope := s.scope.pushNamespace name } (o.BearsStmts F)) :
    Grafts o k F
      (do
        modify fun s => { s with scope := s.scope.pushNamespace name }
        ensuring p fun s => { s with scope := s.scope.popNamespace.2 })
      (do
        modify fun s => { s with scope := s.scope.pushNamespace name }
        ensuring p' fun s => { s with scope := s.scope.popNamespace.2 }) s (o.BearsStmts F) :=
  h.ensuring (fun _ ho hr => ⟨ho.popNamespace, hr.move ho.popNamespace.sound, rfl⟩)
    (fun _ _ ht => ht.reading) (fun _ _ ht => ht.move) rfl rfl

theorem grafts_declareParams (h : o.Bears [] F s)
    (hfresh : ∀ key, key.depth = s.scope.depth → s.folder.bindingAt key = none) :
    Grafts o 0 F (declareParams signature) (declareParams signature) s fun _ t => o.Bears [] F t :=
  (h.tables (Q := fun _ _ => True) (steady_declareParams signature)
    (meets_modify ⟨rfl, fun hs => ⟨h.reading.declareParams hfresh rfl hs, trivial⟩⟩)).imp
    fun _ _ _ ht => ht.1

theorem grafts_listStmt_spanFrom {form : ListRange → StmtKind} {ids : List StmtId} (start : Span)
    (hform : form = .block ∨ ∃ name, form = .namesp name) (h : o.BearsStmts F ids s) :
    Grafts o k F (do listStmt form (← spanFrom start) ids) (do listStmt form (← spanFrom start) ids)
      s (o.BearsStmt F) :=
  .reads (a := start.merge s.window.previous) rfl (grafts_listStmt _ _ hform h)

/-! ### Productions -/

namespace Parse.Grafting

variable (h : Grafting o parse parse')

include h

theorem block (hs : o.Bears [] F s) :
    Grafts o 1 F (block parse) (block parse') s (o.BearsStmt F) := by
  rw [block_eq, block_eq]
  refine hs.before (idle_expect .openBrace) fun brace t _ ht => ?_
  have hinner := h.items (ht.move ht.reading.sound.enter)
  exact (grafts_inScope hinner).bind fun ids u _ hu =>
    grafts_listStmt_spanFrom _ (.inl rfl) hu

theorem functionBody (hs : o.Bears [] F s) (type : TypeId) :
    Grafts o 1 F (functionBody parse type) (functionBody parse' type) s (o.BearsStmt F) := by
  rw [functionBody_eq, functionBody_eq]
  refine hs.before (idle_expect .openBrace) fun brace t _ ht => ?_
  refine .reads (get_eq t) (ht.before (idle_ofFault _) fun signature u _ hu => ?_)
  have henter := hu.move hu.reading.sound.enter
  have hreturning {v : ParseState} (ret : TypeId) (hv : o.Bears [] F v) :
      Grafts o 0 F (returning ret (parse .items)) (returning ret (parse' .items)) v
        (o.BearsStmts F) :=
    grafts_returning ret (h.items (hv.move (hv.reading.sound.returning ret)))
  refine (grafts_inScope ?_).bind fun ids v _ hv => grafts_listStmt_spanFrom _ (.inl rfl) hv
  cases signature with
  | none => exact hreturning _ henter
  | some signature =>
    have hfresh (key : ScopedKey) (hk : key.depth = u.scope.depth + 1) :
        u.folder.bindingAt key = none := hu.reading.sound.bindings key (by omega)
    exact (grafts_declareParams henter hfresh).bind fun _ v _ hv => hreturning _ hv

theorem afterItem (start : Span) {r : Except Stop StmtId} (hs : o.Caught F (o.BearsStmt F) r s) :
    Grafts o 0 F (afterItem parse start r) (afterItem parse' start r) s (o.BearsStmts F) := by
  cases r with
  | ok id =>
    obtain ⟨y, hy, hs⟩ := hs
    refine (h.items hs).frame [y] |>.bind ?_
    rintro ids t - ⟨ys, hys, ht⟩
    refine .pure ht.reading ⟨y :: ys, by simp [hy, hys], ht.perm ?_ (by simp)⟩
    exact List.perm_middle
  | error stop =>
    obtain ⟨hr, hF⟩ := hs
    cases stop with
    | reported =>
      have hs : o.Bears [] F s := ⟨hr, hF rfl, nofun⟩
      exact hs.before (idle_synchronize start) fun _ t _ ht => h.items ht
    | exhausted cause => exact .throw hr nofun
    | fault f => exact .throw hr nofun

theorem readItems (hs : o.Bears [] F s) :
    Grafts o 0 F (Parse.items parse) (Parse.items parse') s (o.BearsStmts F) := by
  refine hs.before (idle_eat .closeBrace) fun closed t _ ht => ?_
  cases closed with
  | true => exact .pure ht.reading ⟨[], rfl, ht⟩
  | false =>
    refine ht.before idle_truncated fun truncated u _ hu => ?_
    cases truncated with
    | true => exact .pure hu.reading ⟨[], rfl, hu⟩
    | false =>
      have hrest {v : ParseState} (hv : o.Bears [] F v) : Grafts o 0 F
          (do Parse.afterItem parse (← currentSpan) (← attempt (parse .stmt)))
          (do Parse.afterItem parse' (← currentSpan) (← attempt (parse' .stmt))) v
          (o.BearsStmts F) := by
        refine hv.before idle_currentSpan fun start w _ hw => ?_
        exact (h.stmt hw).attempt.bind fun _ _ _ hx => h.afterItem start hx
      refine hu.before idle_atEnd fun atEnd v _ hv => ?_
      cases atEnd with
      | true =>
        refine Grafts.bind (Q := fun _ _ => False) ?_ fun _ _ _ => False.elim
        exact hv.expected (by decide) _
      | false => exact hrest hv

theorem namespaceDecl (hs : o.Bears [] F s) :
    Grafts o 0 F (namespaceDecl parse) (namespaceDecl parse') s (o.BearsStmt F) := by
  rw [namespaceDecl_eq, namespaceDecl_eq]
  refine hs.before idle_advance fun token t _ ht => ?_
  refine ht.before idle_expectName fun r u _ hu => ?_
  refine hu.before (idle_declaredName _) fun qualified v _ hv => ?_
  refine hv.before (idle_expect .openBrace) fun _ w _ hw => ?_
  have hinner := h.items (hw.move (hw.reading.sound.within qualified))
  exact (grafts_inNamespace qualified hinner).bind fun ids x _ hx =>
    grafts_listStmt_spanFrom _ (.inr ⟨qualified, rfl⟩) hx

end Parse.Grafting

end

section

open Parse

variable {o s t : ParseState} {k : Nat} {F ps qs xs : List Branch} {x y : Branch} {e : Expr}
  {id left right inner target value : ExprId} {parse parse' : Productions}

/-! ### Operands -/

theorem grafts_literal (h : o.Bears [] F s) (token : Token) :
    Grafts o k F (literal token) (literal token) s (o.BearsExpr F) := by
  refine .reads (get_eq s) (h.before idle_advance fun _ t _ ht => ?_)
  cases literalValue? token.kind (s.window.lexeme token) with
  | some value => exact grafts_addNode [] ht.reading ht.holds nofun trivial rfl fun _ => rfl
  | none =>
    exact ht.before (idle_report (by decide) ..) fun _ u _ hu => grafts_errorExpr _ hu.reading
      hu.holds

theorem grafts_stringLiteral (h : o.Bears [] F s) (token : Token) :
    Grafts o k F (stringLiteral token) (stringLiteral token) s (o.BearsExpr F) := by
  refine .reads (get_eq s) (h.before idle_advance fun _ t _ ht => ?_)
  exact ht.before (idle_intern _) fun text u _ hu =>
    grafts_addNode [] hu.reading hu.holds nofun trivial rfl fun _ => rfl

/-- A name is flagged if it is that of a constant where it stands. -/
theorem grafts_nameExpr (h : o.Bears [] F s) :
    Grafts o k F nameExpr nameExpr s (o.BearsExpr F) := by
  rw [Pass.nameExpr_eq]
  refine h.before idle_expectName fun r t _ ht => .reads (isConstantName_run r.1 t) ?_
  exact grafts_addNode [] ht.reading ht.holds nofun trivial rfl fun _ =>
    (Bool.and_self _).symm

/-! ### Expressions over others -/

theorem grafts_groupEnd (span : Span) (h : o.Bears [x] F s) (hx : x.root = .expr inner) :
    Grafts o k F (groupEnd inner span) (groupEnd inner span) s (o.BearsExpr F) := by
  obtain ⟨e, ps, rfl, hrun, hconst⟩ := h.exists_expr (List.mem_singleton_self x) hx
  exact .reads hrun (grafts_addNode _ h.reading h.holds h.flagged trivial rfl fun _ => hconst)

theorem grafts_unaryEnd (op : UnaryOp) (start : Span) (h : o.Bears [x] F s)
    (hx : x.root = .expr id) :
    Grafts o k F (unaryEnd op start id) (unaryEnd op start id) s (o.BearsExpr F) := by
  obtain ⟨e, ps, rfl, hrun, hconst⟩ := h.exists_expr (List.mem_singleton_self x) hx
  refine .reads hrun ?_
  dsimp only
  split
  · have hcode : ErrorCode.invalidTarget.stage ≠ .lexer := by decide
    have hgive := grafts_giveUp (k := k) [id] e.span (start.merge e.span)
      ("`" ++ op.symbol ++ "` needs an assignable operand") "cannot be modified" hcode h rfl
    simpa only [List.forM_eq_forM, List.forM_cons, List.forM_nil, bind_assoc, pure_bind] using hgive
  · refine grafts_addNode _ h.reading h.holds h.flagged trivial rfl fun _ => ?_
    rw [Branch.isConstant_unary rfl, ← hconst, Bool.and_comm]

theorem grafts_binaryEnd (op : BinaryOp) (h : o.Bears [y, x] F s) (hx : x.root = .expr left)
    (hy : y.root = .expr right) :
    Grafts o k F (binaryEnd op left right) (binaryEnd op left right) s (o.BearsExpr F) := by
  obtain ⟨e, ps, rfl, hrun, hconst⟩ := h.exists_expr (x := x) (by simp) hx
  obtain ⟨e', ps', rfl, hrun', hconst'⟩ := h.exists_expr (x := y) (by simp) hy
  have hswap : o.Bears [⟨.expr left, .expr e, ps⟩, ⟨.expr right, .expr e', ps'⟩] F s :=
    h.perm (.swap ..) (by simp)
  refine .reads hrun (.reads hrun' ?_)
  refine grafts_addNode _ hswap.reading hswap.holds hswap.flagged trivial rfl fun _ => ?_
  rw [Branch.isConstant_binary rfl, ← hconst, ← hconst']

theorem grafts_assignmentEnd (op : AssignOp) (h : o.Bears [y, x] F s) (hx : x.root = .expr target)
    (hy : y.root = .expr value) :
    Grafts o k F (assignmentEnd op target value) (assignmentEnd op target value) s
      (o.BearsExpr F) := by
  obtain ⟨e, ps, rfl, hrun, -⟩ := h.exists_expr (x := x) (by simp) hx
  obtain ⟨e', ps', rfl, hrun', -⟩ := h.exists_expr (x := y) (by simp) hy
  have hswap : o.Bears [⟨.expr target, .expr e, ps⟩, ⟨.expr value, .expr e', ps'⟩] F s :=
    h.perm (.swap ..) (by simp)
  refine .reads hrun (.reads hrun' ?_)
  dsimp only
  split
  · exact grafts_addNode _ hswap.reading hswap.holds hswap.flagged trivial rfl fun _ => rfl
  · have hcode : ErrorCode.invalidTarget.stage ≠ .lexer := by decide
    have hgive := grafts_giveUp (k := k) [target, value] e.span (e.span.merge e'.span)
      ("invalid left-hand side of `" ++ op.symbol ++ "`") "cannot be assigned to" hcode hswap rfl
    simpa only [List.forM_eq_forM, List.forM_cons, List.forM_nil, bind_assoc, pure_bind] using hgive

theorem grafts_member (h : o.Bears [⟨.expr left, .expr e, ps⟩] F s) :
    Grafts o k F (member left e) (member left e) s (o.BearsExpr F) :=
  h.before idle_expectName fun _ _ _ ht =>
    grafts_addNode _ ht.reading ht.holds ht.flagged trivial rfl fun _ => rfl

/-! ### Productions -/

namespace Parse.Grafting

variable (h : Grafting o parse parse')

include h

theorem group (hs : o.Bears [] F s) :
    Grafts o 1 F (group parse) (group parse') s (o.BearsExpr F) := by
  refine hs.before idle_advance fun token t _ ht => ?_
  refine (h.expr ht .assign true).bind fun inner u _ ⟨x, hx, hu⟩ => ?_
  refine hu.before (idle_expect .closeParen) fun _ v _ hv => ?_
  exact hv.before (idle_spanFrom _) fun span w _ hw => grafts_groupEnd span hw hx

theorem lambda (hs : o.Bears [] F s) :
    Grafts o 1 F (lambda parse) (lambda parse') s (o.BearsExpr F) := by
  refine hs.before idle_advance fun token t _ ht => ?_
  refine (h.signature ht).bind fun type u _ ⟨hu, _⟩ => ?_
  refine (h.functionBody hu type).bind fun body v _ ⟨y, hy, hv⟩ => ?_
  refine .reads (a := token.span.merge v.window.previous) rfl ?_
  refine grafts_addNode [y] hv.reading hv.holds nofun trivial ?_ fun _ => rfl
  rw [List.map_singleton, hy]
  rfl

theorem primary (hs : o.Bears [] F s) :
    Grafts o 1 F (primary parse) (primary parse') s (o.BearsExpr F) := by
  refine hs.before idle_current fun token t _ ht => ?_
  have hliteral : Grafts o 1 F (literal token) (literal token) t (o.BearsExpr F) :=
    grafts_literal ht token
  split
  any_goals exact hliteral
  · exact grafts_stringLiteral ht token
  · exact grafts_nameExpr ht
  · exact h.group ht
  · exact h.lambda ht
  · exact ht.expected (by decide) _

theorem unary (hs : o.Bears [] F s) :
    Grafts o 1 F (unary parse) (unary parse') s (o.BearsExpr F) := by
  refine hs.before idle_current fun token t _ ht => ?_
  cases UnaryOp.ofToken? token.kind with
  | none => exact h.primary ht
  | some op =>
    refine ht.before idle_advance fun first u _ hu => ?_
    exact (h.expr hu .call true).bind fun id v _ ⟨x, hx, hv⟩ => grafts_unaryEnd op _ hv hx

theorem binary (hs : o.Bears [x] F s) (hx : x.root = .expr left) (level : Level) :
    Grafts o 1 F (binary parse left level) (binary parse' left level) s (o.BearsExpr F) := by
  refine hs.before idle_current fun token t _ ht => ?_
  cases BinaryOp.ofToken? token.kind with
  | none => exact ht.expected (by decide) _
  | some op =>
    refine ht.before idle_advance fun _ u _ hu => ?_
    exact (h.expr hu level.next true).bind fun right v _ ⟨y, hy, hv⟩ =>
      grafts_binaryEnd op hv hx hy

theorem assignment (hs : o.Bears [x] F s) (hx : x.root = .expr target) :
    Grafts o 1 F (assignment parse target) (assignment parse' target) s (o.BearsExpr F) := by
  refine hs.before idle_current fun token t _ ht => ?_
  cases AssignOp.ofToken? token.kind with
  | none => exact ht.expected (by decide) _
  | some op =>
    refine ht.before idle_advance fun _ u _ hu => ?_
    exact (h.expr hu .assign false).bind fun value v _ ⟨y, hy, hv⟩ =>
      grafts_assignmentEnd op hv hx hy

theorem readArgs (hs : o.Bears [] F s) :
    Grafts o 1 F (Parse.args parse) (Parse.args parse') s (o.BearsExprs F) := by
  refine (h.expr hs .assign true).bind fun arg t _ ⟨x, hx, ht⟩ => ?_
  refine ht.before (idle_eat .comma) fun more u _ hu => ?_
  cases more with
  | false => exact .pure hu.reading ⟨[x], by simp [hx], hu⟩
  | true =>
    refine (h.args hu).bind fun args v _ ⟨ys, hys, hv⟩ => .pure hv.reading ⟨x :: ys, ?_, ?_⟩
    · simp [hx, hys]
    · exact hv.perm (List.perm_append_comm.append_right F) (by simp)

theorem call (hs : o.Bears [⟨.expr left, .expr e, ps⟩] F s) :
    Grafts o 1 F (call parse left e) (call parse' left e) s (o.BearsExpr F) := by
  have hend {t : ParseState} (ids : List ExprId) (xs : List Branch)
      (hids : xs.map Branch.root = ids.map .expr)
      (ht : o.Bears (xs ++ [⟨.expr left, .expr e, ps⟩]) F t) :
      Grafts o 1 F (endCall left e ids) (endCall left e ids) t (o.BearsExpr F) := by
    refine ht.before (idle_expect .closeParen) fun _ u _ hu => ?_
    exact hu.before (idle_spanFrom _) fun span v _ hv => grafts_callEnd span hv hids
  refine hs.before (idle_expect .openParen) fun _ t _ ht => ?_
  refine ht.before (idle_currentIs .closeParen) fun empty u _ hu => ?_
  cases empty with
  | true => exact hend [] [] rfl hu
  | false => exact (h.args hu).bind fun ids v _ ⟨xs, hids, hv⟩ => hend ids xs hids hv

theorem postfixForm (hs : o.Bears [x] F s) (hx : x.root = .expr left) :
    Grafts o 1 F (postfixForm parse left) (postfixForm parse' left) s (o.BearsExpr F) := by
  obtain ⟨e, ps, rfl, hrun, -⟩ := hs.exists_expr (List.mem_singleton_self x) hx
  refine .reads hrun (hs.before (idle_eat .dot) fun dot t _ ht => ?_)
  cases dot with
  | true => exact grafts_member ht
  | false => exact h.call ht

theorem readInfixes (hs : o.BearsExpr F left s) (least : Level) (isValue : Bool) :
    Grafts o 1 F (Parse.infixes parse left least isValue) (Parse.infixes parse' left least isValue)
      s (o.BearsExpr F) := by
  obtain ⟨x, hx, hs⟩ := hs
  refine hs.before idle_current fun token t _ ht => ?_
  have hgo {p p' : Parse ExprId} (hp : Grafts o 1 F p p' t (o.BearsExpr F)) :
      Grafts o 1 F (p >>= fun whole => parse (.infixes whole least isValue))
        (p' >>= fun whole => parse' (.infixes whole least isValue)) t (o.BearsExpr F) :=
    hp.bind fun whole u _ hu => h (.infixes whole least isValue) F u hu
  dsimp only
  split
  · exact .pure ht.reading ⟨x, hx, ht⟩
  · split
    · exact hgo (h.assignment ht hx)
    · exact hgo (h.postfixForm ht hx)
    · exact hgo (h.binary ht hx _)

theorem expression (hs : o.Bears [] F s) (least : Level) (isValue : Bool) :
    Grafts o 1 F (expression parse least isValue) (expression parse' least isValue) s
      (o.BearsExpr F) :=
  (h.unary hs).bind fun left t _ ht => h (.infixes left least isValue) F t ht

end Parse.Grafting

end

end FrontEnd
