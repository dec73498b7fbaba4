import FrontEnd.Proofs.Nesting.Laying

/-!
Bodies and expressions are laid in a row: an expression reaches from its first token to its last
one, and so does a block.
-/

namespace FrontEnd

open Parse

namespace Production

/-- What a production takes up. -/
def operands : Production → List NodeId
  | .infixes left .. => [.expr left]
  | _ => []

/-- What it has read. -/
def nodes : (q : Production) → q.Result → List NodeId
  | .expr .., id | .infixes .., id => [.expr id]
  | .args, ids => ids.map .expr
  | .stmt, id => [.stmt id]
  | .items, ids | .program, ids => ids.map .stmt
  | .type, _ | .params, _ | .fields _, _ | .variants, _ | .path _, _ => []

end Production

/-- Productions that lay what they read behind the row that they begin with. -/
structure Parse.Laying (text : String) (parse : Productions) : Prop where
  leafless : ∀ q : Production, q.Leafless → Leafless 1 (parse q)
  lays : ∀ (q : Production) lo F s, s.Laid text lo F q.operands →
    Spares q.reach F (parse q) s fun a t => t.Laid text lo F (q.nodes a)

variable {α : Type} {text : String} {lo k : Nat} {s t : ParseState} {F ps : List Branch}
  {ids : List NodeId} {id left right inner : ExprId} {e : Expr} {start span : Span}
  {parse : Productions}

/-! ### Scopes -/

namespace ParseState

/-- The statements of a block. -/
theorem Led.inScope {p : Parse (List StmtId)} (h : s.Led text lo start F [])
    (hp : ∀ s : ParseState, s.Laid text start.start F [] →
      Spares 0 F p s fun ids t => t.Laid text start.start F (ids.map .stmt)) :
    Spares 1 F (inScope p) s fun ids t => t.Led text lo start F (ids.map .stmt) :=
  h.lift ((hp { s with scope := s.scope.enter } (h.laid.move h.laid.sound.enter rfl rfl)).ensuring
    (fun _ ho => ⟨ho.leave, rfl⟩) (fun _ _ ho ht => ht.move ho.leave.sound rfl rfl) rfl)

theorem Laid.returning {p : Parse (List StmtId)} (ret : TypeId) (h : s.Laid text lo F [])
    (hp : ∀ s : ParseState, s.Laid text lo F [] →
      Spares k F p s fun ids t => t.Laid text lo F (ids.map .stmt)) :
    Spares k F (returning ret p) s fun ids t => t.Laid text lo F (ids.map .stmt) :=
  (hp { s with returns := ret :: s.returns } (h.move (h.sound.returning ret) rfl rfl)).ensuring
    (fun _ ho => ⟨ho.popReturn, rfl⟩) (fun _ _ ho ht => ht.move ho.popReturn.sound rfl rfl) rfl

theorem Led.inNamespace {p : Parse (List StmtId)} (name : Name) (h : s.Led text lo start F [])
    (hp : ∀ s : ParseState, s.Laid text start.start F [] →
      Spares k F p s fun ids t => t.Laid text start.start F (ids.map .stmt)) :
    Spares k F
      (do
        modify fun s => { s with scope := s.scope.pushNamespace name }
        ensuring p fun s => { s with scope := s.scope.popNamespace.2 }) s
      fun ids t => t.Led text lo start F (ids.map .stmt) :=
  h.lift ((hp { s with scope := s.scope.pushNamespace name }
    (h.laid.move (h.laid.sound.within name) rfl rfl)).ensuring (fun _ ho => ⟨ho.popNamespace, rfl⟩)
    (fun _ _ ho ht => ht.move ho.popNamespace.sound rfl rfl) rfl)

theorem Led.listStmt {form : ListRange → StmtKind} {ids : List StmtId}
    (hform : form = .block ∨ ∃ name, form = .namesp name)
    (h : s.Led text lo start F (ids.map .stmt)) :
    Spares k F (do listStmt form (← spanFrom start) ids) s
      fun id t => t.Laid text lo F [.stmt id] :=
  .reads (a := start.merge s.window.previous) rfl (spares_listStmt hform h.encloses)

/-- The outcome of a statement, where it is caught. -/
def Settled (text : String) (lo : Nat) (F : List Branch) : Except Stop StmtId → ParseState → Prop
  | .ok id, t => t.Laid text lo F [.stmt id]
  | .error e, t => (∀ fault, e ≠ .fault fault) → t.Laid text lo F []

end ParseState

namespace ParseState

/-! ### Expressions that are looked at -/

theorem Laid.exists_expr (h : s.Laid text lo F ids) (hid : .expr id ∈ ids) :
    ∃ e, Parse.expr id s = .ok e s := by
  obtain ⟨xs, rfl, h⟩ := h
  obtain ⟨x, hx, hroot⟩ := List.mem_map.1 hid
  obtain ⟨e, -, -, hrun⟩ := h.exists_expr hx hroot
  exact ⟨e, hrun⟩

/-- A token that is past encloses the operand behind it. -/
theorem Led.exists_operand (h : s.Led text lo start F [.expr id]) :
    ∃ e, Parse.expr id s = .ok e s ∧ s.Encloses text lo (start.merge e.span) F [.expr id] := by
  obtain ⟨hlo, ⟨xs, hxs, h⟩, hpast⟩ := h
  obtain ⟨x, rfl, hx⟩ := List.map_eq_singleton_iff.1 hxs
  obtain ⟨e, ps, rfl, hrun⟩ := h.exists_expr (List.mem_singleton_self x) hx
  obtain ⟨hstart, he, hstop⟩ := h.row
  have hmerge : (start.merge e.span).start = start.start := Nat.min_eq_left hstart
  refine ⟨e, hrun, _, hxs, ?_, ?_, ?_, ?_⟩
  · rw [hmerge]
    exact h
  · rw [hmerge]
    exact hlo
  · rw [hmerge]
    exact ⟨hstart, he, Nat.le_max_right ..⟩
  · exact Nat.max_le.2 ⟨hpast.stop, hstop⟩

/-- Two operands are enclosed by what covers both. -/
theorem Laid.exists_operands (h : s.Laid text lo F [.expr left, .expr right]) :
    ∃ e e', Parse.expr left s = .ok e s ∧ Parse.expr right s = .ok e' s ∧
      s.Encloses text lo (e.span.merge e'.span) F [.expr left, .expr right] := by
  obtain ⟨xs, hxs, h⟩ := h
  obtain ⟨x, ys, rfl, hx, hys⟩ := List.map_eq_cons_iff.1 hxs
  obtain ⟨y, rfl, hy⟩ := List.map_eq_singleton_iff.1 hys
  obtain ⟨e, ps, rfl, hrun⟩ := h.exists_expr (x := x) (by simp) hx
  obtain ⟨e', ps', rfl, hrun'⟩ := h.exists_expr (x := y) (by simp) hy
  have hmerge : e.span.merge e'.span = ⟨e.span.start, e'.span.stop⟩ := Span.Row.merge_eq h.row
  obtain ⟨hlo, he, hstart, he', hstop⟩ := h.row
  refine ⟨e, e', hrun, hrun', ?_⟩
  rw [hmerge]
  exact ⟨_, hxs, { h with row := ⟨le_rfl, he, hstart, he', hstop⟩ }, hlo,
    ⟨le_rfl, he, hstart, he', le_rfl⟩, hstop⟩

/-! ### Operands -/

theorem Laid.literal (h : s.Laid text lo F []) :
    Spares k F (literal s.window.current) s fun id t => t.Laid text lo F [.expr id] := by
  refine .reads (get_eq s) (h.opens takes_advance fun token t htoken ht => ?_)
  have hspan := ht.token htoken.le
  rw [htoken.eq] at hspan
  cases literalValue? s.window.current.kind (s.window.lexeme s.window.current) with
  | some value => exact spares_addNode hspan trivial rfl
  | none =>
    exact hspan.before (idle_report (by decide) ..).leafless fun _ _ hu =>
      spares_addNode hu trivial rfl

theorem Laid.stringLiteral (h : s.Laid text lo F []) :
    Spares k F (stringLiteral s.window.current) s fun id t => t.Laid text lo F [.expr id] := by
  refine .reads (get_eq s) (h.opens takes_advance fun token t htoken ht => ?_)
  have hspan := ht.token htoken.le
  rw [htoken.eq] at hspan
  exact hspan.before (idle_intern _).leafless fun _ _ hu => spares_addNode hu trivial rfl

theorem Laid.nameExpr (h : s.Laid text lo F []) :
    Spares k F nameExpr s fun id t => t.Laid text lo F [.expr id] := by
  rw [Pass.nameExpr_eq]
  refine h.opens takes_expectName fun r t htoken ht => .reads (isConstantName_run r.1 t) ?_
  exact spares_addNode (ht.token htoken.le) trivial rfl

/-! ### Expressions over others -/

theorem Encloses.groupEnd (h : s.Encloses text lo span F [.expr inner]) :
    Spares k F (groupEnd inner span) s fun id t => t.Laid text lo F [.expr id] := by
  obtain ⟨e, hrun⟩ := h.laid.exists_expr (List.mem_singleton_self _)
  exact .reads hrun (spares_addNode h trivial rfl)

theorem Led.unaryEnd (op : UnaryOp) (h : s.Led text lo start F [.expr id]) :
    Spares k F (unaryEnd op start id) s fun id t => t.Laid text lo F [.expr id] := by
  obtain ⟨e, hrun, hspan⟩ := h.exists_operand
  refine .reads hrun ?_
  dsimp only
  split
  · have hgive := spares_giveUp (k := k) [id] e.span
      ("`" ++ op.symbol ++ "` needs an assignable operand") "cannot be modified"
      (show ErrorCode.invalidTarget.stage ≠ .lexer by decide) hspan
    simpa only [List.forM_eq_forM, List.forM_cons, List.forM_nil, bind_assoc, pure_bind] using hgive
  · exact spares_addNode hspan trivial rfl

theorem Laid.binaryEnd (op : BinaryOp) (h : s.Laid text lo F [.expr left, .expr right]) :
    Spares k F (binaryEnd op left right) s fun id t => t.Laid text lo F [.expr id] := by
  obtain ⟨e, e', hrun, hrun', hspan⟩ := h.exists_operands
  exact .reads hrun (.reads hrun' (spares_addNode hspan trivial rfl))

theorem Laid.assignmentEnd (op : AssignOp) (h : s.Laid text lo F [.expr left, .expr right]) :
    Spares k F (assignmentEnd op left right) s fun id t => t.Laid text lo F [.expr id] := by
  obtain ⟨e, e', hrun, hrun', hspan⟩ := h.exists_operands
  refine .reads hrun (.reads hrun' ?_)
  dsimp only
  split
  · exact spares_addNode hspan trivial rfl
  · have hgive := spares_giveUp (k := k) [left, right] e.span
      ("invalid left-hand side of `" ++ op.symbol ++ "`") "cannot be assigned to"
      (show ErrorCode.invalidTarget.stage ≠ .lexer by decide) hspan
    simpa only [List.forM_eq_forM, List.forM_cons, List.forM_nil, bind_assoc, pure_bind] using hgive

/-- A member access reaches up to the name of the member. -/
theorem Lays.member (h : s.Lays text lo [⟨.expr left, .expr e, ps⟩] F) :
    Spares k F (member left e) s fun id t => t.Laid text lo F [.expr id] := by
  refine h.take takes_expectName fun r t htoken ht => ?_
  obtain ⟨hlo, he, hstop⟩ : lo ≤ e.span.start ∧ e.span.start ≤ e.span.stop ∧
    e.span.stop ≤ s.window.previous.stop := h.row
  have hend : e.span.stop ≤ r.2.stop := hstop.trans (htoken.behind.trans htoken.le)
  have hmerge : e.span.merge r.2 = ⟨e.span.start, r.2.stop⟩ := by
    rw [Span.merge, Nat.min_eq_left (he.trans (hstop.trans htoken.behind)), Nat.max_eq_right hend]
  have hspan : t.Encloses text lo (e.span.merge r.2) F [.expr left] := by
    rw [hmerge]
    exact ⟨_, rfl, { ht with row := ⟨le_rfl, he, ht.row.2.2⟩ }, hlo, ⟨le_rfl, he, hend⟩,
      htoken.past.stop⟩
  exact spares_addNode hspan trivial rfl

end ParseState

/-! ### Productions -/

namespace Parse.Laying

open ParseState

variable (h : Laying text parse)

include h

theorem expr (hs : s.Laid text lo F []) (least : Level) (isValue : Bool) :
    Spares 1 F (parse (.expr least isValue)) s fun id t => t.Laid text lo F [.expr id] :=
  h.lays (.expr least isValue) lo F s hs

theorem value (hs : s.Laid text lo F []) :
    Spares 0 F (parse .value) s fun id t => t.Laid text lo F [.expr id] :=
  (h.expr hs .assign true).mono (Nat.zero_le 1)

theorem stmt (hs : s.Laid text lo F []) :
    Spares 0 F (parse .stmt) s fun id t => t.Laid text lo F [.stmt id] :=
  h.lays .stmt lo F s hs

theorem items (hs : s.Laid text lo F []) :
    Spares 0 F (parse .items) s fun ids t => t.Laid text lo F (ids.map .stmt) :=
  h.lays .items lo F s hs

theorem settles (hs : s.Laid text lo F []) :
    Spares 0 F (attempt (parse .stmt)) s (Settled text lo F) := by
  refine (h.stmt hs).attempt.imp fun r t ho ht => ?_
  cases r with
  | ok id => exact ht
  | error e => exact fun he => hs.resume ho (ht he)

theorem block (hs : s.Laid text lo F []) :
    Spares 1 F (block parse) s fun id t => t.Laid text lo F [.stmt id] := by
  rw [block_eq]
  refine hs.opens (takes_expect .openBrace) fun brace t _ ht => ?_
  exact (ht.inScope fun _ hs => h.items hs).bind fun ids u _ hu => hu.listStmt (.inl rfl)

theorem functionBody (hs : s.Laid text lo F []) (type : TypeId) :
    Spares 1 F (functionBody parse type) s fun id t => t.Laid text lo F [.stmt id] := by
  rw [functionBody_eq]
  refine hs.opens (takes_expect .openBrace) fun brace t _ ht => .reads (get_eq t) ?_
  refine ht.before (idle_ofFault _).leafless fun signature u hu => ?_
  refine (hu.inScope fun v hv => ?_).bind fun ids v _ hv => hv.listStmt (.inl rfl)
  cases signature with
  | none => exact hv.returning _ fun _ hs => h.items hs
  | some signature =>
    exact hv.before (leafless_declareParams signature) fun _ _ _ hw =>
      hw.returning _ fun _ hs => h.items hs

theorem afterItem {r : Except Stop StmtId} (hs : Settled text lo F r s) (hsound : s.Sound)
    (start : Span) :
    Spares 0 F (afterItem parse start r) s fun ids t => t.Laid text lo F (ids.map .stmt) := by
  cases r with
  | ok id =>
    refine (ParseState.Laid.stack hs fun lo F hs => h.items hs).bind fun ids t _ ht => ?_
    exact .pure ht.sound ht
  | error stop =>
    cases stop with
    | reported =>
      exact (hs nofun).before (idle_synchronize start).leafless fun _ _ _ ht => h.items ht
    | exhausted cause => exact .throw hsound fun he => (hs he).forest
    | fault f => exact .throw hsound fun he => absurd rfl (he f)

theorem readItems (hs : s.Laid text lo F []) :
    Spares 0 F (Parse.items parse) s fun ids t => t.Laid text lo F (ids.map .stmt) := by
  refine hs.before (idle_eat .closeBrace).leafless fun closed t _ ht => ?_
  cases closed with
  | true => exact .pure ht.sound ht
  | false =>
    refine ht.before idle_truncated.leafless fun truncated u _ hu => ?_
    cases truncated with
    | true => exact .pure hu.sound hu
    | false =>
      have hrest {v : ParseState} (hv : v.Laid text lo F []) : Spares 0 F
          (do Parse.afterItem parse (← currentSpan) (← attempt (parse .stmt))) v
          fun ids t => t.Laid text lo F (ids.map .stmt) := by
        refine hv.before idle_currentSpan.leafless fun start w _ hw => ?_
        exact (h.settles hw).bind fun _ _ ho hx => h.afterItem hx ho.sound start
      refine hu.before idle_atEnd.leafless fun atEnd v _ hv => ?_
      cases atEnd with
      | true =>
        refine Spares.bind (Q := fun _ _ => False) ?_ fun _ _ _ => False.elim
        exact hv.expected (by decide) _
      | false => exact hrest hv

theorem namespaceDecl (hs : s.Laid text lo F []) :
    Spares 0 F (namespaceDecl parse) s fun id t => t.Laid text lo F [.stmt id] := by
  rw [namespaceDecl_eq]
  refine hs.opens takes_advance fun token t _ ht => ?_
  refine ht.before idle_expectName.leafless fun r u hu => ?_
  refine hu.before (idle_declaredName _).leafless fun qualified v hv => ?_
  refine hv.before (idle_expect .openBrace).leafless fun _ w hw => ?_
  exact (hw.inNamespace qualified fun _ hs => h.items hs).bind fun ids x _ hx =>
    hx.listStmt (.inr ⟨qualified, rfl⟩)

theorem group (hs : s.Laid text lo F []) :
    Spares 1 F (group parse) s fun id t => t.Laid text lo F [.expr id] := by
  refine hs.opens takes_advance fun token t _ ht => ?_
  refine (ht.stack fun _ _ hs => h.expr hs .assign true).bind fun inner u _ hu => ?_
  refine hu.before (idle_expect .closeParen).leafless fun _ v hv => ?_
  exact .reads (a := token.span.merge v.window.previous) rfl hv.encloses.groupEnd

theorem lambda (hs : s.Laid text lo F []) :
    Spares 1 F (lambda parse) s fun id t => t.Laid text lo F [.expr id] := by
  refine hs.opens takes_advance fun token t _ ht => ?_
  refine ht.before (leafless_signature h.leafless) fun type u hu => ?_
  refine (hu.stack fun _ _ hs => h.functionBody hs type).bind fun body v _ hv => ?_
  refine .reads (a := token.span.merge v.window.previous) rfl ?_
  exact spares_addNode hv.encloses trivial rfl

theorem primary (hs : s.Laid text lo F []) :
    Spares 1 F (primary parse) s fun id t => t.Laid text lo F [.expr id] := by
  refine .reads (a := s.window.current) rfl ?_
  split
  any_goals exact hs.literal
  · exact hs.stringLiteral
  · exact hs.nameExpr
  · exact h.group hs
  · exact h.lambda hs
  · exact hs.expected (by decide) _

theorem unary (hs : s.Laid text lo F []) :
    Spares 1 F (unary parse) s fun id t => t.Laid text lo F [.expr id] := by
  refine hs.before idle_current.leafless fun token t _ ht => ?_
  cases UnaryOp.ofToken? token.kind with
  | none => exact h.primary ht
  | some op =>
    refine ht.opens takes_advance fun first u _ hu => ?_
    refine (hu.stack fun _ _ hs => h.expr hs .call true).bind fun id v _ hv => ?_
    exact hv.unaryEnd op

theorem binary (hs : s.Laid text lo F [.expr left]) (level : Level) :
    Spares 1 F (binary parse left level) s fun id t => t.Laid text lo F [.expr id] := by
  refine hs.before idle_current.leafless fun token t _ ht => ?_
  cases BinaryOp.ofToken? token.kind with
  | none => exact ht.expected (by decide) _
  | some op =>
    refine ht.before idle_advance.leafless fun _ u _ hu => ?_
    exact (hu.stack fun _ _ hs => h.expr hs level.next true).bind fun right v _ hv =>
      hv.binaryEnd op

theorem assignment (hs : s.Laid text lo F [.expr left]) :
    Spares 1 F (assignment parse left) s fun id t => t.Laid text lo F [.expr id] := by
  refine hs.before idle_current.leafless fun token t _ ht => ?_
  cases AssignOp.ofToken? token.kind with
  | none => exact ht.expected (by decide) _
  | some op =>
    refine ht.before idle_advance.leafless fun _ u _ hu => ?_
    exact (hu.stack fun _ _ hs => h.expr hs .assign false).bind fun right v _ hv =>
      hv.assignmentEnd op

theorem readArgs (hs : s.Laid text lo F []) :
    Spares 1 F (Parse.args parse) s fun ids t => t.Laid text lo F (ids.map .expr) := by
  refine (h.expr hs .assign true).bind fun arg t _ ht => ?_
  refine ht.before (idle_eat .comma).leafless fun more u _ hu => ?_
  cases more with
  | false => exact .pure hu.sound hu
  | true =>
    refine (hu.stack fun lo F hs => h.lays .args lo F _ hs).bind fun args v _ hv => ?_
    exact .pure hv.sound hv

/-- The end of a call reaches beyond its arguments. -/
theorem call (hs : s.Lays text lo [⟨.expr left, .expr e, ps⟩] F) :
    Spares 1 F (call parse left e) s fun id t => t.Laid text lo F [.expr id] := by
  have hend {t : ParseState} (ids : List ExprId) (xs : List Branch)
      (hids : xs.map Branch.root = ids.map .expr)
      (ht : t.Lays text lo (⟨.expr left, .expr e, ps⟩ :: xs) F) :
      Spares 1 F (endCall left e ids) t fun id t => t.Laid text lo F [.expr id] := by
    refine ht.take (takes_expect .closeParen) fun _ u htoken hu => ?_
    have hrow := ht.row.mem List.mem_cons_self
    refine .reads (a := e.span.merge u.window.previous) rfl ?_
    exact spares_callEnd hu hids (htoken.past_before hrow.2.1 hrow.2.2)
  refine hs.before (idle_expect .openParen).leafless fun _ t _ ht => ?_
  refine ht.before (idle_currentIs .closeParen).leafless fun empty u _ hu => ?_
  cases empty with
  | true => exact hend [] [] rfl hu
  | false =>
    exact (hu.further fun lo F hs => h.lays .args lo F _ hs).bind fun ids v _ ⟨xs, hids, hv⟩ =>
      hend ids xs hids hv

theorem postfixForm (hs : s.Laid text lo F [.expr left]) :
    Spares 1 F (postfixForm parse left) s fun id t => t.Laid text lo F [.expr id] := by
  obtain ⟨xs, hxs, hs⟩ := hs
  obtain ⟨x, rfl, hx⟩ := List.map_eq_singleton_iff.1 hxs
  obtain ⟨e, ps, rfl, hrun⟩ := hs.exists_expr (List.mem_singleton_self x) hx
  refine .reads hrun (hs.before (idle_eat .dot).leafless fun dot t _ ht => ?_)
  cases dot with
  | true => exact ht.member
  | false => exact h.call ht

theorem readInfixes (hs : s.Laid text lo F [.expr left]) (least : Level) (isValue : Bool) :
    Spares 1 F (Parse.infixes parse left least isValue) s
      fun id t => t.Laid text lo F [.expr id] := by
  refine hs.before idle_current.leafless fun token t _ ht => ?_
  have hgo {p : Parse ExprId} (hp : Spares 1 F p t fun id t => t.Laid text lo F [.expr id]) :
      Spares 1 F (p >>= fun whole => parse (.infixes whole least isValue)) t
        fun id t => t.Laid text lo F [.expr id] :=
    hp.bind fun whole u _ hu => h.lays (.infixes whole least isValue) lo F u hu
  dsimp only
  split
  · exact .pure ht.sound ht
  · split
    · exact hgo (h.assignment ht)
    · exact hgo (h.postfixForm ht)
    · exact hgo (h.binary ht _)

theorem expression (hs : s.Laid text lo F []) (least : Level) (isValue : Bool) :
    Spares 1 F (expression parse least isValue) s fun id t => t.Laid text lo F [.expr id] :=
  (h.unary hs).bind fun left t _ ht => h.lays (.infixes left least isValue) lo F t ht

end Parse.Laying

end FrontEnd
