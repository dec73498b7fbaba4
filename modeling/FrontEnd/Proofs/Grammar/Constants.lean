import FrontEnd.Proofs.Constant.FoldSteps
import FrontEnd.Proofs.Grammar.Climbing
import FrontEnd.Proofs.Grammar.Descent
import FrontEnd.Proofs.Grammar.Opening
import FrontEnd.Proofs.Typing.Inference

/-!
What becomes of a constant that is declared and then assigned, while there is room. Folding makes
the name of a constant stand for its value, which cannot be assigned.
-/

namespace FrontEnd

namespace Window

/-- The next token is a literal with this value, and no operand goes on after it. -/
structure AtLiteral (w : Window) (v : Value) : Prop where
  value : literalValue? w.current.kind (w.current.lexeme w.source) = some v
  next : (w.drop 1).current.kind = .semicolon

/-- Next is the declaration of a constant with a literal as its value. -/
structure AtConstant (w : Window) (name : String) (v : Value) : Prop where
  const : w.current.kind = .kwConst
  ident : (w.drop 1).current.kind = .ident
  text : (w.drop 1).current.lexeme w.source = name
  colon : (w.drop 2).current.kind = .colon
  equal : (w.drop 3).current.kind = .equal
  value : literalValue? (w.drop 4).current.kind ((w.drop 4).current.lexeme w.source) = some v
  semicolon : (w.drop 5).current.kind = .semicolon
  next : (w.drop 6).current.kind ≠ .error

/-- Next is the assignment of a literal to a name. -/
structure AtAssignment (w : Window) (name : String) (v : Value) : Prop where
  ident : w.current.kind = .ident
  text : w.current.lexeme w.source = name
  equal : (w.drop 1).current.kind = .equal
  value : literalValue? (w.drop 2).current.kind ((w.drop 2).current.lexeme w.source) = some v
  semicolon : (w.drop 3).current.kind = .semicolon
  next : (w.drop 4).current.kind ≠ .error

end Window

namespace Check

variable {env : Env} {t u : Tree} {q : Queue} {id : ExprId} {e : Expr} {bs : List Branch}
  {type : TypeId} {hole : Hole} {n : Nat} {ps : List Branch}

theorem roomy_record (h : t.Roomy n) (hr : record id type ⟨t, q⟩ = .ok () ⟨u, q⟩) : u.Roomy n := by
  have hmeets : Meets (record id type) ⟨t, q⟩ (fun _ s => s.tree.Roomy n) fun _ _ => True := by
    refine Meets.bind (R := fun _ s => s = ⟨t, q⟩) ?_ ?_
    · exact meets_bind_of_ok (get_eq _) (meets_ofExcept (fun _ _ => rfl) fun _ _ => trivial)
    rintro e _ rfl
    refine meets_bind_of_ok (get_eq _) ?_
    refine Meets.bind (R := fun v s => s = ⟨t, q⟩ ∧ t.setExpr id { e with type } = .ok v)
      (meets_ofExcept (fun _ hv => ⟨rfl, hv⟩) fun _ _ => trivial) ?_
    rintro v _ ⟨rfl, hv⟩
    exact meets_set (h.setExpr hv)
  exact hmeets.of_ok hr

/-- A type that is found at a node without children is recorded there. -/
theorem inferWithin_node (h : u.Holds (hole.plug ⟨.expr id, .expr e, ps⟩)) (hroom : u.Roomy n)
    {d : Nat} (hnode : inferNode env (inferWithin env d) id ⟨t, q⟩ = .ok type ⟨u, q⟩) :
    ∃ v, inferWithin env (d + 1) id ⟨t, q⟩ = .ok type ⟨v, q⟩ ∧
      v.Holds (hole.plug ⟨.expr id, .expr { e with type }, ps⟩) ∧ v.Roomy n := by
  obtain ⟨v, hrecord, hv⟩ := record_plugged h type q
  refine ⟨v, ?_, hv, roomy_record hroom hrecord⟩
  unfold inferWithin
  rw [bind_of_ok hnode, bind_of_ok hrecord]
  rfl

/-- A literal has the type of its value. -/
theorem infer_literal (env : Env) {v : Value} (h : t.Holds (⟨.expr id, .expr e, []⟩ :: bs))
    (hk : e.kind = .literal v) (hroom : t.Roomy n) (q : Queue) :
    ∃ u, infer env id ⟨t, q⟩ = .ok v.kind.type ⟨u, q⟩ ∧
      u.Holds (⟨.expr id, .expr { e with type := v.kind.type }, []⟩ :: bs) ∧ u.Roomy n := by
  have hplug : t.Holds ((Hole.top [] bs).plug ⟨.expr id, .expr e, []⟩) := h
  have hnode : inferNode env (inferWithin env t.exprs.capacity) id ⟨t, q⟩ =
      .ok v.kind.type ⟨t, q⟩ := by
    unfold inferNode
    rw [bind_of_ok (expr_plugged hplug q), hk]
    rfl
  exact inferWithin_node hplug hroom hnode

theorem infer_error (env : Env) (h : t.Holds (⟨.expr id, .expr e, []⟩ :: bs)) (hk : e.kind = .error)
    (hroom : t.Roomy n) (q : Queue) :
    ∃ u, infer env id ⟨t, q⟩ = .ok .invalid ⟨u, q⟩ ∧
      u.Holds (⟨.expr id, .expr { e with type := .invalid }, []⟩ :: bs) ∧ u.Roomy n := by
  have hplug : t.Holds ((Hole.top [] bs).plug ⟨.expr id, .expr e, []⟩) := h
  have hnode : inferNode env (inferWithin env t.exprs.capacity) id ⟨t, q⟩ =
      .ok .invalid ⟨t, q⟩ := by
    unfold inferNode
    rw [bind_of_ok (expr_plugged hplug q), hk]
    rfl
  exact inferWithin_node hplug hroom hnode

/-- The assignment of a literal to a variable of its type. -/
theorem infer_assign (env : Env) {i j : ExprId} {x y : Expr} {name : Name} {v : Value}
    (h : t.Holds (⟨.expr id, .expr e, [⟨.expr i, .expr x, []⟩, ⟨.expr j, .expr y, []⟩]⟩ :: bs))
    (hk : e.kind = .assign .assign i j) (hx : x.kind = .var name) (hy : y.kind = .literal v)
    (hname : env.resolveVar name = some v.kind.type) (hroom : t.Roomy n) (q : Queue) :
    ∃ u, infer env id ⟨t, q⟩ = .ok v.kind.type ⟨u, q⟩ ∧ u.Roomy n ∧ ∃ parts,
      u.Holds (⟨.expr id, .expr { e with type := v.kind.type }, parts⟩ :: bs) := by
  obtain ⟨d, hd⟩ : ∃ d, t.exprs.capacity = d + 1 := by
    have hle := h.exprCount_le
    rw [Branch.exprCount_cons, Branch.exprCount_expr] at hle
    exact ⟨t.exprs.capacity - 1, by omega⟩
  have htarget : t.Holds ((Hole.inside (.top [] bs) (.expr id) (.expr e) [] [_]).plug
      ⟨.expr i, .expr x, []⟩) := h
  have hvar : inferNode env (inferWithin env d) i ⟨t, q⟩ = .ok v.kind.type ⟨t, q⟩ := by
    unfold inferNode
    rw [bind_of_ok (expr_plugged htarget q), hx]
    change inferVar env name x.span ⟨t, q⟩ = _
    rw [inferVar, hname]
    rfl
  obtain ⟨u, hi, hu, huroom⟩ := inferWithin_node htarget hroom hvar
  have hvalue : u.Holds ((Hole.inside (.top [] bs) (.expr id) (.expr e) [_] []).plug
      ⟨.expr j, .expr y, []⟩) := hu
  have hlit : inferNode env (inferWithin env d) j ⟨u, q⟩ = .ok v.kind.type ⟨u, q⟩ := by
    unfold inferNode
    rw [bind_of_ok (expr_plugged hvalue q), hy]
    rfl
  obtain ⟨w, hj, hw, hwroom⟩ := inferWithin_node hvalue huroom hlit
  have hfits : env.types.compatible v.kind.type v.kind.type = .ok true := by
    unfold TypeTable.compatible TypeTable.equal
    rw [if_pos rfl]
    rfl
  have hnode : inferNode env (inferWithin env t.exprs.capacity) id ⟨t, q⟩ =
      .ok v.kind.type ⟨w, q⟩ := by
    unfold inferNode
    have hplug : t.Holds ((Hole.top [] bs).plug ⟨.expr id, .expr e, _⟩) := h
    rw [hd, bind_of_ok (expr_plugged hplug q), hk]
    refine (bind_of_ok hi).trans ((bind_of_ok hj).trans ?_)
    have hstored : storedType env .assign v.kind.type v.kind.type e.span ⟨w, q⟩ =
        .ok v.kind.type ⟨w, q⟩ := rfl
    refine (bind_of_ok hstored).trans ?_
    rw [hfits]
    rfl
  have hplug : w.Holds ((Hole.top [] bs).plug ⟨.expr id, .expr e, [_, _]⟩) := hw
  obtain ⟨z, hz, hzh, hzroom⟩ := inferWithin_node hplug hwroom hnode
  exact ⟨z, hz, hzroom, _, hzh⟩

end Check

namespace ParseState

variable {s : ParseState} {n : Nat}

/-- The state when so many tokens are taken, none of which an error follows. -/
def past (s : ParseState) (n : Nat) : ParseState := { s with window := s.window.drop n }

theorem advanced_past (h : (s.window.drop (n + 1)).current.kind ≠ .error) :
    (s.past n).advanced = s.past (n + 1) := by
  have hbump : (s.past n).window.bump = s.window.drop (n + 1) := Window.bump_drop _ _
  unfold advanced
  rw [hbump, Window.skipErrors_of_ne h]
  rfl

/-- The state when a constant is declared. Its name stands for a folded value from then on; without
folding it is the name of a variable. -/
def declared (s : ParseState) (x : Name) (v : Value) : ParseState :=
  { s with
    symbols := { s.symbols with
      vars := (s.symbols.vars.insert ⟨x, s.scope.depth⟩ v.kind.type).2 }
    folder := if s.folds then s.folder.bind ⟨x, s.scope.depth⟩ v
      else s.folder.unbind ⟨x, s.scope.depth⟩ }

theorem Sound.past (hs : s.Sound) (h : (s.window.drop n).current.kind ≠ .error) :
    (s.past n).Sound :=
  { hs with front := h, marks := hs.marks.drop n }

end ParseState

namespace Parse

variable {s : ParseState} {v : Value} {n m : Nat} {name : String} {bs : List Branch}

theorem check_eq {α : Type} {p : Env → Check α} {a : α} {t : CheckState}
    (h : p s.env ⟨s.tree, s.reports⟩ = .ok a t) :
    check p s = .ok a { s with tree := t.tree, reports := t.reports } := by
  unfold check
  rw [h]

/-- There is room for a node, for which nothing was read before. -/
theorem addNode_of_roomy (xs : List Branch) {x : Expr} (hh : s.tree.Holds (xs ++ bs))
    (hroom : s.tree.Roomy (n + 1)) (hc : s.tree.Covers (.expr x))
    (hch : s.tree.children (.expr x) = xs.map Branch.root) :
    ∃ id tree, addNode x s = .ok id { s with tree } ∧
      tree.Holds (⟨.expr id, .expr x, xs⟩ :: bs) ∧ tree.Roomy n := by
  obtain ⟨id, tree, ha, hr⟩ := hroom.addExpr x
  exact ⟨id, tree, addNode_eq ha, hh.addExpr ha hc hch, hr⟩

theorem production_literal (h : s.window.AtLiteral v) (hs : s.Sound) (hh : s.tree.Holds bs)
    (hroom : s.tree.Roomy (n + 1)) (isValue : Bool) :
    ∃ id e tree, production (.expr .assign isValue) s = .ok id { s.past 1 with tree } ∧
      tree.Holds (⟨.expr id, .expr e, []⟩ :: bs) ∧ e.kind = .literal v ∧ tree.Roomy n := by
  have hadv : s.advanced = s.past 1 := ParseState.advanced_past (n := 0) (by rw [h.next]; decide)
  have hsound : (s.past 1).Sound := hs.past (by rw [h.next]; decide)
  obtain ⟨id, tree, hadd, hh', hroom'⟩ := addNode_of_roomy (s := s.past 1) [] hh hroom
    (x := { Expr.new (.literal v) s.window.current.span with isConstant := true }) trivial rfl
  have hliteral : literal s.window.current s = .ok id { s.past 1 with tree } := by
    unfold literal
    rw [bind_of_ok (get_eq s), bind_of_ok (advance_eq s), hadv]
    simp only [Window.lexeme, h.value]
    exact hadd
  refine ⟨id, _, tree, ?_, hh', rfl, hroom'⟩
  rw [production_eq_step (.expr .assign isValue) hs]
  change (unary production >>= fun left => production (.infixes left .assign isValue)) s = _
  have hread : ParseState.Sound { s.past 1 with tree } := (hsound.withTree hh'.sound)
  rw [bind_of_ok ((primary_literal h.value).trans hliteral), production_eq_step _ hread]
  refine infixes_stop (.inl ?_)
  change Level.of (s.window.drop 1).current.kind = .none
  rw [h.next]
  rfl

/-- An identifier is read and gets a name. -/
theorem expectName_eq {x : Name} {names : Interner} (hk : s.window.current.kind = .ident)
    (hnext : (s.window.drop 1).current.kind ≠ .error)
    (hi : s.names.intern (s.window.lexeme s.window.current) = .ok (x, names)) :
    expectName s = .ok (x, s.window.current.span) { s.past 1 with names } := by
  have hadv : s.advanced = s.past 1 := ParseState.advanced_past (n := 0) hnext
  have hlexeme : (s.past 1).window.lexeme s.window.current = s.window.lexeme s.window.current := by
    change s.window.current.lexeme (s.window.drop 1).source = _
    rw [Window.source_drop]
    rfl
  have hintern : intern (s.window.lexeme s.window.current) (s.past 1) =
      .ok x { s.past 1 with names } := by
    unfold intern
    rw [bind_of_ok (get_eq _)]
    change (ofStorage (s.names.intern _) >>= _) _ = _
    rw [hi]
    rfl
  unfold expectName
  rw [bind_of_ok (currentIs_eq hk), if_pos rfl, bind_of_ok (advance_eq s), hadv,
    bind_of_ok (get_eq _), hlexeme, bind_of_ok hintern]
  rfl

/-- A literal is its own value. -/
theorem fold_literal {id : ExprId} {e : Expr} (h : s.tree.Holds (⟨.expr id, .expr e, []⟩ :: bs))
    (hk : e.kind = .literal v) : fold id s = .ok (if s.folds then some v else none) s := by
  have hfold : s.folder.fold s.scope.depth id s.tree = .ok (some v) s.tree := by
    change s.folder.foldNode s.scope.depth _ id s.tree = _
    refine (bind_of_ok (get_eq s.tree)).trans ((bind_of_ok (a := e) (u := s.tree) ?_).trans ?_)
    · rw [h.expr]
      rfl
    · rw [hk]
      rfl
  unfold fold
  by_cases hf : s.folds = true
  · rw [if_pos hf, if_pos hf, hfold]
  · rw [if_neg hf, if_neg hf]

theorem addStmt_of_roomy (kind : StmtKind) (span : Span) (xs : List Branch)
    (hh : s.tree.Holds (xs ++ bs)) (hroom : s.tree.Roomy (n + 1))
    (hc : s.tree.Covers (.stmt ⟨kind, span⟩))
    (hch : s.tree.children (.stmt ⟨kind, span⟩) = xs.map Branch.root) :
    ∃ id tree, addStmt kind span s = .ok id { s with tree } ∧
      tree.Holds (⟨.stmt id, .stmt ⟨kind, span⟩, xs⟩ :: bs) ∧ tree.Roomy n := by
  obtain ⟨id, tree, ha, hr⟩ := hroom.addStmt ⟨kind, span⟩
  refine ⟨id, tree, ?_, hh.addStmt ha hc hch, hr⟩
  unfold addStmt
  rw [bind_of_ok (get_eq s), ha]
  rfl

theorem declareVariable_eq (x : Name) (v : Value) (s : ParseState) :
    declareVariable x v.kind.type true (if s.folds then some v else none) s =
      .ok () (s.declared x v) := by
  have hequal : s.types.equal v.kind.type v.kind.type = .ok true := by
    rw [TypeTable.equal, if_pos rfl]
    rfl
  have hkey : key x s = .ok ⟨x, s.scope.depth⟩ s := rfl
  unfold declareVariable ParseState.declared
  rw [bind_of_ok (get_eq s), bind_of_ok hkey]
  by_cases hf : s.folds = true
  · simp only [if_pos hf, hequal]
    rfl
  · simp only [if_neg hf]
    rfl

theorem report_eq {code : ErrorCode} {span : Span} {message label : String} {line col : Nat}
    (h : s.lines.locate span.start = .ok (line, col)) : report code span message label s = .ok ()
      { s with reports := s.reports.emit (Report.on code message span label) line col } := by
  have hemit : s.reports.emitSpanned (Report.on code message span label) s.lines =
      .ok (s.reports.emit (Report.on code message span label) line col) := by
    unfold Queue.emitSpanned
    change (s.lines.locate span.start >>= _) = _
    rw [h]
    rfl
  unfold report
  rw [bind_of_ok (get_eq s), hemit]
  rfl

/-- A node without a value and without children stays as it is. -/
theorem fold_leaf {id : ExprId} {e : Expr} (h : s.tree.Holds (⟨.expr id, .expr e, []⟩ :: bs))
    (hk : e.kind = .error ∨ ∃ x, e.kind = .var x) (hc : e.isConstant = false) :
    fold id s = .ok none s := by
  have hfold : s.folder.fold s.scope.depth id s.tree = .ok none s.tree := by
    change s.folder.foldNode s.scope.depth _ id s.tree = _
    unfold Folder.foldNode
    refine (bind_of_ok (get_eq s.tree)).trans ((bind_of_ok (a := e) (u := s.tree) ?_).trans ?_)
    · rw [h.expr]
      rfl
    · rcases hk with hk | ⟨x, hk⟩ <;>
      · rw [hk, hc]
        rfl
  unfold fold
  by_cases hf : s.folds = true
  · rw [if_pos hf, hfold]
  · rw [if_neg hf]

/-- The rest of the declaration, behind the equals sign. -/
theorem variableDecl_literal {x : Name} (start : Span) (hs : s.Sound) (hlit : s.window.AtLiteral v)
    (hnext : (s.window.drop 2).current.kind ≠ .error) (hspace : s.scope.namespace? = none)
    (hroom : s.tree.Roomy (n + 2)) :
    ∃ id tree, (production .value >>= fun init => variableDecl x none (some init) true start) s =
      .ok id { (s.past 2).declared x v with tree } ∧ tree.Roomy n ∧
        ∃ i e node, tree.Holds [⟨.stmt id, node, [⟨.expr i, .expr e, []⟩]⟩] := by
  have hnil : s.tree.Holds [] := hs.tree.holds_nil
  obtain ⟨i, e, tree, hread, hh, hk, hroom⟩ := production_literal hlit hs hnil hroom true
  obtain ⟨tree', hinfer, hh', hroom⟩ := Check.infer_literal s.env hh hk hroom s.reports
  have htype : variableType x (Option.getD none .invalid) (some i) true start
      { s.past 1 with tree } = .ok v.kind.type { s.past 1 with tree := tree' } := by
    have hcheck : Check.checkInitializer s.env x .invalid i ⟨tree, s.reports⟩ =
        .ok v.kind.type ⟨tree', s.reports⟩ := by
      unfold Check.checkInitializer
      rw [bind_of_ok hinfer]
      rfl
    exact check_eq (s := { s.past 1 with tree }) (t := ⟨tree', s.reports⟩)
      (p := fun env => Check.checkInitializer env x .invalid i) hcheck
  have hfold : fold i { s.past 1 with tree := tree' } =
      .ok (if s.folds then some v else none) { s.past 1 with tree := tree' } :=
    fold_literal (s := { s.past 1 with tree := tree' }) hh' hk
  have hsemi : expect .semicolon { s.past 1 with tree := tree' } =
      .ok (s.window.drop 1).current { s.past 2 with tree := tree' } := by
    have hadv : ({ s.past 1 with tree := tree' } : ParseState).advanced =
        { s.past 2 with tree := tree' } :=
      ParseState.advanced_past (s := { s with tree := tree' }) hnext
    rw [← hadv]
    exact expect_eq hlit.next
  have hstored : declaredName x { s.past 2 with tree := tree' } =
      .ok x { s.past 2 with tree := tree' } := by
    have hscope : ({ s.past 2 with tree := tree' } : ParseState).scope.namespace? = none := hspace
    unfold declaredName
    rw [bind_of_ok (get_eq _), hscope]
    rfl
  obtain ⟨id, u, hadd, hheld, hroom⟩ := addStmt_of_roomy
    (s := ({ s.past 2 with tree := tree' } : ParseState).declared x v)
    (.varDecl x v.kind.type (some i) true) (start.merge (s.window.drop 2).previous)
      [_] hh' hroom trivial rfl
  refine ⟨id, u, ?_, hroom, i, _, _, hheld⟩
  rw [bind_of_ok hread]
  unfold variableDecl
  rw [bind_of_ok htype]
  refine (bind_of_ok hfold).trans ((bind_of_ok hsemi).trans ?_)
  rw [bind_of_ok (spanFrom_eq _ _), bind_of_ok hstored]
  exact (bind_of_ok (declareVariable_eq x v { s.past 2 with tree := tree' })).trans hadd

/-- A constant with a literal as its value. -/
theorem stmt_constant (h : s.window.AtConstant name v) (hs : s.Sound)
    (hspace : s.scope.namespace? = none) (hroom : s.tree.Roomy (n + 2))
    (hnames : s.names.Roomy (name.utf8ByteSize + m)) :
    ∃ id x tree names, production .stmt s = .ok id { (s.past 6).declared x v with
        tree, names, reports := s.reports.beginStatement } ∧
      tree.Roomy n ∧ names.get? name = some x ∧
      ∃ i e node, tree.Holds [⟨.stmt id, node, [⟨.expr i, .expr e, []⟩]⟩] := by
  obtain ⟨x, names, hi, -⟩ := hnames.intern
  obtain ⟨hn, -, hg⟩ := hs.names.intern hi
  -- The state with its statement begun, and then with the name, but for the tokens.
  let r : ParseState := { s with reports := s.reports.beginStatement }
  let t : ParseState := { r with names }
  have hr : r.Sound :=
    (hs.onto_beginStatement 0).sound
  have hvalue : (t.window.drop 4).current.kind ≠ .error := (Term.plain_of_literal h.value).1
  have ht : (t.past 4).Sound := (hr.onto_names hn hg 0).sound.past hvalue
  have hlit : (t.past 4).window.AtLiteral v := by
    refine ⟨?_, h.semicolon⟩
    change literalValue? _ ((s.window.drop 4).current.lexeme (s.window.drop 4).source) = _
    rw [Window.source_drop]
    exact h.value
  obtain ⟨id, tree, hrest, hroom, hheld⟩ := variableDecl_literal (x := x)
    s.window.current.span ht hlit h.next hspace hroom
  refine ⟨id, x, tree, names, ?_, hroom, hs.names.get?_intern hi, hheld⟩
  have hname : expectName (r.past 1) = .ok (x, (s.window.drop 1).current.span) (t.past 2) := by
    refine expectName_eq (s := r.past 1) h.ident (ne_of_eq_of_ne h.colon (by decide)) ?_
    change s.names.intern ((s.window.drop 1).current.lexeme (s.window.drop 1).source) = _
    rw [Window.source_drop, h.text]
    exact hi
  have hcolon : expect .colon (t.past 2) = .ok (s.window.drop 2).current (t.past 3) := by
    have hadv : (t.past 2).advanced = t.past 3 :=
      ParseState.advanced_past (s := t) (n := 2) (ne_of_eq_of_ne h.equal (by decide))
    rw [← hadv]
    exact expect_eq h.colon
  have hequal : eat .equal (t.past 3) = .ok true (t.past 4) := by
    rw [← ParseState.advanced_past (n := 3) hvalue]
    exact eat_eq h.equal
  have hdecl : declaration production true s.window.current.span (r.past 1) =
      .ok id { (s.past 6).declared x v with
        tree, names, reports := s.reports.beginStatement } := by
    unfold declaration
    refine (bind_of_ok hname).trans ((bind_of_ok hcolon).trans ?_)
    refine (bind_of_ok (currentIs_eq (s := t.past 3) h.equal)).trans ?_
    refine (bind_of_ok (a := none) (u := t.past 3) rfl).trans ((bind_of_ok hequal).trans ?_)
    refine (bind_of_ok (currentIs_ne (s := t.past 4) (Term.plain_of_literal h.value).2.2)).trans ?_
    exact hrest
  have hconst : constant production r = .ok id { (s.past 6).declared x v with
      tree, names, reports := s.reports.beginStatement } := by
    have hadv : r.advanced = r.past 1 :=
      ParseState.advanced_past (s := r) (n := 0) (ne_of_eq_of_ne h.ident (by decide))
    have hahead : r.window.bump.currentIs .ident = true := beq_iff_eq.2 h.ident
    have hnext : (r.window.bump.next.kind == .colon) = true := beq_iff_eq.2 h.colon
    unfold constant
    rw [bind_of_ok (get_eq r), bind_of_ok (advance_eq r), hadv, hahead, hnext, Bool.true_and,
      if_pos rfl]
    exact hdecl
  have hbegin : beginStatement s = .ok ⟨⟩ r := rfl
  have hkind : r.window.current.kind = .kwConst := h.const
  rw [production_eq_step .stmt hs]
  change statement production s = _
  unfold statement
  rw [bind_of_ok hbegin, bind_of_ok (current_eq r), hkind]
  exact hconst

/-- A name that is declared in the innermost scope, perhaps for a folded value. -/
structure Declares (s : ParseState) (name : String) (x : Name) (type : TypeId) (folded : Bool) :
    Prop where
  name : s.names.get? name = some x
  type : s.symbols.vars.get? ⟨x, s.scope.depth⟩ = some type
  folded : (s.folder.bindingAt ⟨x, s.scope.depth⟩).isSome = folded

theorem Declares.resolve {x : Name} {type : TypeId} {folded : Bool}
    (hd : Declares s name x type folded) :
    VarTable.resolve s.symbols.vars x s.scope.depth = some (type, s.scope.depth) := by
  have ht := hd.type
  cases hdepth : s.scope.depth with
  | zero => rw [hdepth] at ht; simp [VarTable.resolve, ht]
  | succ depth => rw [hdepth] at ht; simp [VarTable.resolve, ht]

/-- A name can be assigned if it has no folded value. -/
theorem nameExpr_declared {x : Name} {type : TypeId} {folded : Bool}
    (hident : s.window.current.kind = .ident)
    (htext : s.window.current.lexeme s.window.source = name)
    (hnext : (s.window.drop 1).current.kind ≠ .error)
    (hd : Declares s name x type folded) (hh : s.tree.Holds bs) (hroom : s.tree.Roomy (n + 1)) :
    ∃ id e tree, nameExpr s = .ok id { s.past 1 with tree } ∧
      tree.Holds (⟨.expr id, .expr e, []⟩ :: bs) ∧ e.kind = .var x ∧ e.canAssign = !folded ∧
      e.isConstant = folded ∧ e.span = s.window.current.span ∧ tree.Roomy n := by
  have hname : expectName s = .ok (x, s.window.current.span) (s.past 1) :=
    expectName_eq hident hnext
      (by rw [Window.lexeme, htext]; exact Interner.intern_of_get? hd.name)
  have hconst : isConstantName x (s.past 1) = .ok folded (s.past 1) := by
    rw [isConstantName_run, ParseState.constants_of_resolve (s := s.past 1) hd.resolve]
    exact congrArg (EStateM.Result.ok · (s.past 1)) hd.folded
  cases folded with
  | false =>
    obtain ⟨id, tree, ha, hh, hroom⟩ := addNode_of_roomy (s := s.past 1) [] hh hroom
      (x := { Expr.new (.var x) s.window.current.span with canAssign := true }) trivial rfl
    refine ⟨id, _, tree, ?_, hh, rfl, rfl, rfl, rfl, hroom⟩
    unfold nameExpr
    rw [bind_of_ok hname]
    exact (bind_of_ok hconst).trans ha
  | true =>
    obtain ⟨id, tree, ha, hh, hroom⟩ := addNode_of_roomy (s := s.past 1) [] hh hroom
      (x := { Expr.new (.var x) s.window.current.span with isConstant := true }) trivial rfl
    refine ⟨id, _, tree, ?_, hh, rfl, rfl, rfl, rfl, hroom⟩
    unfold nameExpr
    rw [bind_of_ok hname]
    exact (bind_of_ok hconst).trans ha

/-- Behind the target both operands are read, and then it counts whether it can be assigned. -/
theorem assignment_operands {i : ExprId} {e : Expr} {tree : Tree} (h : s.window.AtAssignment name v)
    (hs : s.Sound) (hh : tree.Holds (⟨.expr i, .expr e, []⟩ :: bs))
    (hroom : tree.Roomy (n + 1)) :
    ∃ j y tree', tree'.Holds (⟨.expr j, .expr y, []⟩ :: ⟨.expr i, .expr e, []⟩ :: bs) ∧
      y.kind = .literal v ∧ tree'.Roomy n ∧
      assignment production i { s.past 1 with tree } =
        (if e.canAssign then addExpr (.assign .assign i j) (e.span.merge y.span)
        else do
          report .invalidTarget e.span "invalid left-hand side of `=`"
            "cannot be assigned to"
          release i
          release j
          errorExpr (e.span.merge y.span)) { s.past 3 with tree := tree' } := by
  let t : ParseState := { s with tree }
  have hvalue := (Term.plain_of_literal h.value).1
  have ht : (t.past 2).Sound := (hs.withTree hh.sound).past hvalue
  have hlit : (t.past 2).window.AtLiteral v := by
    refine ⟨?_, h.semicolon⟩
    change literalValue? _ ((s.window.drop 2).current.lexeme (s.window.drop 2).source) = _
    rw [Window.source_drop]
    exact h.value
  obtain ⟨j, y, tree', hread, hh', hy, hroom⟩ := production_literal hlit ht hh hroom false
  refine ⟨j, y, tree', hh', hy, hroom, ?_⟩
  have hop : AssignOp.ofToken? (t.past 1).window.current.kind = some .assign := by
    rw [show (t.past 1).window.current.kind = .equal from h.equal]
    rfl
  have hadv : (t.past 1).advanced = t.past 2 := ParseState.advanced_past (s := t) (n := 1) hvalue
  have htarget : expr i { s.past 3 with tree := tree' } = .ok e { s.past 3 with tree := tree' } :=
    expr_eq (s := { s.past 3 with tree := tree' }) hh'.swap
  have hoperand : expr j { s.past 3 with tree := tree' } = .ok y { s.past 3 with tree := tree' } :=
    expr_eq (s := { s.past 3 with tree := tree' }) hh'
  unfold assignment
  rw [show ({ s.past 1 with tree } : ParseState) = t.past 1 from rfl, bind_of_ok (current_eq _),
    hop]
  refine (bind_of_ok (advance_eq (t.past 1))).trans ?_
  rw [hadv]
  refine (bind_of_ok hread).trans ((bind_of_ok htarget).trans ((bind_of_ok hoperand).trans ?_))
  rfl

/-- The whole expression ends with its assignment. -/
theorem production_assignment {i w : ExprId} {tree : Tree} {u : ParseState}
    (h : s.window.AtAssignment name v) (hs : s.Sound)
    (hname : nameExpr s = .ok i { s.past 1 with tree })
    (htree : tree.Sound) (hassign : assignment production i { s.past 1 with tree } = .ok w u)
    (hu : u.Sound) (hend : u.window = s.window.drop 3) :
    production (.expr .assign false) s = .ok w u := by
  have hequal : ({ s.past 1 with tree } : ParseState).window.current.kind = .equal := h.equal
  have ht : ParseState.Sound { s.past 1 with tree } :=
    ((hs.past (ne_of_eq_of_ne h.equal (by decide))).withTree htree)
  rw [production_eq_step (.expr .assign false) hs]
  change (unary production >>= fun left => production (.infixes left .assign false)) s = _
  rw [bind_of_ok ((primary_name h.ident).trans hname), production_eq_step _ ht]
  refine (infixes_assign (by rw [hequal]; rfl) ?_).trans ?_
  · rw [hequal]
    simp [Level.Stops, Level.of]
  rw [bind_of_ok hassign, production_eq_step _ hu]
  refine infixes_stop (.inl ?_)
  rw [hend, h.semicolon]
  rfl

/-- What is left of a statement behind its expression. -/
theorem exprStmt_of_checked {w : ExprId} {e : Expr} {parts : List Branch} {type : TypeId}
    {value : Option Value} {u : ParseState} {tree : Tree} {k : Nat}
    (hexpr : production (.expr .assign false) s = .ok w u)
    (hcheck : Check.infer u.env w ⟨u.tree, u.reports⟩ = .ok type ⟨tree, u.reports⟩)
    (hfold : fold w { u with tree } = .ok value { u with tree })
    (hh : tree.Holds (⟨.expr w, .expr e, parts⟩ :: bs)) (hwindow : u.window = s.window.drop k)
    (hsemi : (s.window.drop k).current.kind = .semicolon)
    (hnext : (s.window.drop (k + 1)).current.kind ≠ .error) (hroom : tree.Roomy (n + 1)) :
    ∃ id tree', exprStmt production s =
      .ok id { u with window := s.window.drop (k + 1), tree := tree' } ∧ tree'.Roomy n := by
  have hadv : ({ u with tree } : ParseState).advanced =
      { u with window := s.window.drop (k + 1), tree } := by
    have hpast : ({ u with tree } : ParseState) =
        ({ u with window := s.window, tree } : ParseState).past k := by
      rw [ParseState.past, ← hwindow]
    rw [hpast]
    exact ParseState.advanced_past hnext
  have hsemi : expect .semicolon { u with tree } =
      .ok u.window.current { u with window := s.window.drop (k + 1), tree } := by
    rw [← hadv]
    exact expect_eq (s := { u with tree }) (by rw [← hsemi, ← hwindow])
  have hwhole : expr w { u with window := s.window.drop (k + 1), tree } =
      .ok e { u with window := s.window.drop (k + 1), tree } :=
    expr_eq (s := { u with window := s.window.drop (k + 1), tree }) hh
  obtain ⟨id, tree', hadd, -, hroom⟩ := addStmt_of_roomy
    (s := { u with window := s.window.drop (k + 1), tree }) (.expr w)
    (e.span.merge (s.window.drop (k + 1)).previous) [_] hh hroom trivial rfl
  refine ⟨id, tree', ?_, hroom⟩
  have hinfer : check (fun env => Check.infer env w) u = .ok type { u with tree } :=
    check_eq (p := fun env => Check.infer env w) (t := ⟨tree, u.reports⟩) hcheck
  unfold exprStmt
  rw [bind_of_ok hexpr, bind_of_ok hinfer, bind_of_ok hfold, bind_of_ok hsemi, bind_of_ok hwhole,
    bind_of_ok (spanFrom_eq _ _)]
  exact hadd

theorem Declares.resolveVar {x : Name} {type : TypeId} {folded : Bool}
    (hd : Declares s name x type folded) : s.env.resolveVar x = some type :=
  s.env.resolveVar_of_resolve hd.resolve

/-- A statement that begins with a name and no colon is an expression. -/
theorem stmt_eq_exprStmt (h : s.window.AtAssignment name v) (hs : s.Sound) :
    production .stmt s = exprStmt production { s with reports := s.reports.beginStatement } := by
  let r : ParseState := { s with reports := s.reports.beginStatement }
  have hbegin : beginStatement s = .ok ⟨⟩ r := rfl
  have hkind : r.window.current.kind = .ident := h.ident
  have hnext : nextIs .colon r = .ok false r := by
    have hcolon : (r.window.next.kind == .colon) = false := by
      rw [show r.window.next.kind = .equal from h.equal]
      rfl
    exact congrArg (EStateM.Result.ok · r) hcolon
  rw [production_eq_step .stmt hs]
  change statement production s = _
  unfold statement
  rw [bind_of_ok hbegin, bind_of_ok (current_eq r), hkind]
  exact (bind_of_ok hnext).trans rfl

/-- A variable of the type of a literal can be assigned it. -/
theorem stmt_assign_variable {x : Name} (h : s.window.AtAssignment name v) (hs : s.Sound)
    (hd : Declares s name x v.kind.type false) (hfolds : s.folds = false)
    (hroom : s.tree.Roomy (n + 4)) :
    ∃ id tree, production .stmt s =
      .ok id { s.past 4 with tree, reports := s.reports.beginStatement } ∧ tree.Roomy n := by
  let r : ParseState := { s with reports := s.reports.beginStatement }
  have hr : r.Sound :=
    (hs.onto_beginStatement 0).sound
  have hnil : r.tree.Holds [] := hs.tree.holds_nil
  have hdeclares : Declares r name x v.kind.type false := ⟨hd.1, hd.2, hd.3⟩
  obtain ⟨i, e, tree, hname, hh, hk, hcan, -, -, hroom⟩ := nameExpr_declared (s := r) h.ident
    h.text (ne_of_eq_of_ne h.equal (by decide)) hdeclares hnil hroom
  obtain ⟨j, y, tree', hh', hy, hroom, hassign⟩ := assignment_operands (s := r) h hr hh hroom
  rw [hcan, Bool.not_false, if_pos rfl] at hassign
  obtain ⟨w, tree'', hadd, hh'', hroom⟩ := addNode_of_roomy (s := { r.past 3 with tree := tree' })
    [_, _] hh'.swap hroom (x := .new (.assign .assign i j) (e.span.merge y.span))
    trivial rfl
  have hu : ParseState.Sound { r.past 3 with tree := tree'' } :=
    ((hr.past (ne_of_eq_of_ne h.semicolon (by decide))).withTree hh''.sound)
  have hexpr := production_assignment (s := r) h hr hname hh.sound (hassign.trans hadd) hu rfl
  obtain ⟨z, hinfer, hroom, parts, hz⟩ := Check.infer_assign r.env hh'' rfl hk hy
    hdeclares.resolveVar hroom r.reports
  have hfold : fold w { r.past 3 with tree := z } = .ok none { r.past 3 with tree := z } := by
    unfold fold
    rw [if_neg (by simp [r, ParseState.past, hfolds])]
  obtain ⟨id, last, hstmt, hroom⟩ :=
    exprStmt_of_checked hexpr hinfer hfold hz rfl h.semicolon h.next hroom
  exact ⟨id, last, (stmt_eq_exprStmt h hs).trans hstmt, hroom⟩

/-- A constant with a folded value cannot be assigned. -/
theorem stmt_assign_constant {x : Name} {type : TypeId} {line col : Nat}
    (h : s.window.AtAssignment name v) (hs : s.Sound) (hd : Declares s name x type true)
    (hplace : s.lines.locate s.window.current.span.start = .ok (line, col))
    (hroom : s.tree.Roomy (n + 4)) :
    ∃ id tree, production .stmt s = .ok id { s.past 4 with
        tree
        reports := s.reports.beginStatement.emit
          (Report.on .invalidTarget "invalid left-hand side of `=`" s.window.current.span
            "cannot be assigned to") line col } ∧
      tree.Roomy n := by
  let r : ParseState := { s with reports := s.reports.beginStatement }
  have hr : r.Sound :=
    (hs.onto_beginStatement 0).sound
  have hnil : r.tree.Holds [] := hs.tree.holds_nil
  have hdeclares : Declares r name x type true := ⟨hd.1, hd.2, hd.3⟩
  obtain ⟨i, e, tree, hname, hh, -, hcan, -, hspan, hroom⟩ := nameExpr_declared (s := r) h.ident
    h.text (ne_of_eq_of_ne h.equal (by decide)) hdeclares hnil hroom
  obtain ⟨j, y, tree', hh', -, hroom, hassign⟩ := assignment_operands (s := r) h hr hh hroom
  rw [hcan, Bool.not_true, if_neg Bool.false_ne_true, hspan] at hassign
  let q := r.reports.emit (Report.on .invalidTarget "invalid left-hand side of `=`"
    s.window.current.span "cannot be assigned to") line col
  have hreport : report .invalidTarget s.window.current.span "invalid left-hand side of `=`"
      "cannot be assigned to" { r.past 3 with tree := tree' } =
      .ok () { r.past 3 with tree := tree', reports := q } := report_eq hplace
  have hfreed := hh'.swap.release.release
  obtain ⟨w, tree'', hadd, hh'', hroom⟩ := addNode_of_roomy
    (s := { r.past 3 with
      tree := ((tree'.release (.expr i)).2.release (.expr j)).2, reports := q })
    [] hfreed ((hroom.releaseAll 0 _).releaseAll 0 _)
    (x := .new .error (s.window.current.span.merge y.span)) trivial rfl
  have hfree (id : ExprId) (t : ParseState) :
      release id t = .ok ⟨⟩ { t with tree := (t.tree.release (.expr id)).2 } := rfl
  have hwhole := hassign.trans ((bind_of_ok hreport).trans
    ((bind_of_ok (hfree i _)).trans ((bind_of_ok (hfree j _)).trans hadd)))
  have hread : ParseState.Sound { r.past 3 with tree := tree' } :=
    ((hr.past (ne_of_eq_of_ne h.semicolon (by decide))).withTree hh'.sound)
  have hu : ParseState.Sound { r.past 3 with tree := tree'', reports := q } :=
    (((steady_report (k := 0) (by decide) _ _ _).ok hreport hread).sound.withTree hh''.sound)
  have hexpr := production_assignment (s := r) h hr hname hh.sound hwhole hu rfl
  obtain ⟨z, hinfer, hz, hroom⟩ := Check.infer_error r.env hh'' rfl hroom q
  have hfold : fold w { r.past 3 with tree := z, reports := q } =
      .ok none { r.past 3 with tree := z, reports := q } :=
    fold_leaf (s := { r.past 3 with tree := z, reports := q }) hz (.inl rfl) rfl
  obtain ⟨id, last, hstmt, hroom⟩ :=
    exprStmt_of_checked hexpr hinfer hfold hz rfl h.semicolon h.next hroom
  exact ⟨id, last, (stmt_eq_exprStmt h hs).trans hstmt, hroom⟩

/-- Where reading is behind a constant that a text begins with. -/
structure Constant (text : String) (settings : Settings) (name : String) (v : Value) (id : StmtId)
    (t : ParseState) : Prop where
  window : t.window = (Window.ofText text).drop 6
  lines : t.lines = Lines.ofText text
  reports : t.reports = Queue.withConfig ⟨settings.errorLimit, settings.deduplicate⟩
  folds : t.folds = settings.folds
  room : t.tree.Roomy 7
  declares : ∃ x, Declares t name x v.kind.type settings.folds
  node : ∃ i e node, t.tree.Holds [⟨.stmt id, node, [⟨.expr i, .expr e, []⟩]⟩]

/-- A constant at the beginning of a text is read, if there is room, and comes before what follows
it. -/
theorem exists_stmt_constant {text : String} (settings : Settings)
    (h : (Window.ofText text).AtConstant name v)
    (hnames : 44 + name.utf8ByteSize ≤ min settings.arenaReserve maxOffset)
    (hslots : 9 * poolBatch ≤ min settings.poolReserve maxOffset) :
    ∃ s id t, s.Opens text settings ∧ production .stmt s = .ok id t ∧
      Constant text settings name v id t ∧ ∀ ids u, production .program t = .ok ids u →
        production .program s = .ok (id :: ids) u := by
  obtain ⟨s, hs, hroom⟩ := ParseState.exists_opens text settings hnames hslots
  have hskip := Window.skipErrors_of_ne (ne_of_eq_of_ne h.const (by decide))
  have hwindow : s.window = Window.ofText text := by rw [hs.window, hskip]
  have htree : s.tree.Roomy (7 + 2) := hs.tree ▸ Tree.roomy_withMaxSlots hslots
  obtain ⟨id, x, tree, names, hrun, htree, hx, hheld⟩ :=
    stmt_constant (m := 0) (hwindow ▸ h) hs.sound (by rw [hs.scope]; rfl) htree hroom
  have hreports : s.reports = Queue.withConfig ⟨settings.errorLimit, settings.deduplicate⟩ := by
    rw [hs.reports, hskip]
    rfl
  refine ⟨s, id, _, hs, hrun, ⟨?_, hs.lines, ?_, hs.folds, htree, ⟨x, hx, ?_, ?_⟩, hheld⟩,
    fun ids u hrest => program_cons hs.sound ?_ ?_ hrun hrest⟩
  · exact congrArg (Window.drop 6) hwindow
  · change s.reports.beginStatement = _
    rw [hreports]
    rfl
  · exact (hs.sound.symbols.vars.get?_insert _ _ _).trans (if_pos rfl)
  · change ((if s.folds then s.folder.bind ⟨x, s.scope.depth⟩ v
      else s.folder.unbind ⟨x, s.scope.depth⟩).bindingAt ⟨x, s.scope.depth⟩).isSome = _
    rw [← hs.folds]
    cases s.folds with
    | false => simp [Folder.bindingAt_unbind]
    | true => simp [Folder.bindingAt_bind]
  · rw [Window.atEnd, Window.currentIs, hwindow, h.const]
    rfl
  · rw [hreports]
    rfl

end Parse

end FrontEnd
