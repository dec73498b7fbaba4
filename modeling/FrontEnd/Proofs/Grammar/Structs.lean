import FrontEnd.Proofs.Grammar.Constants

/-!
What becomes of a struct that is declared and of variables with such a type, while there is room. A
name that is declared again in the same place stands for the new struct from then on.
-/

namespace FrontEnd

namespace Window

/-- Next is the declaration of a struct that ends with token `k`, and then a name. -/
structure AtStruct (w : Window) (name : String) (k : Nat) : Prop where
  struct : w.current.kind = .kwStruct
  ident : (w.drop 1).current.kind = .ident
  text : (w.drop 1).current.lexeme w.source = name
  brace : (w.drop 2).current.kind = .openBrace
  body : (w.drop 3).current.kind ≠ .error
  close : (w.drop k).current.kind = .closeBrace
  next : (w.drop (k + 1)).current.kind = .ident

/-- Next is a field, the last one of its struct. -/
structure AtField (w : Window) (name : String) : Prop where
  ident : w.current.kind = .ident
  text : w.current.lexeme w.source = name
  colon : (w.drop 1).current.kind = .colon
  type : (w.drop 2).current.kind = .kwInt
  semicolon : (w.drop 3).current.kind = .semicolon
  next : (w.drop 4).current.kind = .closeBrace

/-- Next is the name of a variable and that of its type. -/
structure AtVariable (w : Window) (name typeName : String) : Prop where
  ident : w.current.kind = .ident
  text : w.current.lexeme w.source = name
  colon : (w.drop 1).current.kind = .colon
  type : (w.drop 2).current.kind = .ident
  typeText : (w.drop 2).current.lexeme w.source = typeName

/-- Next is the name of a value, and then the end of a statement. -/
structure AtName (w : Window) (name : String) : Prop where
  ident : w.current.kind = .ident
  text : w.current.lexeme w.source = name
  semicolon : (w.drop 1).current.kind = .semicolon
  next : (w.drop 2).current.kind ≠ .error

end Window

namespace ParseState

variable {s : ParseState}

/-- The state when a variable without a folded value is declared. -/
def withVariable (s : ParseState) (x : Name) (type : TypeId) : ParseState :=
  { s with
    symbols := { s.symbols with vars := (s.symbols.vars.insert ⟨x, s.scope.depth⟩ type).2 }
    folder := s.folder.unbind ⟨x, s.scope.depth⟩ }

/-- The state when a new type is declared. -/
def withType (s : ParseState) (x : Name) (type : TypeId) (types : TypeTable) : ParseState :=
  { s with
    types
    symbols := { s.symbols with types := (s.symbols.types.insert ⟨x, s.scope.depth⟩ type).2 } }

end ParseState

namespace Check

variable {env : Env} {t : Tree} {id : ExprId} {e : Expr} {bs : List Branch} {type : TypeId}
  {x : Name} {n : Nat}

/-- A name has the type of its variable. -/
theorem infer_var (h : t.Holds (⟨.expr id, .expr e, []⟩ :: bs)) (hk : e.kind = .var x)
    (hname : env.resolveVar x = some type) (hroom : t.Roomy n) (q : Queue) :
    ∃ u, infer env id ⟨t, q⟩ = .ok type ⟨u, q⟩ ∧
      u.Holds (⟨.expr id, .expr { e with type }, []⟩ :: bs) ∧ u.Roomy n := by
  have hplug : t.Holds ((Hole.top [] bs).plug ⟨.expr id, .expr e, []⟩) := h
  have hnode : inferNode env (inferWithin env t.exprs.capacity) id ⟨t, q⟩ =
      .ok type ⟨t, q⟩ := by
    unfold inferNode
    rw [bind_of_ok (expr_plugged hplug q), hk]
    change inferVar env x e.span ⟨t, q⟩ = _
    rw [inferVar, hname]
    rfl
  exact inferWithin_node hplug hroom hnode

end Check

namespace Parse

variable {s : ParseState} {x y : Name} {type : TypeId} {types : TypeTable} {names : Interner}
  {name typeName : String} {bs : List Branch} {n k : Nat}

/-! ### Tokens -/

theorem expect_past {k : TokenKind} (h : (s.window.drop n).current.kind = k)
    (hnext : (s.window.drop (n + 1)).current.kind ≠ .error) :
    expect k (s.past n) = .ok (s.window.drop n).current (s.past (n + 1)) := by
  rw [← ParseState.advanced_past hnext]
  exact expect_eq h

theorem eat_past {k : TokenKind} (h : (s.window.drop n).current.kind = k)
    (hnext : (s.window.drop (n + 1)).current.kind ≠ .error) :
    eat k (s.past n) = .ok true (s.past (n + 1)) := by
  rw [← ParseState.advanced_past hnext]
  exact eat_eq h

theorem advance_past (hnext : (s.window.drop (n + 1)).current.kind ≠ .error) :
    advance (s.past n) = .ok (s.window.drop n).current (s.past (n + 1)) := by
  rw [← ParseState.advanced_past hnext]
  exact advance_eq _

/-- A name that is read. -/
theorem expectName_past (hk : (s.window.drop n).current.kind = .ident)
    (hnext : (s.window.drop (n + 1)).current.kind ≠ .error)
    (htext : (s.window.drop n).current.lexeme s.window.source = name)
    (hi : s.names.intern name = .ok (x, names)) : expectName (s.past n) =
      .ok (x, (s.window.drop n).current.span) ({ s with names }.past (n + 1)) := by
  have hdrop : (s.window.drop n).drop 1 = s.window.drop (n + 1) := Window.drop_drop _ _ _
  have hrun := expectName_eq (s := s.past n) (x := x) hk
    (by change ((s.window.drop n).drop 1).current.kind ≠ .error; rwa [hdrop])
    (by
      change s.names.intern ((s.window.drop n).current.lexeme (s.window.drop n).source) = _
      rw [Window.source_drop, htext]
      exact hi)
  rw [hrun]
  refine congrArg (EStateM.Result.ok _) ?_
  change ({ s with window := (s.window.drop n).drop 1, names } : ParseState) = _
  rw [hdrop]
  rfl

theorem declaredName_eq (hspace : s.scope.namespace? = none) (x : Name) :
    declaredName x s = .ok x s := by
  unfold declaredName
  rw [bind_of_ok (get_eq s), hspace]
  rfl

/-! ### Structs -/

theorem fields_close (h : s.window.current.kind = .closeBrace) (hs : s.Sound) (done : List Field) :
    production (.fields done) s = .ok done s := by
  rw [production_eq_step _ hs]
  change fields production done s = _
  unfold fields
  rw [bind_of_ok (currentIs_eq h)]
  rfl

theorem type_int (h : s.window.current.kind = .kwInt)
    (hnext : (s.window.drop 1).current.kind ≠ .error) (hs : s.Sound) :
    production .type s = .ok .integer (s.past 1) := by
  rw [production_eq_step _ hs]
  change Parse.typeName production s = _
  unfold Parse.typeName
  rw [bind_of_ok (current_eq s), h]
  exact bind_of_ok (advance_past (n := 0) hnext)

/-- The only field of a struct. -/
theorem fields_one (h : s.window.AtField name) (hs : s.Sound)
    (hi : s.names.intern name = .ok (x, names)) : production (.fields []) s =
      .ok [⟨x, .integer⟩] ({ s with names }.past 4) := by
  let t : ParseState := { s with names }
  obtain ⟨hn, -, hg⟩ := hs.names.intern hi
  have ht : t.Sound := (hs.onto_names hn hg 0).sound
  have hcolon : (t.window.drop 1).current.kind ≠ .error := ne_of_eq_of_ne h.colon (by decide)
  have htype : (t.window.drop 2).current.kind ≠ .error := ne_of_eq_of_ne h.type (by decide)
  have hsemi : (t.window.drop 3).current.kind ≠ .error := ne_of_eq_of_ne h.semicolon (by decide)
  have hlast : (t.window.drop 4).current.kind ≠ .error := ne_of_eq_of_ne h.next (by decide)
  have hname : expectName s = .ok (x, s.window.current.span) (t.past 1) :=
    expectName_past (n := 0) h.ident hcolon h.text hi
  have hint : production .type (t.past 2) = .ok .integer (t.past 3) :=
    type_int (s := t.past 2) h.type hsemi (ht.past htype)
  have hend : atEnd s = .ok false s := by
    refine congrArg (EStateM.Result.ok · s) ?_
    rw [Window.atEnd, Window.currentIs, h.ident]
    rfl
  have hrest : production (.fields [⟨x, .integer⟩]) (t.past 4) =
      .ok [⟨x, .integer⟩] (t.past 4) := fields_close h.next (ht.past hlast) _
  rw [production_eq_step _ hs]
  change fields production [] s = _
  unfold fields
  refine (bind_of_ok (currentIs_ne (ne_of_eq_of_ne h.ident (by decide)))).trans ?_
  refine (bind_of_ok hend).trans ((bind_of_ok hname).trans ?_)
  refine (bind_of_ok (expect_past (s := t) (n := 1) h.colon htype)).trans ?_
  refine (bind_of_ok hint).trans ?_
  exact (bind_of_ok (expect_past (s := t) (n := 3) h.semicolon hlast)).trans hrest

theorem declareType_eq {add : TypeTable → Name → Except StorageError (TypeId × TypeTable)}
    (hspace : s.scope.namespace? = none) (ha : add s.types x = .ok (type, types)) :
    declareType x add s = .ok (x, type) (s.withType x type types) := by
  have hkey : key x s = .ok ⟨x, s.scope.depth⟩ s := rfl
  unfold declareType
  rw [bind_of_ok (declaredName_eq hspace x), bind_of_ok (get_eq s), ha]
  refine (bind_of_ok (a := (type, types)) (u := s) rfl).trans ?_
  exact bind_of_ok hkey

/-- A struct whose fields are read. -/
theorem stmt_struct {fields : List Field} {names' : Interner} (h : s.window.AtStruct name k)
    (hs : s.Sound) (hspace : s.scope.namespace? = none) (hh : s.tree.Holds bs)
    (hroom : s.tree.Roomy (n + 1)) (hi : s.names.intern name = .ok (x, names))
    (hfields : production (.fields [])
        ({ s with names, reports := s.reports.beginStatement }.past 3) =
      .ok fields ({ s with names := names', reports := s.reports.beginStatement }.past k))
    (ha : s.types.addStruct x fields = .ok (type, types)) :
    ∃ id tree b, production .stmt s = .ok id ({ s with
        names := names', tree, reports := s.reports.beginStatement }.past (k + 1)
          |>.withType x type types) ∧ tree.Holds (b :: bs) ∧ tree.Roomy n := by
  let r : ParseState := { s with reports := s.reports.beginStatement }
  let t : ParseState := { r with names := names' }
  have hbegin : beginStatement s = .ok ⟨⟩ r := rfl
  have hkind : r.window.current.kind = .kwStruct := h.struct
  have hname : expectName (r.past 1) = .ok (x, (s.window.drop 1).current.span)
      ({ r with names }.past 2) :=
    expectName_past (n := 1) h.ident (ne_of_eq_of_ne h.brace (by decide)) h.text hi
  have hopen : expect .openBrace ({ r with names }.past 2) = .ok (s.window.drop 2).current
      ({ r with names }.past 3) := expect_past (s := { r with names }) (n := 2) h.brace h.body
  have hsemi : eat .semicolon (t.past (k + 1)) = .ok false (t.past (k + 1)) :=
    eat_ne (ne_of_eq_of_ne h.next (by decide))
  have hclose : closeType s.window.current.span (t.past k) =
      .ok (s.window.current.span.merge (s.window.drop (k + 1)).previous) (t.past (k + 1)) := by
    unfold closeType
    rw [bind_of_ok (expect_past (s := t) h.close (ne_of_eq_of_ne h.next (by decide))),
      bind_of_ok hsemi, spanFrom_eq]
    rfl
  obtain ⟨id, tree, hadd, hheld, hroom⟩ := addStmt_of_roomy
    (s := (t.past (k + 1)).withType x type types) (.structDecl x type)
    (s.window.current.span.merge (s.window.drop (k + 1)).previous) [] hh hroom trivial rfl
  refine ⟨id, tree, _, ?_, hheld, hroom⟩
  rw [production_eq_step .stmt hs]
  change statement production s = _
  unfold statement
  rw [bind_of_ok hbegin, bind_of_ok (current_eq r), hkind]
  change structDecl production r = _
  unfold structDecl
  refine (bind_of_ok (advance_past (s := r) (n := 0) (ne_of_eq_of_ne h.ident (by decide)))).trans ?_
  refine (bind_of_ok hname).trans ((bind_of_ok hopen).trans ((bind_of_ok hfields).trans ?_))
  refine (bind_of_ok hclose).trans ?_
  exact (bind_of_ok (declareType_eq (s := t.past (k + 1)) hspace ha)).trans hadd

/-! ### Variables -/

theorem resolveType_of_get? (h : s.symbols.types.get? ⟨x, s.scope.depth⟩ = some type) :
    s.env.resolveType x = some type := by
  have hdepths : s.scope.depths = s.scope.depth :: (List.range s.scope.depth).reverse := by
    rw [Scope.depths, List.range_succ, List.reverse_append]
    rfl
  change (s.env.keys x).findSome? s.symbols.types.get? = _
  unfold Env.keys Env.candidates
  rw [show s.env.scope.depths = _ from hdepths, List.flatMap_cons, List.map_cons,
    List.cons_append, List.findSome?_cons, h]

/-- The name of a struct, where a type is wanted. -/
theorem type_named (hk : s.window.current.kind = .ident)
    (hnext : (s.window.drop 1).current.kind ≠ .error)
    (htext : s.window.current.lexeme s.window.source = typeName) (hs : s.Sound)
    (hy : s.names.get? typeName = some y)
    (htype : s.symbols.types.get? ⟨y, s.scope.depth⟩ = some type) :
    production .type s = .ok type (s.past 1) := by
  have hname : expectName s = .ok (y, s.window.current.span) (s.past 1) :=
    expectName_past (n := 0) hk hnext htext (Interner.intern_of_get? hy)
  have hres : (s.past 1).env.resolveType y = some type := resolveType_of_get? htype
  have hnamed : namedType s = .ok type (s.past 1) := by
    unfold namedType
    rw [bind_of_ok hname]
    refine (bind_of_ok (get_eq _)).trans ?_
    rw [hres]
    rfl
  rw [production_eq_step _ hs]
  change Parse.typeName production s = _
  unfold Parse.typeName
  rw [bind_of_ok (current_eq s), hk]
  exact hnamed

/-- A name and its type come before the rest of a declaration. -/
theorem stmt_declaration (h : s.window.AtVariable name typeName)
    (hnext : (s.window.drop 3).current.kind ≠ .error) (hs : s.Sound)
    (hi : s.names.intern name = .ok (x, names)) (hy : names.get? typeName = some y)
    (htype : s.symbols.types.get? ⟨y, s.scope.depth⟩ = some type) :
    production .stmt s = (do
      if ← eat .equal then
        if ← currentIs .kwFunc then functionDecl production x (some type) s.window.current.span
        else
          let init ← production .value
          variableDecl x (some type) (some init) false s.window.current.span
      else variableDecl x (some type) none false s.window.current.span)
        ({ s with names, reports := s.reports.beginStatement }.past 3) := by
  let r : ParseState := { s with reports := s.reports.beginStatement }
  let t : ParseState := { r with names }
  obtain ⟨hn, -, hg⟩ := hs.names.intern hi
  have hr : r.Sound :=
    (hs.onto_beginStatement 0).sound
  have ht : t.Sound := (hr.onto_names hn hg 0).sound
  have htypeName : (t.window.drop 2).current.kind ≠ .error := ne_of_eq_of_ne h.type (by decide)
  have hname : expectName r = .ok (x, s.window.current.span) (t.past 1) :=
    expectName_past (s := r) (n := 0) h.ident (ne_of_eq_of_ne h.colon (by decide)) h.text hi
  have hequal : currentIs .equal (t.past 2) = .ok false (t.past 2) :=
    currentIs_ne (ne_of_eq_of_ne h.type (by decide))
  have htext : (s.window.drop 2).current.lexeme (s.window.drop 2).source = typeName := by
    rw [Window.source_drop]
    exact h.typeText
  have hread : production .type (t.past 2) = .ok type (t.past 3) :=
    type_named (s := t.past 2) h.type hnext htext (ht.past htypeName) hy htype
  have hdeclared : (some <$> production .type) (t.past 2) = .ok (some type) (t.past 3) :=
    bind_of_ok hread
  have hbegin : beginStatement s = .ok ⟨⟩ r := rfl
  have hkind : r.window.current.kind = .ident := h.ident
  have hcolon : nextIs .colon r = .ok true r := by
    refine congrArg (EStateM.Result.ok · r) ?_
    exact beq_iff_eq.2 h.colon
  rw [production_eq_step .stmt hs]
  change statement production s = _
  unfold statement
  rw [bind_of_ok hbegin, bind_of_ok (current_eq r), hkind]
  refine (bind_of_ok hcolon).trans ?_
  change declaration production false s.window.current.span r = _
  unfold declaration
  refine (bind_of_ok hname).trans ?_
  refine (bind_of_ok (expect_past (s := t) (n := 1) h.colon htypeName)).trans ?_
  refine (bind_of_ok hequal).trans ?_
  exact bind_of_ok hdeclared

/-- The end of a declaration, whose value was not folded. -/
theorem variableDecl_end (x : Name) (type : TypeId) (init : Option ExprId) (parts : List Branch)
    (start : Span) (hspace : s.scope.namespace? = none)
    (hsemi : (s.window.drop k).current.kind = .semicolon)
    (hnext : (s.window.drop (k + 1)).current.kind ≠ .error) (hh : s.tree.Holds (parts ++ bs))
    (hch : ∀ t : Tree, t.stmtChildren (.varDecl x type init false) =
      (parts.map Branch.root).reverse) (hroom : s.tree.Roomy (n + 1)) :
    ∃ id tree span, (do
        let _ ← expect .semicolon
        let span ← spanFrom start
        let stored ← declaredName x
        declareVariable stored type false none
        addStmt (.varDecl stored type init false) span) (s.past k) =
        .ok id ({ s with tree }.past (k + 1) |>.withVariable x type) ∧
      tree.Holds (⟨.stmt id, .stmt ⟨.varDecl x type init false, span⟩, parts⟩ :: bs) ∧
      tree.Roomy n := by
  have hdeclare : declareVariable x type false none (s.past (k + 1)) =
      .ok () ((s.past (k + 1)).withVariable x type) := rfl
  obtain ⟨id, tree, hadd, hheld, hroom⟩ := addStmt_of_roomy
    (s := (s.past (k + 1)).withVariable x type) (.varDecl x type init false)
    (start.merge (s.window.drop (k + 1)).previous) parts hh hroom trivial
    (by simp [Tree.children, hch])
  refine ⟨id, tree, _, ?_, hheld, hroom⟩
  rw [bind_of_ok (expect_past hsemi hnext), bind_of_ok (spanFrom_eq _ _),
    bind_of_ok (declaredName_eq (s := s.past (k + 1)) hspace x), bind_of_ok hdeclare]
  exact hadd

/-- A variable with a type and no value. -/
theorem stmt_bare (h : s.window.AtVariable name typeName)
    (hsemi : (s.window.drop 3).current.kind = .semicolon)
    (hnext : (s.window.drop 4).current.kind ≠ .error) (hs : s.Sound)
    (hspace : s.scope.namespace? = none) (hh : s.tree.Holds bs) (hroom : s.tree.Roomy (n + 1))
    (hi : s.names.intern name = .ok (x, names)) (hy : names.get? typeName = some y)
    (htype : s.symbols.types.get? ⟨y, s.scope.depth⟩ = some type) :
    ∃ id tree b, production .stmt s = .ok id ({ s with
        names, tree, reports := s.reports.beginStatement }.past 4 |>.withVariable x type) ∧
      tree.Holds (b :: bs) ∧ tree.Roomy n := by
  let t : ParseState := { s with names, reports := s.reports.beginStatement }
  have hequal : eat .equal (t.past 3) = .ok false (t.past 3) :=
    eat_ne (ne_of_eq_of_ne hsemi (by decide))
  obtain ⟨id, tree, span, hend, hheld, hroom⟩ := variableDecl_end (s := t) (k := 3) x type none []
    s.window.current.span hspace hsemi hnext hh (fun _ => rfl) hroom
  refine ⟨id, tree, _, ?_, hheld, hroom⟩
  rw [stmt_declaration h (ne_of_eq_of_ne hsemi (by decide)) hs hi hy htype]
  exact (bind_of_ok hequal).trans hend

/-- The name of a variable, where a value is wanted. -/
theorem production_name (h : s.window.AtName name) (hd : Declares s name x type false)
    (hs : s.Sound) (hh : s.tree.Holds bs) (hroom : s.tree.Roomy (n + 1)) :
    ∃ i e tree, production .value s = .ok i { s.past 1 with tree } ∧
      tree.Holds (⟨.expr i, .expr e, []⟩ :: bs) ∧ e.kind = .var x ∧ e.isConstant = false ∧
      tree.Roomy n := by
  have hnext : (s.window.drop 1).current.kind ≠ .error := ne_of_eq_of_ne h.semicolon (by decide)
  obtain ⟨i, e, tree, hname, hheld, hk, -, hconst, -, hroom⟩ :=
    nameExpr_declared h.ident h.text hnext hd hh hroom
  refine ⟨i, e, tree, ?_, hheld, hk, hconst, hroom⟩
  have hread : ParseState.Sound { s.past 1 with tree } := (hs.past hnext).withTree hheld.sound
  rw [production_eq_step _ hs]
  change (unary production >>= fun left => production (.infixes left .assign true)) s = _
  rw [bind_of_ok ((primary_name h.ident).trans hname), production_eq_step _ hread]
  refine infixes_stop (.inl ?_)
  change Level.of (s.window.drop 1).current.kind = .none
  rw [h.semicolon]
  rfl

/-- A variable with a type and a name of an equal type as its value. -/
theorem stmt_initialized {z : Name} {source : TypeId} {value : String}
    (h : s.window.AtVariable name typeName)
    (hequal : (s.window.drop 3).current.kind = .equal)
    (hvalue : (s.window.drop 4).AtName value) (hs : s.Sound)
    (hspace : s.scope.namespace? = none) (hh : s.tree.Holds bs) (hroom : s.tree.Roomy (n + 2))
    (hi : s.names.intern name = .ok (x, names)) (hy : names.get? typeName = some y)
    (htype : s.symbols.types.get? ⟨y, s.scope.depth⟩ = some type)
    (hd : Declares { s with names } value z source false) (hvalid : type ≠ .invalid)
    (hfits : s.types.compatible source type = .ok true) :
    ∃ id i e tree span, production .stmt s = .ok id ({ s with
        names, tree, reports := s.reports.beginStatement }.past 6 |>.withVariable x type) ∧
      tree.Holds (⟨.stmt id, .stmt ⟨.varDecl x type (some i) false, span⟩,
        [⟨.expr i, .expr e, []⟩]⟩ :: bs) ∧ e.type = source ∧ tree.Roomy n := by
  let t : ParseState := { s with names, reports := s.reports.beginStatement }
  obtain ⟨hn, -, hg⟩ := hs.names.intern hi
  have hfirst : (s.window.drop 4).current.kind ≠ .error := ne_of_eq_of_ne hvalue.ident (by decide)
  have hr : ParseState.Sound { s with reports := s.reports.beginStatement } :=
    (hs.onto_beginStatement 0).sound
  have ht : (t.past 4).Sound := (hr.onto_names hn hg 0).sound.past hfirst
  have hdeclares : Declares (t.past 4) value z source false := ⟨hd.1, hd.2, hd.3⟩
  obtain ⟨i, e, tree, hread, hh, hk, hconst, hroom⟩ :=
    production_name (s := t.past 4) hvalue hdeclares ht hh hroom
  obtain ⟨tree', hinfer, hh, hroom⟩ :=
    Check.infer_var hh hk hdeclares.resolveVar hroom t.reports
  have hchecked : Check.checkInitializer (t.past 4).env x type i ⟨tree, t.reports⟩ =
      .ok type ⟨tree', t.reports⟩ := by
    have hfits : (t.past 4).env.types.compatible source type = .ok true := hfits
    unfold Check.checkInitializer
    rw [bind_of_ok hinfer, if_neg hvalid, hfits]
    rfl
  have hvariable : variableType x type (some i) false s.window.current.span
      { t.past 5 with tree } = .ok type { t.past 5 with tree := tree' } :=
    check_eq (s := { t.past 5 with tree }) (t := ⟨tree', t.reports⟩)
      (p := fun env => Check.checkInitializer env x type i) hchecked
  have hfold : fold i { t.past 5 with tree := tree' } = .ok none { t.past 5 with tree := tree' } :=
    fold_leaf (s := { t.past 5 with tree := tree' }) hh (.inr ⟨z, hk⟩) hconst
  have hsemi : (s.window.drop 5).current.kind = .semicolon := hvalue.semicolon
  obtain ⟨id, last, span, hend, hheld, hroom⟩ := variableDecl_end (s := { t with tree := tree' })
    (k := 5) x type (some i) [_] s.window.current.span hspace hsemi hvalue.next hh (fun _ => rfl)
    hroom
  refine ⟨id, i, _, last, span, ?_, hheld, rfl, hroom⟩
  rw [stmt_declaration h (ne_of_eq_of_ne hequal (by decide)) hs hi hy htype]
  refine (bind_of_ok (eat_past (s := t) (n := 3) hequal hfirst)).trans ?_
  have hfunc : currentIs .kwFunc (t.past 4) = .ok false (t.past 4) :=
    currentIs_ne (ne_of_eq_of_ne hvalue.ident (by decide))
  refine (bind_of_ok hfunc).trans ((bind_of_ok hread).trans ?_)
  unfold variableDecl
  exact (bind_of_ok hvariable).trans ((bind_of_ok hfold).trans hend)

/-! ### From statement to statement -/

/-- Between two statements outside of namespaces, after no report, with room for so many nodes and
types and for so many bytes of names. -/
structure Ready (s : ParseState) (n m : Nat) : Prop where
  sound : s.Sound
  space : s.scope.namespace? = none
  quiet : s.reports.reports = #[]
  going : s.reports.truncated = false
  held : ∃ bs, s.tree.Holds bs
  tree : s.tree.Roomy n
  names : s.names.Roomy m
  types : s.types.types.Roomy n
  invalid : s.types.kind .invalid = .ok (.basic .invalid)

/-- A struct was declared, and nothing else but names and a node. -/
structure AddsStruct (s t : ParseState) (k : Nat) (x : Name) (fields : List Field)
    (type : TypeId) : Prop where
  window : t.window = s.window.drop k
  scope : t.scope = s.scope
  vars : t.symbols.vars = s.symbols.vars
  folder : t.folder = s.folder
  grows : s.types.Grows t.types
  desc : t.types.desc type = .ok ⟨.struct x fields, x⟩
  type : t.symbols.types.get? ⟨x, t.scope.depth⟩ = some type

/-- A variable without a value was declared, and nothing else but names and a node. -/
structure AddsVariable (s t : ParseState) (k : Nat) (name : String) (x : Name) (type : TypeId) :
    Prop where
  window : t.window = s.window.drop k
  types : t.types = s.types
  declares : Declares t name x type false

theorem AddsStruct.stays {t : ParseState} {fields : List Field} {value : String} {z : Name}
    {source : TypeId} {folded : Bool} (h : AddsStruct s t k x fields type)
    (hnames : t.names = s.names) (hd : Declares s value z source folded) :
    Declares t value z source folded := by
  refine ⟨hnames ▸ hd.name, ?_, ?_⟩
  · rw [h.vars, h.scope]
    exact hd.type
  · rw [h.folder, h.scope]
    exact hd.folded

theorem Ready.struct {m m' : Nat} {fields : List Field} {names' : Interner}
    (h : Ready s (n + 1) m) (hw : s.window.AtStruct name k)
    (hi : s.names.intern name = .ok (x, names))
    (hfields : production (.fields [])
        ({ s with names, reports := s.reports.beginStatement }.past 3) =
      .ok fields ({ s with names := names', reports := s.reports.beginStatement }.past k))
    (hm : names'.Roomy m') : ∃ id type t, production .stmt s = .ok id t ∧ Ready t n m' ∧
      t.names = names' ∧ AddsStruct s t (k + 1) x fields type := by
  obtain ⟨bs, hh⟩ := h.held
  obtain ⟨type, types, ha, hroom⟩ := TypeTable.exists_add h.types (.struct x fields) x
  obtain ⟨-, hdesc, hgrows, -⟩ := h.sound.types.add ha
  obtain ⟨id, tree, b, hrun, hheld, htree⟩ :=
    stmt_struct hw h.sound h.space hh h.tree hi hfields ha
  have hsound := ((steady_production .stmt).ok hrun h.sound).sound
  exact ⟨id, type, _, hrun, ⟨hsound, h.space, h.quiet, h.going, ⟨_, hheld⟩, htree, hm, hroom,
    hgrows.kind_eq h.invalid⟩, rfl, rfl, rfl, rfl, rfl, hgrows, hdesc,
    (h.sound.symbols.types.get?_insert _ _ _).trans (if_pos rfl)⟩

/-- A struct without fields that has a name already. -/
theorem Ready.struct_nil {m : Nat} (h : Ready s (n + 1) m) (hw : s.window.AtStruct name 3)
    (hx : s.names.get? name = some x) : ∃ id type t, production .stmt s = .ok id t ∧
      Ready t n m ∧ t.names = s.names ∧ AddsStruct s t 4 x [] type := by
  let r : ParseState := { s with reports := s.reports.beginStatement }
  have hr : r.Sound := (h.sound.onto_beginStatement 0).sound
  exact h.struct hw (Interner.intern_of_get? hx)
    (fields_close (s := r.past 3) hw.close (hr.past hw.body) []) h.names

/-- A struct with one field, whose names need room. -/
theorem Ready.struct_one {m : Nat} {field : String}
    (h : Ready s (n + 1) (name.utf8ByteSize + (field.utf8ByteSize + m)))
    (hw : s.window.AtStruct name 7) (hf : (s.window.drop 3).AtField field) :
    ∃ id x y type t, production .stmt s = .ok id t ∧ Ready t n m ∧ t.names.get? name = some x ∧
      AddsStruct s t 8 x [⟨y, .integer⟩] type := by
  obtain ⟨x, names, hi, hroom⟩ := h.names.intern
  obtain ⟨hn, -, hg⟩ := h.sound.names.intern hi
  obtain ⟨y, names', hi', hm⟩ := hroom.intern
  let t : ParseState := { s with names, reports := s.reports.beginStatement }
  have ht : t.Sound := ((h.sound.onto_beginStatement 0).sound.onto_names hn hg 0).sound
  have hfields := fields_one (s := t.past 3) hf (ht.past hw.body) hi'
  obtain ⟨id, type, u, hrun, hready, hnames, hadds⟩ := h.struct hw hi hfields hm
  refine ⟨id, x, y, type, u, hrun, hready, ?_, hadds⟩
  rw [hnames]
  exact hn.get?_stays hi' (h.sound.names.get?_intern hi)

/-- A variable of a struct type whose name needs room. -/
theorem Ready.bare {m : Nat} (h : Ready s (n + 1) (name.utf8ByteSize + m))
    (hw : s.window.AtVariable name typeName)
    (hsemi : (s.window.drop 3).current.kind = .semicolon)
    (hnext : (s.window.drop 4).current.kind ≠ .error) (hy : s.names.get? typeName = some y)
    (htype : s.symbols.types.get? ⟨y, s.scope.depth⟩ = some type) :
    ∃ id x t, production .stmt s = .ok id t ∧ Ready t n m ∧ t.names.get? typeName = some y ∧
      AddsVariable s t 4 name x type := by
  obtain ⟨bs, hh⟩ := h.held
  obtain ⟨x, names, hi, hroom⟩ := h.names.intern
  have hy' := h.sound.names.get?_stays hi hy
  obtain ⟨id, tree, b, hrun, hheld, htree⟩ :=
    stmt_bare hw hsemi hnext h.sound h.space hh h.tree hi hy' htype
  have hsound := ((steady_production .stmt).ok hrun h.sound).sound
  refine ⟨id, x, _, hrun, ⟨hsound, h.space, h.quiet, h.going, ⟨_, hheld⟩, htree, hroom,
    h.types.mono (Nat.le_succ n), h.invalid⟩, hy', rfl, rfl, h.sound.names.get?_intern hi,
    (h.sound.symbols.vars.get?_insert _ _ _).trans (if_pos rfl), ?_⟩
  change ((s.folder.unbind ⟨x, s.scope.depth⟩).bindingAt ⟨x, s.scope.depth⟩).isSome = false
  simp [Folder.bindingAt_unbind]

/-- A variable of a struct type with the name of another one as its value. -/
theorem Ready.initialized {m : Nat} {z : Name} {source : TypeId} {value : String}
    (h : Ready s (n + 2) (name.utf8ByteSize + m)) (hw : s.window.AtVariable name typeName)
    (hequal : (s.window.drop 3).current.kind = .equal)
    (hvalue : (s.window.drop 4).AtName value) (hy : s.names.get? typeName = some y)
    (htype : s.symbols.types.get? ⟨y, s.scope.depth⟩ = some type)
    (hd : Declares s value z source false) (hvalid : type ≠ .invalid)
    (hfits : s.types.compatible source type = .ok true) :
    ∃ id i e x span bs t, production .stmt s = .ok id t ∧ Ready t n m ∧
      t.window = s.window.drop 6 ∧ t.types = s.types ∧ e.type = source ∧
      t.tree.Holds (⟨.stmt id, .stmt ⟨.varDecl x type (some i) false, span⟩,
        [⟨.expr i, .expr e, []⟩]⟩ :: bs) := by
  obtain ⟨bs, hh⟩ := h.held
  obtain ⟨x, names, hi, hroom⟩ := h.names.intern
  have hd' : Declares { s with names } value z source false :=
    ⟨h.sound.names.get?_stays hi hd.name, hd.type, hd.folded⟩
  obtain ⟨id, i, e, tree, span, hrun, hheld, he, htree⟩ := stmt_initialized hw hequal hvalue h.sound
    h.space hh h.tree hi (h.sound.names.get?_stays hi hy) htype hd' hvalid hfits
  have hsound := ((steady_production .stmt).ok hrun h.sound).sound
  exact ⟨id, i, e, x, span, bs, _, hrun, ⟨hsound, h.space, h.quiet, h.going, ⟨_, hheld⟩, htree,
    hroom, h.types.mono (by omega), h.invalid⟩, rfl, rfl, he, hheld⟩

end Parse

end FrontEnd
