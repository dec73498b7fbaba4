import FrontEnd.Proofs.Pair.ProductionRuns

/-! Two runs of reading one text: statements, declarations and whole programs. -/

namespace FrontEnd

open Tie

namespace Parse

variable {D : Prop} {n : Nat} {parse : Productions}

theorem steps_closeStmt (start : Span) : (tie D n).Steps (closeStmt start) :=
  (steps_expect .semicolon).bind fun _ => steps_spanFrom start

section

variable (h : ∀ q, (tie D n).Steps (parse q))

include h

/-! ### Statements -/

theorem steps_exprStmt : (tie D n).Steps (exprStmt parse) := by
  refine (h (.expr .assign false)).bind fun id => ?_
  refine (steps_check (fun env => Check.steps_infer id) fun _ _ hvw => by
    rw [hvw.infer_eq]).bind fun _ => ?_
  refine (steps_fold id).bind fun _ => (steps_expect .semicolon).bind fun _ => ?_
  exact (steps_expr id).bind fun _ => (steps_spanFrom _).bind fun _ => steps_addStmt ..

omit h in
theorem steps_returnEnd (start : Span) (value : Option ExprId) :
    (tie D n).Steps (returnEnd start value) := by
  refine lockstep_look (fun _ => ?_) fun _ _ hst => by rw [hst.returns]
  refine (steps_spanFrom _).bind fun _ => ?_
  refine (steps_check (fun env => Check.steps_checkReturn ..) fun _ _ hvw => by
    rw [hvw.checkReturn_eq]).bind fun _ => ?_
  cases value with
  | none => exact (steps_closeStmt start).bind fun _ => steps_addStmt ..
  | some id =>
    refine (steps_fold id).bind fun _ => ?_
    exact (steps_closeStmt start).bind fun _ => steps_addStmt ..

theorem steps_returnStmt : (tie D n).Steps (returnStmt parse) := by
  refine steps_advance.bind fun token => (steps_currentIs .semicolon).bind fun none => ?_
  cases none with
  | true => exact (steps_pure _).bind (steps_returnEnd _)
  | false => exact (h .value).map.bind (steps_returnEnd _)

theorem steps_printStmt : (tie D n).Steps (printStmt parse) := by
  refine steps_advance.bind fun _ => (h .value).bind fun value => ?_
  refine (steps_check (fun env => Check.steps_checkPrint value) fun _ _ hvw => by
    rw [hvw.checkPrint_eq]).bind fun _ => (steps_fold value).bind fun _ => ?_
  exact (steps_closeStmt _).bind fun _ => steps_addStmt ..

theorem steps_condition : (tie D n).Steps (condition parse) := by
  refine (h .value).bind fun cond => ?_
  refine (steps_check (fun env => Check.steps_checkCondition cond) fun _ _ hvw => by
    rw [hvw.checkCondition_eq]).bind fun _ => ?_
  exact (steps_fold cond).bind fun _ => steps_pure _

theorem steps_ifStmt : (tie D n).Steps (ifStmt parse) := by
  refine steps_advance.bind fun token => (steps_condition h).bind fun cond => ?_
  refine (h .stmt).bind fun thenBranch => (steps_eat .kwElse).bind fun other => ?_
  cases other with
  | true =>
    refine (h .stmt).map.bind fun _ => ?_
    exact (steps_spanFrom _).bind fun _ => steps_addStmt ..
  | false =>
    exact (steps_pure _).bind fun _ => (steps_spanFrom _).bind fun _ => steps_addStmt ..

theorem steps_whileStmt : (tie D n).Steps (whileStmt parse) := by
  refine steps_advance.bind fun token => (steps_condition h).bind fun cond => ?_
  exact (h .stmt).bind fun _ => (steps_spanFrom _).bind fun _ => steps_addStmt ..

theorem steps_doStmt : (tie D n).Steps (doStmt parse) := by
  refine steps_advance.bind fun token => (h .stmt).bind fun body => ?_
  refine steps_beginStatement.bind fun _ => (steps_expect .kwWhile).bind fun _ => ?_
  refine (steps_condition h).bind fun cond => ?_
  exact (steps_closeStmt _).bind fun _ => steps_addStmt ..

/-! ### Declarations -/

theorem steps_bodyEnd (stored mangled : Name) (type : TypeId) (start : Span) :
    (tie D n).Steps (bodyEnd parse stored mangled type start) :=
  (steps_functionBody h type).bind fun _ => (steps_spanFrom _).bind fun _ => steps_addStmt ..

theorem steps_functionEnd (name : Name) (type : TypeId) (start : Span) :
    (tie D n).Steps (functionEnd parse name type start) := by
  refine (steps_declaredName name).bind fun stored => ?_
  refine lockstep_look (fun _ => ?_) fun _ _ hst => by
    rw [TypeTable.function?_eq hst.types.desc_eq]
  refine (steps_ofFault _).bind fun signature => ?_
  cases signature with
  | some signature => exact (steps_declareFunction ..).bind fun _ => steps_bodyEnd h ..
  | none => exact (steps_pure _).bind fun _ => steps_bodyEnd h ..

theorem steps_functionDecl (name : Name) (declared : Option TypeId) (start : Span) :
    (tie D n).Steps (functionDecl parse name declared start) := by
  refine steps_advance.bind fun func => (steps_signature h).bind fun type => ?_
  refine (steps_spanFrom _).bind fun span => ?_
  dsimp only
  split
  · refine lockstep_look (fun _ => ?_) fun _ _ hst => by
      rw [TypeTable.equal_eq hst.types.desc_eq]
    refine (steps_ofFault _).bind fun same => ?_
    cases same with
    | true => exact steps_functionEnd h ..
    | false =>
      refine (steps_quote name).bind fun _ => (steps_quoteType _).bind fun _ => ?_
      refine (steps_quoteType _).bind fun _ => (steps_report (by decide) ..).bind fun _ => ?_
      exact steps_functionEnd h ..
  · exact steps_functionEnd h ..

omit h in
theorem steps_nativeEnd (name : Name) (type : TypeId) (signature : Option Signature)
    (start : Span) : (tie D n).Steps (nativeEnd name type signature start) := by
  refine (steps_expect .semicolon).bind fun _ => (steps_spanFrom start).bind fun _ => ?_
  cases signature with
  | none => exact steps_addStmt ..
  | some signature =>
    refine (steps_declaredName name).bind fun stored => ?_
    exact (steps_declareFunction ..).bind fun _ => steps_addStmt ..

theorem steps_native : (tie D n).Steps (native parse) := by
  refine steps_advance.bind fun token => steps_expectName.bind fun name => ?_
  refine (steps_expect .colon).bind fun _ => steps_currentSpan.bind fun _ => ?_
  refine (h .type).bind fun type => (steps_spanFrom _).bind fun _ => ?_
  refine lockstep_look (fun _ => ?_) fun _ _ hst => by
    rw [TypeTable.function?_eq hst.types.desc_eq]
  refine (steps_ofFault _).bind fun signature => ?_
  dsimp only
  split
  · refine (steps_quote _).bind fun _ => (steps_quoteType _).bind fun _ => ?_
    exact (steps_report (by decide) ..).bind fun _ => steps_nativeEnd ..
  · exact steps_nativeEnd ..

omit h in
theorem steps_variableType (name : Name) (declared : TypeId) (init : Option ExprId)
    (isConst : Bool) (start : Span) :
    (tie D n).Steps (variableType name declared init isConst start) := by
  unfold variableType
  cases init with
  | some init =>
    exact steps_check (fun env => Check.steps_checkInitializer ..) fun _ _ hvw => by
      rw [hvw.checkInitializer_eq]
  | none =>
    cases isConst with
    | true =>
      refine (steps_spanFrom start).bind fun _ => (steps_quote name).bind fun _ => ?_
      exact (steps_report (by decide) ..).bind fun _ => steps_pure _
    | false => exact steps_pure _

omit h in
theorem steps_variableEnd (name : Name) (type : TypeId) (init : Option ExprId) (isConst : Bool)
    (value : Option Value) (start : Span) :
    (tie D n).Steps (variableEnd name type init isConst value start) := by
  refine (steps_expect .semicolon).bind fun _ => (steps_spanFrom start).bind fun _ => ?_
  refine (steps_declaredName name).bind fun stored => ?_
  exact (steps_declareVariable ..).bind fun _ => steps_addStmt ..

omit h in
theorem steps_variableDecl (name : Name) (declared : Option TypeId) (init : Option ExprId)
    (isConst : Bool) (start : Span) :
    (tie D n).Steps (variableDecl name declared init isConst start) := by
  refine (steps_variableType ..).bind fun type => ?_
  cases init with
  | some init => exact (steps_fold init).bind fun _ => steps_variableEnd ..
  | none => exact (steps_pure _).bind fun _ => steps_variableEnd ..

theorem steps_initializerEnd (name : Name) (declared : Option TypeId) (isConst : Bool)
    (start : Span) : (tie D n).Steps (initializerEnd parse name declared isConst start) := by
  refine (steps_currentIs .kwFunc).bind fun func => ?_
  cases func with
  | true => exact steps_functionDecl h ..
  | false => exact (h .value).bind fun _ => steps_variableDecl ..

theorem steps_declarationEnd (name : Name) (declared : Option TypeId) (isConst : Bool)
    (start : Span) : (tie D n).Steps (declarationEnd parse name declared isConst start) := by
  refine (steps_eat .equal).bind fun equal => ?_
  cases equal with
  | true => exact steps_initializerEnd h ..
  | false => exact steps_variableDecl ..

theorem steps_declaration (isConst : Bool) (start : Span) :
    (tie D n).Steps (declaration parse isConst start) := by
  refine steps_expectName.bind fun name => (steps_expect .colon).bind fun _ => ?_
  refine (steps_currentIs .equal).bind fun untyped => ?_
  cases untyped with
  | true => exact (steps_pure _).bind fun _ => steps_declarationEnd h ..
  | false => exact (h .type).map.bind fun _ => steps_declarationEnd h ..

theorem steps_constant : (tie D n).Steps (constant parse) := by
  refine lockstep_look (fun s => steps_advance.bind fun _ => ?_) fun _ _ hst => by rw [hst.window]
  dsimp only
  split
  · exact steps_declaration h ..
  · exact steps_unexpected _

theorem steps_fields (done : List Field) : (tie D n).Steps (fields parse done) := by
  refine (steps_currentIs .closeBrace).bind fun closed => ?_
  cases closed with
  | true => exact steps_pure _
  | false =>
    refine steps_atEnd.bind fun atEnd => ?_
    cases atEnd with
    | true => exact steps_pure _
    | false =>
      refine steps_expectName.bind fun name => (steps_expect .colon).bind fun _ => ?_
      refine (h .type).bind fun type => (steps_expect .semicolon).bind fun _ => ?_
      split
      · refine (steps_quote _).bind fun _ => (steps_report (by decide) ..).bind fun _ => ?_
        exact h (.fields done)
      · exact h (.fields _)

theorem steps_variants : (tie D n).Steps (variants parse) := by
  refine (steps_currentIs .closeBrace).bind fun closed => ?_
  cases closed with
  | true => exact steps_pure _
  | false =>
    refine steps_expectName.bind fun variant => (steps_eat .comma).bind fun more => ?_
    cases more with
    | true => exact (h .variants).bind fun _ => steps_pure _
    | false => exact steps_pure _

omit h in
theorem steps_closeType (start : Span) : (tie D n).Steps (closeType start) :=
  (steps_expect .closeBrace).bind fun _ => (steps_eat .semicolon).bind fun _ => steps_spanFrom _

theorem steps_typeDecl (members : Production) (kind : members.Result → Name → TypeKind)
    (form : Name → TypeId → StmtKind) : (tie D n).Steps (typeDecl parse members kind form) := by
  refine steps_advance.bind fun token => steps_expectName.bind fun name => ?_
  refine (steps_expect .openBrace).bind fun _ => (h members).bind fun read => ?_
  refine (steps_closeType _).bind fun _ => ?_
  have hadd (t u : TypeTable) (stored : Name) (htu : t.Matches D u) :=
    htu.add (kind read stored) stored
  exact (steps_declareType _ hadd).bind fun _ => steps_addStmt ..

theorem steps_namespaceDecl : (tie D n).Steps (namespaceDecl parse) := by
  refine steps_advance.bind fun token => steps_expectName.bind fun name => ?_
  refine (steps_declaredName _).bind fun qualified => (steps_expect .openBrace).bind fun _ => ?_
  have hbody := steps_inNamespace qualified (steps_bodyItems h)
  have hwhole := hbody.bind fun body => (steps_spanFrom token.span).bind fun span =>
    steps_addStmt (.namesp qualified body) span
  simpa only [bind_assoc] using hwhole

theorem steps_path (name : Name) : (tie D n).Steps (path parse name) := by
  refine (steps_eat .dot).bind fun dot => ?_
  cases dot with
  | true =>
    refine steps_expectName.bind fun segment => (steps_qualify ..).bind fun qualified => ?_
    exact h (.path qualified)
  | false => exact steps_pure _

theorem steps_usingDecl : (tie D n).Steps (usingDecl parse) := by
  refine steps_advance.bind fun token => steps_expectName.bind fun first => ?_
  refine (h (.path _)).bind fun path => (steps_expect .semicolon).bind fun _ => ?_
  refine (steps_spanFrom _).bind fun _ => (steps_usingTarget path).bind fun target => ?_
  exact (steps_pushUsing target).bind fun _ => steps_addStmt ..

theorem steps_statement : (tie D n).Steps (statement parse) := by
  refine steps_beginStatement.bind fun _ => steps_current.bind fun token => ?_
  split
  · exact steps_returnStmt h
  · exact steps_printStmt h
  · exact steps_ifStmt h
  · exact steps_whileStmt h
  · exact steps_doStmt h
  · exact steps_block h
  · exact structDecl_eq parse ▸ steps_typeDecl h ..
  · exact enumDecl_eq parse ▸ steps_typeDecl h ..
  · exact steps_namespaceDecl h
  · exact steps_usingDecl h
  · exact steps_native h
  · exact steps_constant h
  · exact steps_advance.bind fun _ => (steps_addStmtList []).bind fun _ => steps_addStmt ..
  · refine (steps_nextIs .colon).bind fun colon => ?_
    cases colon with
    | true => exact steps_currentSpan.bind fun _ => steps_declaration h ..
    | false => exact steps_exprStmt h
  · exact steps_exprStmt h

/-! ### Programs -/

omit h in
theorem steps_reportExhausted (cause : StorageError) :
    (tie D n).Steps (reportExhausted cause) :=
  steps_beginStatement.bind fun _ => steps_currentSpan.bind fun _ => steps_report (by decide) ..

omit h in
/-- A storage that ran out is told of at the end of the program, if that does not fault. -/
theorem leads_reportExhausted (cause : StorageError) (s : ParseState) :
    (tie D n).leads (some (.exhausted cause), s)
      (ending ((reportExhausted cause >>= fun _ => pure ([] : List StmtId)) s)) := by
  have hlater := (((steps_reportExhausted (D := D) (n := n) cause).bind fun _ =>
    steps_pure ([] : List StmtId)).left s).1
  refine ⟨hlater, fun hs => ?_⟩
  cases hs with
  | told hr hcode => exact .told (hlater.mem hr) hcode
  | refused hq =>
    rcases report_cases .exhausted s.window.current.span cause.message "while parsing this"
      { s with reports := s.reports.beginStatement } with ⟨f, hrun⟩ | ⟨r, hcode, hrun⟩
    · have hstop : reportExhausted cause s = .error (.fault f) _ := hrun
      rw [bind_of_error hstop]
      exact .fault
    · have hdone : reportExhausted cause s = .ok ⟨⟩ _ := hrun
      obtain ⟨told, htold, hsame⟩ := Queue.Endless.exists_code (q := s.reports.beginStatement)
        hq rfl r
      rw [bind_of_ok hdone]
      exact .told htold (hsame.trans hcode)

theorem steps_afterStmt (start : Span) (r : Except Stop StmtId) :
    (tie D n).Steps (afterStmt parse start r) := by
  cases r with
  | ok id => exact (h .program).bind fun _ => steps_pure _
  | error stop =>
    cases stop with
    | reported => exact (steps_synchronize start).bind fun _ => h .program
    | exhausted cause => exact (steps_reportExhausted cause).bind fun _ => steps_pure _
    | fault f => exact steps_throw _

theorem leads_afterStmt (start : Span) (e : Stop) (s : ParseState) :
    (tie D n).leads (some e, s) (ending (afterStmt parse start (.error e) s)) := by
  cases e with
  | reported => exact leads_synchronize h start .program s
  | exhausted cause => exact leads_reportExhausted cause s
  | fault f => exact Lawful.refl _

theorem steps_program : (tie D n).Steps (program parse) := by
  refine steps_atEnd.bind fun atEnd => ?_
  cases atEnd with
  | true => exact steps_pure _
  | false =>
    refine steps_truncated.bind fun truncated => ?_
    cases truncated with
    | true => exact steps_pure _
    | false =>
      exact steps_currentSpan.bind fun start =>
        steps_attempt (h .stmt) (steps_afterStmt h start) (leads_afterStmt h start)

theorem steps_step (q : Production) : (tie D n).Steps (step parse q) := by
  cases q with
  | expr least isValue => exact steps_expression h least isValue
  | infixes left least isValue => exact steps_infixes h left least isValue
  | args => exact steps_args h
  | type => exact steps_typeName h
  | params => exact steps_params h
  | stmt => exact steps_statement h
  | items => exact steps_items h
  | fields done => exact steps_fields h done
  | variants => exact steps_variants h
  | path name => exact steps_path h name
  | program => exact steps_program h

end

theorem steps_within (depth : Nat) (q : Production) : (tie D n).Steps (within depth q) := by
  induction depth generalizing q with
  | zero => exact steps_throw _
  | succ depth ih => exact steps_step ih q

/-- Two runs of one production that are in step stay so, or part for good. -/
theorem steps_production (q : Production) : (tie D n).Steps (production q) :=
  lockstep_look (fun _ => steps_within _ q) fun _ _ hst => by rw [hst.window]

end Parse

end FrontEnd
