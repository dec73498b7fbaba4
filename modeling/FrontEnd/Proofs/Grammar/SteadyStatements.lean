import FrontEnd.Compilation
import FrontEnd.Proofs.Grammar.SteadyProductions

/-! Statements, declarations and whole programs are steady, from the first state on. -/

namespace FrontEnd

namespace Parse

variable {parse : Productions}

theorem steady_closeStmt {k : Nat} (start : Span) : Steady k (closeStmt start) :=
  (steady_expect .semicolon).bind fun _ => steady_spanFrom start

/-! ### Statements -/

section

variable (h : ∀ q, Steady q.reach (parse q))

include h

theorem stores_exprStmt : Stores 0 (exprStmt parse) := by
  refine Keeps.stores (h (.expr .assign false)).weaken fun id => ?_
  refine (steady_check fun env => Check.steady_infer id).stores fun _ => ?_
  refine (steady_fold id).stores fun _ => (steady_expect .semicolon).stores fun _ => ?_
  exact (steady_expr id).stores fun _ => (steady_spanFrom _).stores fun _ => stores_addStmt ..

theorem steady_value : Steady 0 (parse .value) := (h .value).weaken

omit h in
theorem stores_returnEnd (start : Span) (value : Option ExprId) :
    Stores 0 (returnEnd start value) := by
  refine keeps_get.stores fun _ => (steady_spanFrom _).stores fun _ => ?_
  refine (steady_check fun env => Check.steady_checkReturn ..).stores fun _ => ?_
  cases value with
  | none => exact (steady_closeStmt start).stores fun _ => stores_addStmt ..
  | some id =>
    refine (steady_fold id).stores fun _ => ?_
    exact (steady_closeStmt start).stores fun _ => stores_addStmt ..

theorem stores_returnStmt : Stores 0 (returnStmt parse) := by
  refine steady_advance.stores fun token => (steady_currentIs .semicolon).stores fun none => ?_
  cases none with
  | true => exact (keeps_pure _).stores (stores_returnEnd _)
  | false => exact (Keeps.map (steady_value h)).stores (stores_returnEnd _)

theorem stores_printStmt : Stores 0 (printStmt parse) := by
  refine steady_advance.stores fun _ => (steady_value h).stores fun value => ?_
  refine (steady_check fun env => Check.steady_checkPrint value).stores fun _ => ?_
  refine (steady_fold value).stores fun _ => ?_
  exact (steady_closeStmt _).stores fun _ => stores_addStmt ..

theorem steady_condition : Steady 0 (condition parse) := by
  refine (steady_value h).bind fun cond => ?_
  refine (steady_check fun env => Check.steady_checkCondition cond).bind fun _ => ?_
  exact (steady_fold cond).bind fun _ => keeps_pure _

theorem stores_ifStmt : Stores 0 (ifStmt parse) := by
  refine steady_advance.stores fun token => (steady_condition h).stores fun cond => ?_
  refine Keeps.stores (h .stmt) fun thenBranch => (steady_eat .kwElse).stores fun other => ?_
  cases other with
  | true =>
    refine Keeps.stores (Keeps.map (h .stmt)) fun _ => ?_
    exact (steady_spanFrom _).stores fun _ => stores_addStmt ..
  | false =>
    exact (keeps_pure _).stores fun _ => (steady_spanFrom _).stores fun _ => stores_addStmt ..

theorem stores_whileStmt : Stores 0 (whileStmt parse) := by
  refine steady_advance.stores fun token => (steady_condition h).stores fun cond => ?_
  exact Keeps.stores (h .stmt) fun _ => (steady_spanFrom _).stores fun _ => stores_addStmt ..

theorem stores_doStmt : Stores 0 (doStmt parse) := by
  refine steady_advance.stores fun token => Keeps.stores (h .stmt) fun body => ?_
  refine steady_beginStatement.stores fun _ => (steady_expect .kwWhile).stores fun _ => ?_
  refine (steady_condition h).stores fun cond => ?_
  exact (steady_closeStmt _).stores fun _ => stores_addStmt ..

/-! ### Declarations -/

theorem stores_bodyEnd (stored mangled : Name) (type : TypeId) (start : Span) :
    Stores 0 (bodyEnd parse stored mangled type start) :=
  (steady_functionBody h type).weaken.stores fun _ => (steady_spanFrom _).stores fun _ =>
    stores_addStmt ..

theorem stores_functionEnd (name : Name) (type : TypeId) (start : Span) :
    Stores 0 (functionEnd parse name type start) := by
  refine (steady_declaredName name).stores fun stored => keeps_get.stores fun _ => ?_
  refine (steady_ofFault _).stores fun signature => ?_
  cases signature with
  | some signature => exact (steady_declareFunction ..).stores fun _ => stores_bodyEnd h ..
  | none => exact (keeps_pure _).stores fun _ => stores_bodyEnd h ..

theorem stores_functionDecl (name : Name) (declared : Option TypeId) (start : Span) :
    Stores 0 (functionDecl parse name declared start) := by
  refine steady_advance.stores fun func => (steady_signature h).weaken.stores fun type => ?_
  refine (steady_spanFrom _).stores fun span => ?_
  dsimp only
  split
  · refine keeps_get.stores fun _ => (steady_ofFault _).stores fun same => ?_
    cases same with
    | true => exact stores_functionEnd h ..
    | false =>
      refine (steady_quote name).stores fun _ => (steady_quoteType _).stores fun _ => ?_
      refine (steady_quoteType _).stores fun _ => (steady_report (by decide) ..).stores fun _ => ?_
      exact stores_functionEnd h ..
  · exact stores_functionEnd h ..

omit h in
theorem stores_nativeEnd (name : Name) (type : TypeId) (signature : Option Signature)
    (start : Span) : Stores 0 (nativeEnd name type signature start) := by
  refine (steady_expect .semicolon).stores fun _ => (steady_spanFrom start).stores fun _ => ?_
  cases signature with
  | none => exact stores_addStmt ..
  | some signature =>
    refine (steady_declaredName name).stores fun stored => ?_
    exact (steady_declareFunction ..).stores fun _ => stores_addStmt ..

theorem stores_native : Stores 0 (native parse) := by
  refine steady_advance.stores fun token => steady_expectName.stores fun name => ?_
  refine (steady_expect .colon).stores fun _ => steady_currentSpan.stores fun _ => ?_
  refine Keeps.stores (h .type).weaken fun type => (steady_spanFrom _).stores fun _ => ?_
  refine keeps_get.stores fun _ => (steady_ofFault _).stores fun signature => ?_
  dsimp only
  split
  · refine (steady_quote _).stores fun _ => (steady_quoteType _).stores fun _ => ?_
    exact (steady_report (by decide) ..).stores fun _ => stores_nativeEnd ..
  · exact stores_nativeEnd ..

omit h in
theorem steady_variableType (name : Name) (declared : TypeId) (init : Option ExprId)
    (isConst : Bool) (start : Span) :
    Steady 0 (variableType name declared init isConst start) := by
  unfold variableType
  cases init with
  | some init => exact steady_check fun env => Check.steady_checkInitializer ..
  | none =>
    cases isConst with
    | true =>
      refine (steady_spanFrom start).bind fun _ => (steady_quote name).bind fun _ => ?_
      exact (steady_report (by decide) ..).bind fun _ => keeps_pure _
    | false => exact keeps_pure _

omit h in
theorem stores_variableEnd (name : Name) (type : TypeId) (init : Option ExprId) (isConst : Bool)
    (value : Option Value) (start : Span) :
    Stores 0 (variableEnd name type init isConst value start) := by
  refine (steady_expect .semicolon).stores fun _ => (steady_spanFrom start).stores fun _ => ?_
  refine (steady_declaredName name).stores fun stored => ?_
  exact (steady_declareVariable ..).stores fun _ => stores_addStmt ..

omit h in
theorem stores_variableDecl (name : Name) (declared : Option TypeId) (init : Option ExprId)
    (isConst : Bool) (start : Span) :
    Stores 0 (variableDecl name declared init isConst start) := by
  refine (steady_variableType ..).stores fun type => ?_
  cases init with
  | some init => exact (steady_fold init).stores fun _ => stores_variableEnd ..
  | none => exact (keeps_pure _).stores fun _ => stores_variableEnd ..

theorem stores_initializerEnd (name : Name) (declared : Option TypeId) (isConst : Bool)
    (start : Span) : Stores 0 (initializerEnd parse name declared isConst start) := by
  refine (steady_currentIs .kwFunc).stores fun func => ?_
  cases func with
  | true => exact stores_functionDecl h ..
  | false => exact (steady_value h).stores fun _ => stores_variableDecl ..

theorem stores_declarationEnd (name : Name) (declared : Option TypeId) (isConst : Bool)
    (start : Span) : Stores 0 (declarationEnd parse name declared isConst start) := by
  refine (steady_eat .equal).stores fun equal => ?_
  cases equal with
  | true => exact stores_initializerEnd h ..
  | false => exact stores_variableDecl ..

theorem stores_declaration (isConst : Bool) (start : Span) :
    Stores 0 (declaration parse isConst start) := by
  refine steady_expectName.stores fun name => (steady_expect .colon).stores fun _ => ?_
  refine (steady_currentIs .equal).stores fun untyped => ?_
  cases untyped with
  | true => exact (keeps_pure _).stores fun _ => stores_declarationEnd h ..
  | false =>
    exact Keeps.stores (Keeps.map (h .type).weaken) fun _ => stores_declarationEnd h ..

theorem stores_constant : Stores 0 (constant parse) := by
  refine keeps_get.stores fun s => steady_advance.stores fun _ => ?_
  dsimp only
  split
  · exact stores_declaration h ..
  · exact stores_unexpected _

theorem steady_fields (done : List Field) : Steady 1 (fields parse done) := by
  refine (steady_currentIs .closeBrace).bind fun closed => ?_
  cases closed with
  | true => exact keeps_pure _
  | false =>
    refine steady_atEnd.bind fun atEnd => ?_
    cases atEnd with
    | true => exact keeps_pure _
    | false =>
      refine steady_expectName.bind fun name => (steady_expect .colon).bind fun _ => ?_
      refine Keeps.bind (h .type) fun type => (steady_expect .semicolon).bind fun _ => ?_
      split
      · refine (steady_quote _).bind fun _ => (steady_report (by decide) ..).bind fun _ => ?_
        exact h (.fields done)
      · exact h (.fields _)

theorem steady_variants : Steady 1 (variants parse) := by
  refine (steady_currentIs .closeBrace).bind fun closed => ?_
  cases closed with
  | true => exact keeps_pure _
  | false =>
    refine steady_expectName.bind fun variant => (steady_eat .comma).bind fun more => ?_
    cases more with
    | true => exact Keeps.bind (h .variants) fun _ => keeps_pure _
    | false => exact keeps_pure _

omit h in
theorem steady_closeType {k : Nat} (start : Span) : Steady k (closeType start) :=
  (steady_expect .closeBrace).bind fun _ => (steady_eat .semicolon).bind fun _ => steady_spanFrom _

omit h in
theorem stores_typeDecl {members : Production} (hm : Steady 0 (parse members))
    (kind : members.Result → Name → TypeKind) (form : Name → TypeId → StmtKind) :
    Stores 0 (typeDecl parse members kind form) := by
  refine steady_advance.stores fun token => steady_expectName.stores fun name => ?_
  refine (steady_expect .openBrace).stores fun _ => hm.stores fun read => ?_
  refine (steady_closeType _).stores fun _ => (steady_declareType _ ?_).stores fun _ =>
    stores_addStmt ..
  intro types stored id types' hs ha
  exact ⟨(hs.add ha).1, (hs.add ha).2.2.1⟩

theorem stores_namespaceDecl : Stores 0 (namespaceDecl parse) := by
  refine steady_advance.stores fun token => steady_expectName.stores fun name => ?_
  refine (steady_declaredName _).stores fun qualified =>
    (steady_expect .openBrace).stores fun _ => ?_
  have hbody := steady_inNamespace qualified (steady_bodyItems h)
  have hwhole := hbody.stores fun body => (steady_spanFrom token.span).stores fun span =>
    stores_addStmt (.namesp qualified body) span
  simpa only [bind_assoc] using hwhole

theorem steady_path (name : Name) : Steady 1 (path parse name) := by
  refine (steady_eat .dot).bind fun dot => ?_
  cases dot with
  | true =>
    refine steady_expectName.bind fun segment => (steady_qualify ..).bind fun qualified => ?_
    exact h (.path qualified)
  | false => exact keeps_pure _

theorem stores_usingDecl : Stores 0 (usingDecl parse) := by
  refine steady_advance.stores fun token => steady_expectName.stores fun first => ?_
  refine Keeps.stores (h (.path _)).weaken fun path => (steady_expect .semicolon).stores fun _ => ?_
  refine (steady_spanFrom _).stores fun _ =>
    Keeps.stores (p := usingTarget path) ?_ fun target => ?_
  · exact keeps_get.bind fun _ => keeps_pure _
  · exact (steady_pushUsing target).stores fun _ => stores_addStmt ..

theorem stores_statement : Stores 0 (statement parse) := by
  refine steady_beginStatement.stores fun _ => steady_current.stores fun token => ?_
  split
  · exact stores_returnStmt h
  · exact stores_printStmt h
  · exact stores_ifStmt h
  · exact stores_whileStmt h
  · exact stores_doStmt h
  · exact (stores_block h).weaken
  · exact structDecl_eq parse ▸ stores_typeDecl (h (.fields [])).weaken ..
  · exact enumDecl_eq parse ▸ stores_typeDecl (h .variants).weaken ..
  · exact stores_namespaceDecl h
  · exact stores_usingDecl h
  · exact stores_native h
  · exact stores_constant h
  · exact steady_advance.stores fun _ => (steady_addStmtList []).stores fun _ => stores_addStmt ..
  · refine (steady_nextIs .colon).stores fun colon => ?_
    cases colon with
    | true => exact steady_currentSpan.stores fun _ => stores_declaration h ..
    | false => exact stores_exprStmt h
  · exact stores_exprStmt h

/-! ### Programs -/

omit h in
theorem steady_reportExhausted (cause : StorageError) : Steady 0 (reportExhausted cause) :=
  steady_beginStatement.bind fun _ => steady_currentSpan.bind fun _ => steady_report (by decide) ..

theorem steady_afterStmt (start : Span) (r : Except Stop StmtId) :
    Steady 0 (afterStmt parse start r) := by
  cases r with
  | ok id => exact Keeps.bind (h .program) fun _ => keeps_pure _
  | error stop =>
    cases stop with
    | reported => exact (steady_synchronize start).bind fun _ => h .program
    | exhausted cause => exact (steady_reportExhausted cause).bind fun _ => keeps_pure _
    | fault f => exact keeps_throw fun s hs => ⟨hs.refl 0, by simp⟩

theorem steady_program : Steady 0 (program parse) := by
  refine steady_atEnd.bind fun atEnd => ?_
  cases atEnd with
  | true => exact keeps_pure _
  | false =>
    refine steady_truncated.bind fun truncated => ?_
    cases truncated with
    | true => exact keeps_pure _
    | false =>
      exact steady_currentSpan.bind fun start =>
        (steady_attempt (h .stmt)).bind (steady_afterStmt h start)

theorem steady_step (q : Production) : Steady q.reach (step parse q) := by
  cases q with
  | expr least isValue => exact steady_expression h least isValue
  | infixes left least isValue => exact steady_infixes h left least isValue
  | args => exact steady_args h
  | type => exact steady_typeName h
  | params => exact steady_params h
  | stmt => exact (stores_statement h).steady
  | items => exact steady_items h
  | fields done => exact steady_fields h done
  | variants => exact steady_variants h
  | path name => exact steady_path h name
  | program => exact steady_program h

end

theorem steady_within (depth : Nat) (q : Production) : Steady q.reach (within depth q) := by
  induction depth generalizing q with
  | zero => exact keeps_throw fun s hs => ⟨hs.refl _, by simp⟩
  | succ depth ih => exact steady_step ih q

/-- However reading a production ends, it leaves the state as steady. -/
theorem steady_production (q : Production) : Steady q.reach (production q) :=
  keeps_get.bind fun _ => steady_within _ q

end Parse

/-- Reading starts in a sound state. -/
theorem ParseState.sound_ofText {text : String} {settings : Settings} {s : ParseState}
    (h : ParseState.ofText text settings = .ok s) : s.Sound := by
  unfold ParseState.ofText at h
  cases ht : TypeTable.withMaxSlots (Interner.withReserve settings.arenaReserve)
      settings.poolReserve with
  | error e => simp [ht, Bind.bind, Except.bind] at h
  | ok r =>
    obtain ⟨types, names⟩ := r
    obtain ⟨htypes, hnames⟩ :=
      TypeTable.sound_withMaxSlots (Interner.sound_withReserve settings.arenaReserve) ht
    simp only [ht, Bind.bind, Except.bind] at h
    cases h
    obtain ⟨n, hn, hkind⟩ := (Window.ofText text).skipErrors_eq
    refine ⟨?_, ?_, Tree.sound_withMaxSlots _, htypes, hnames, ?_, Symbols.sound_empty,
      Symbols.shallow_empty _, fun key _ => Folder.bindingAt_empty key⟩
    · simpa [hn] using hkind
    · simpa [hn] using (Window.marked_ofText text).drop n
    · exact ((Queue.sound_withConfig _).accounts_tokens _).1

end FrontEnd
