import FrontEnd.Proofs.Grammar.Progress

/-! Productions call each other only further down, so the bound on their depth is never met. -/

namespace FrontEnd

/-- How many tokens a production takes at least. -/
def Production.least : Production → Nat
  | .expr .. | .args | .type | .params | .stmt => 1
  | _ => 0

/-- A production calls only others of a lower rank before it has taken a token. -/
def Production.rank : Production → Nat
  | .items | .program => 2
  | .args | .params | .stmt => 1
  | _ => 0

theorem Production.rank_le (q : Production) : q.rank ≤ 2 := by
  cases q <;> simp [rank]

namespace Parse

/-! ### Fewer tokens -/

/-- The same productions, as far as fewer than `n` tokens are left. -/
structure Descends (final : Option Tree) (n : Nat) (parse parse' : Productions) : Prop where
  steady : ∀ q, Steady q.reach (parse q)
  tracks : ∀ q t, t.Sound → t.window.left < n → Tracks final q.least (parse q) (parse' q) t

variable {α : Type} {n : Nat} {final : Option Tree} {s : ParseState} {parse parse' : Productions}

theorem Descends.call (h : Descends final n parse parse') (q : Production) (hs : s.Sound)
    (hn : s.window.left < n) : Tracks final 0 (parse q) (parse' q) s :=
  (h.tracks q s hs hn).mono (Nat.zero_le _)

section

variable (h : Descends final n parse parse') (hs : s.Sound)

include h hs

/-! ### Blocks and types -/

theorem tracks_bodyItems (hn : s.window.left < n) :
    Tracks final 0 (bodyItems parse) (bodyItems parse') s :=
  (h.call .items hs hn).then (i := 0) fun _ => steady_addStmtList _

theorem tracks_block (hn : s.window.left ≤ n) :
    Tracks final 1 (block parse) (block parse') s := by
  refine (tracks_expect hs (by decide)).bind fun brace t ht hlt => ?_
  have hbody := Tracks.inScope (steady_bodyItems h.steady) ht fun u hu hw =>
    tracks_bodyItems h hu (by rw [hw]; omega)
  exact hbody.then (i := 0) fun _ => (steady_spanFrom _).bind fun _ => steady_addStmt ..

theorem tracks_functionBody (type : TypeId) (hn : s.window.left < n) :
    Tracks final 0 (functionBody parse type) (functionBody parse' type) s := by
  refine (steady_expect (k := 0) .openBrace).tracks_bind hs fun brace t ht hlt => ?_
  refine tracks_of_reads (get_eq t) ?_
  refine (steady_ofFault (k := 0) _).tracks_bind ht fun signature u hu hlt' => ?_
  have hparams := steady_declareParams? signature
  have hbody := Tracks.inScope (k := 0) (hparams.bind fun _ =>
    steady_returning ((signature.map Signature.ret).getD .invalid) (steady_bodyItems h.steady)) hu
    fun v hv hw => hparams.tracks_bind hv fun _ w hw' hle =>
      .returning (steady_bodyItems h.steady) hw' fun x hx hwindow =>
        tracks_bodyItems h hx (by rw [hwindow]; rw [hw] at hle; omega)
  exact hbody.then (i := 0) fun _ => (steady_spanFrom _).bind fun _ => steady_addStmt ..

theorem tracks_params (ht : Tracks final 1 (parse .type) (parse' .type) s)
    (hn : s.window.left ≤ n) :
    Tracks final 1 (params parse) (params parse') s := by
  refine tracks_eat hs (by decide) (fun t ht _ => tracks_pure ht) ?_ (Nat.le_refl _)
  refine ht.bind fun type t ht hlt => ?_
  have hname : Steady 0 paramName := by
    refine (steady_currentIs .ident).bind fun named => ?_
    cases named with
    | true => exact steady_expectName.bind fun _ => keeps_pure _
    | false => exact keeps_pure _
  refine hname.tracks_bind ht fun name u hu hlt' => ?_
  refine tracks_eat hu (by decide) (fun v hv hlt'' => ?_) (tracks_pure hu) (Nat.zero_le _)
  exact (h.call .params hv (by omega)).then (i := 0) fun _ => keeps_pure _

theorem tracks_signatureEnd (params : List (TypeId × Name) × Bool) (hn : s.window.left < n) :
    Tracks final 0 (signatureEnd parse params) (signatureEnd parse' params) s := by
  refine (steady_expect (k := 0) .closeParen).tracks_bind hs fun _ t ht hle => ?_
  refine tracks_eat ht (by decide) (fun u hu hlt => ?_) ?_ (Nat.zero_le _)
  · exact (h.call .type hu (by omega)).then (i := 0) fun _ => steady_addFunction _
  · exact (tracks_pure ht).then (i := 0) fun _ => steady_addFunction _

theorem tracks_signature (hn : s.window.left < n) :
    Tracks final 0 (signature parse) (signature parse') s := by
  refine (steady_expect (k := 0) .openParen).tracks_bind hs fun _ t ht hle => ?_
  refine tracks_of_reads (a := t.window.currentIs .closeParen) rfl ?_
  cases t.window.currentIs .closeParen with
  | true =>
    exact (tracks_pure ht).after fun params u hu hle' =>
      tracks_signatureEnd h hu params (by omega)
  | false =>
    exact (h.call .params ht (by omega)).after fun params u hu hle' =>
      tracks_signatureEnd h hu params (by omega)

theorem tracks_typeName (hn : s.window.left ≤ n) :
    Tracks final 1 (typeName parse) (typeName parse') s := by
  refine tracks_of_reads (a := s.window.current) rfl ?_
  split
  · rename_i type hb
    refine (tracks_advance hs fun heof => ?_).then (i := 0) fun _ => keeps_pure _
    rw [heof] at hb
    cases hb
  · split
    · rename_i hfunc
      refine (tracks_advance hs (by rw [hfunc]; decide)).bind fun _ t ht hlt => ?_
      exact tracks_signature h ht (by omega)
    · split
      · refine (tracks_expectName hs).then (i := 0) fun name => keeps_get.bind fun s => ?_
        split
        · exact keeps_pure _
        · refine (steady_quote _).bind fun _ => ?_
          exact (steady_report (by decide) ..).bind fun _ => keeps_pure _
      · split
        · exact tracks_of_error rfl
        · exact tracks_of_error rfl

/-! ### Expressions -/

theorem tracks_group (hn : s.window.left ≤ n) (hk : s.window.current.kind ≠ .eof) :
    Tracks final 1 (group parse) (group parse') s := by
  refine (tracks_advance hs hk).bind fun token t ht hlt => ?_
  refine (h.call .value ht (by omega)).then (i := 0) fun inner => ?_
  refine (steady_expect .closeParen).bind fun _ => (steady_spanFrom _).bind fun _ => ?_
  exact (steady_expr inner).bind fun _ => steady_addConstant ..

theorem tracks_lambda (hn : s.window.left ≤ n) (hk : s.window.current.kind ≠ .eof) :
    Tracks final 1 (lambda parse) (lambda parse') s := by
  refine (tracks_advance hs hk).bind fun token t ht hlt => ?_
  refine (tracks_signature h ht (by omega)).after fun type u hu hle => ?_
  refine (tracks_functionBody h hu type (by omega)).then (i := 0) fun body => ?_
  exact (steady_spanFrom _).bind fun _ => steady_addExpr ..

theorem tracks_primary (hn : s.window.left ≤ n) :
    Tracks final 1 (primary parse) (primary parse') s := by
  refine tracks_of_reads (a := s.window.current) rfl ?_
  have hliteral (hk : s.window.current.kind ≠ .eof) :
      Tracks final 1 (literal s.window.current) (literal s.window.current) s := by
    refine tracks_of_reads (get_eq s) ?_
    refine (tracks_advance hs hk).then (i := 0) fun _ => ?_
    split
    · exact steady_addConstant ..
    · exact (steady_report (by decide) ..).bind fun _ => steady_errorExpr _
  split
  any_goals
    rename_i hkind
    exact hliteral (by rw [hkind]; decide)
  · rename_i hkind
    refine tracks_of_reads (get_eq s) ?_
    refine (tracks_advance hs (by rw [hkind]; decide)).then (i := 0) fun _ => ?_
    exact (steady_intern _).bind fun _ => steady_addExpr ..
  · refine (tracks_expectName hs).then (i := 0) fun name =>
      Keeps.bind (p := isConstantName name.1) ?_ fun is => ?_
    · refine keeps_get.bind fun s => ?_
      split <;> exact keeps_pure _
    · cases is with
      | true => exact steady_addConstant ..
      | false => exact steady_addTarget ..
  · rename_i hkind
    exact tracks_group h hs hn (by rw [hkind]; decide)
  · rename_i hkind
    exact tracks_lambda h hs hn (by rw [hkind]; decide)
  · exact tracks_of_error rfl

theorem tracks_unary (hn : s.window.left ≤ n) :
    Tracks final 1 (unary parse) (unary parse') s := by
  refine tracks_of_reads (a := s.window.current) rfl ?_
  split
  · exact tracks_primary h hs hn
  · rename_i op hop
    refine (tracks_advance hs fun heof => ?_).bind fun token t ht hlt => ?_
    · rw [heof] at hop
      cases hop
    · exact (h.call (.expr .call true) ht (by omega)).then (i := 0) fun id =>
        steady_unaryEnd op token.span id

theorem tracks_binary (left : ExprId) (level : Level) (hn : s.window.left ≤ n) :
    Tracks final 1 (binary parse left level) (binary parse' left level) s := by
  refine tracks_of_reads (a := s.window.current) rfl ?_
  split
  · exact tracks_of_error rfl
  · rename_i op hop
    refine (tracks_advance hs fun heof => ?_).bind fun token t ht hlt => ?_
    · rw [heof] at hop
      cases hop
    · exact (h.call (.expr level.next true) ht (by omega)).then (i := 0) fun right =>
        steady_binaryEnd op left right

theorem tracks_assignment (target : ExprId) (hn : s.window.left ≤ n) :
    Tracks final 1 (assignment parse target) (assignment parse' target) s := by
  refine tracks_of_reads (a := s.window.current) rfl ?_
  split
  · exact tracks_of_error rfl
  · rename_i op hop
    refine (tracks_advance hs fun heof => ?_).bind fun token t ht hlt => ?_
    · rw [heof] at hop
      cases hop
    · exact (h.call (.expr .assign false) ht (by omega)).then (i := 0) fun value =>
        steady_assignmentEnd op target value

omit hs in
theorem tracks_args (hv : Tracks final 1 (parse .value) (parse' .value) s)
    (hn : s.window.left ≤ n) :
    Tracks final 1 (args parse) (args parse') s := by
  refine hv.bind fun arg t ht hlt => ?_
  refine tracks_eat ht (by decide) (fun u hu hlt' => ?_) (tracks_pure ht) (Nat.zero_le _)
  exact (h.call .args hu (by omega)).then (i := 0) fun _ => keeps_pure _

theorem tracks_call (left : ExprId) (object : Expr) (hn : s.window.left ≤ n) :
    Tracks final 1 (call parse left object) (call parse' left object) s := by
  refine (tracks_expect hs (by decide)).bind fun _ t ht hlt => ?_
  refine tracks_of_reads (a := t.window.currentIs .closeParen) rfl ?_
  cases t.window.currentIs .closeParen with
  | true => exact (tracks_pure ht).then (i := 0) (steady_endCall left object)
  | false => exact (h.call .args ht (by omega)).then (i := 0) (steady_endCall left object)

theorem tracks_postfixForm (left : ExprId) (hn : s.window.left ≤ n) :
    Tracks final 1 (postfixForm parse left) (postfixForm parse' left) s := by
  refine (steady_expr (k := 0) left).tracks_bind hs fun object t ht hle => ?_
  refine tracks_eat ht (by decide) (fun u hu _ => ?_) (tracks_call h ht left object (by omega))
    (Nat.le_refl _)
  exact Steady.tracks (i := 0) (steady_expectName.bind fun _ => steady_addTarget ..) hu

theorem tracks_infixes (left : ExprId) (least : Level) (isValue : Bool)
    (hn : s.window.left ≤ n) :
    Tracks final 0 (infixes parse left least isValue) (infixes parse' left least isValue) s := by
  have hrest (whole : ExprId) (t : ParseState) (ht : t.Sound)
      (hlt : t.window.left + 1 ≤ s.window.left) :
      Tracks final 0 (parse (.infixes whole least isValue)) (parse' (.infixes whole least isValue))
        t :=
    h.call _ ht (by omega)
  refine tracks_of_reads (a := s.window.current) rfl ?_
  dsimp only
  split
  · exact tracks_pure hs
  · split
    · exact ((tracks_assignment h hs left hn).bind hrest).mono (Nat.zero_le _)
    · exact ((tracks_postfixForm h hs left hn).bind hrest).mono (Nat.zero_le _)
    · exact ((tracks_binary h hs left _ hn).bind hrest).mono (Nat.zero_le _)

theorem tracks_expression (least : Level) (isValue : Bool) (hn : s.window.left ≤ n) :
    Tracks final 1 (expression parse least isValue) (expression parse' least isValue) s :=
  (tracks_unary h hs hn).bind fun left _ ht hlt =>
    h.call (.infixes left least isValue) ht (by omega)

/-! ### Statements -/

omit h hs in
theorem tracks_exprStmt
    (he : Tracks final 1 (parse (.expr .assign false)) (parse' (.expr .assign false)) s) :
    Tracks final 1 (exprStmt parse) (exprStmt parse') s := by
  refine he.then (i := 0) fun id => ?_
  refine (steady_check fun env => Check.steady_infer id).bind fun _ => ?_
  refine (steady_fold id).bind fun _ => (steady_expect .semicolon).bind fun _ => ?_
  exact (steady_expr id).bind fun _ => (steady_spanFrom _).bind fun _ => steady_addStmt ..

theorem tracks_returnStmt (hn : s.window.left ≤ n) (hk : s.window.current.kind ≠ .eof) :
    Tracks final 1 (returnStmt parse) (returnStmt parse') s := by
  refine (tracks_advance hs hk).bind fun token t ht hlt => ?_
  refine tracks_of_reads (a := t.window.currentIs .semicolon) rfl ?_
  cases t.window.currentIs .semicolon with
  | true => exact (tracks_pure ht).then (i := 0) fun _ => (stores_returnEnd ..).steady
  | false =>
    exact (h.call .value ht (by omega)).map.then (i := 0) fun _ => (stores_returnEnd ..).steady

theorem tracks_printStmt (hn : s.window.left ≤ n) (hk : s.window.current.kind ≠ .eof) :
    Tracks final 1 (printStmt parse) (printStmt parse') s := by
  refine (tracks_advance hs hk).bind fun token t ht hlt => ?_
  refine (h.call .value ht (by omega)).then (i := 0) fun value => ?_
  refine (steady_check fun env => Check.steady_checkPrint value).bind fun _ => ?_
  refine (steady_fold value).bind fun _ => ?_
  exact (steady_closeStmt _).bind fun _ => steady_addStmt ..

theorem tracks_condition (hn : s.window.left < n) :
    Tracks final 0 (condition parse) (condition parse') s := by
  refine (h.call .value hs hn).then (i := 0) fun cond => ?_
  refine (steady_check fun env => Check.steady_checkCondition cond).bind fun _ => ?_
  exact (steady_fold cond).bind fun _ => keeps_pure _

theorem tracks_ifStmt (hn : s.window.left ≤ n) (hk : s.window.current.kind ≠ .eof) :
    Tracks final 1 (ifStmt parse) (ifStmt parse') s := by
  refine (tracks_advance hs hk).bind fun token t ht hlt => ?_
  refine (tracks_condition h ht (by omega)).after fun cond u hu hle => ?_
  refine (h.call .stmt hu (by omega)).after fun thenBranch v hv hle' => ?_
  have hend (other : Option StmtId) :
      Steady 0 (do addStmt (.cond cond thenBranch other) (← spanFrom token.span)) :=
    (steady_spanFrom _).bind fun _ => steady_addStmt ..
  refine tracks_eat hv (by decide) (fun w hw hlt' => ?_) ?_ (Nat.zero_le _)
  · exact (h.call .stmt hw (by omega)).map.then hend
  · exact (tracks_pure hv).then hend

theorem tracks_whileStmt (hn : s.window.left ≤ n) (hk : s.window.current.kind ≠ .eof) :
    Tracks final 1 (whileStmt parse) (whileStmt parse') s := by
  refine (tracks_advance hs hk).bind fun token t ht hlt => ?_
  refine (tracks_condition h ht (by omega)).after fun cond u hu hle => ?_
  refine (h.call .stmt hu (by omega)).then (i := 0) fun body => ?_
  exact (steady_spanFrom _).bind fun _ => steady_addStmt ..

theorem tracks_doStmt (hn : s.window.left ≤ n) (hk : s.window.current.kind ≠ .eof) :
    Tracks final 1 (doStmt parse) (doStmt parse') s := by
  refine (tracks_advance hs hk).bind fun token t ht hlt => ?_
  refine (h.call .stmt ht (by omega)).after fun body u hu hle => ?_
  refine (steady_beginStatement (k := 0)).tracks_bind hu fun _ v hv hle' => ?_
  refine (steady_expect (k := 0) .kwWhile).tracks_bind hv fun _ w hw hle'' => ?_
  refine (tracks_condition h hw (by omega)).then (i := 0) fun cond => ?_
  exact (steady_closeStmt _).bind fun _ => steady_addStmt ..

/-! ### Declarations -/

theorem tracks_bodyEnd (stored mangled : Name) (type : TypeId) (start : Span)
    (hn : s.window.left < n) :
    Tracks final 0 (bodyEnd parse stored mangled type start)
      (bodyEnd parse' stored mangled type start) s :=
  (tracks_functionBody h hs type hn).then (i := 0) fun _ =>
    (steady_spanFrom _).bind fun _ => steady_addStmt ..

theorem tracks_functionEnd (name : Name) (type : TypeId) (start : Span)
    (hn : s.window.left < n) :
    Tracks final 0 (functionEnd parse name type start) (functionEnd parse' name type start) s := by
  refine (steady_declaredName (k := 0) name).tracks_bind hs fun stored t ht hle => ?_
  refine tracks_of_reads (get_eq t) ?_
  refine (steady_ofFault (k := 0) _).tracks_bind ht fun signature u hu hle' => ?_
  cases signature with
  | some signature =>
    exact (steady_declareFunction stored type signature false).tracks_bind hu
      fun mangled v hv hle'' => tracks_bodyEnd h hv stored mangled type start (by omega)
  | none =>
    exact (tracks_pure hu).after fun mangled v hv hle'' =>
      tracks_bodyEnd h hv stored mangled type start (by omega)

theorem tracks_functionDecl (name : Name) (declared : Option TypeId) (start : Span)
    (hn : s.window.left < n) (hk : s.window.current.kind ≠ .eof) :
    Tracks final 0 (functionDecl parse name declared start)
      (functionDecl parse' name declared start)
      s := by
  refine ((tracks_advance hs hk).mono (Nat.zero_le _)).after fun func t ht hle => ?_
  refine (tracks_signature h ht (by omega)).after fun type u hu hle' => ?_
  refine (steady_spanFrom (k := 0) _).tracks_bind hu fun span v hv hle'' => ?_
  dsimp only
  split
  · refine tracks_of_reads (get_eq v) ?_
    refine (steady_ofFault (k := 0) _).tracks_bind hv fun same w hw hle₀ => ?_
    cases same with
    | true => exact tracks_functionEnd h hw name type start (by omega)
    | false =>
      refine (steady_quote (k := 0) name).tracks_bind hw fun _ x₁ h₁ hle₁ => ?_
      refine (steady_quoteType (k := 0) _).tracks_bind h₁ fun _ x₂ h₂ hle₂ => ?_
      refine (steady_quoteType (k := 0) _).tracks_bind h₂ fun _ x₃ h₃ hle₃ => ?_
      exact (steady_report (k := 0) (by decide) ..).tracks_bind h₃ fun _ x₄ h₄ hle₄ =>
        tracks_functionEnd h h₄ name type start (by omega)
  · exact tracks_functionEnd h hv name type start (by omega)

theorem tracks_native (hn : s.window.left ≤ n) (hk : s.window.current.kind ≠ .eof) :
    Tracks final 1 (native parse) (native parse') s := by
  refine (tracks_advance hs hk).bind fun token t ht hlt => ?_
  refine (steady_expectName (k := 0)).tracks_bind ht fun name u hu hle => ?_
  refine (steady_expect (k := 0) .colon).tracks_bind hu fun _ v hv hle' => ?_
  refine tracks_of_reads (a := v.window.current.span) rfl ?_
  refine (h.call .type hv (by omega)).then (i := 0) fun type => ?_
  refine (steady_spanFrom _).bind fun _ => ?_
  refine keeps_get.bind fun _ => (steady_ofFault _).bind fun signature => ?_
  dsimp only
  split
  · refine (steady_quote _).bind fun _ => (steady_quoteType _).bind fun _ => ?_
    exact (steady_report (by decide) ..).bind fun _ => (stores_nativeEnd ..).steady
  · exact (stores_nativeEnd ..).steady

theorem tracks_initializerEnd (name : Name) (declared : Option TypeId) (isConst : Bool)
    (start : Span) (hn : s.window.left < n) :
    Tracks final 0 (initializerEnd parse name declared isConst start)
      (initializerEnd parse' name declared isConst start) s := by
  refine tracks_of_reads (a := s.window.currentIs .kwFunc) rfl ?_
  cases hf : s.window.currentIs .kwFunc with
  | true =>
    refine tracks_functionDecl h hs name declared start hn ?_
    rw [beq_iff_eq.1 hf]
    decide
  | false =>
    exact (h.call .value hs hn).then (i := 0) fun _ => (stores_variableDecl ..).steady

theorem tracks_declarationEnd (name : Name) (declared : Option TypeId) (isConst : Bool)
    (start : Span) (hn : s.window.left < n) :
    Tracks final 0 (declarationEnd parse name declared isConst start)
      (declarationEnd parse' name declared isConst start) s :=
  tracks_eat hs (by decide)
    (fun t ht hlt => tracks_initializerEnd h ht name declared isConst start (by omega))
    (Steady.tracks (i := 0) (stores_variableDecl ..).steady hs) (Nat.zero_le _)

theorem tracks_declaration (isConst : Bool) (start : Span) (hn : s.window.left ≤ n) :
    Tracks final 1 (declaration parse isConst start) (declaration parse' isConst start) s := by
  refine (tracks_expectName hs).bind fun name t ht hlt => ?_
  refine (steady_expect (k := 0) .colon).tracks_bind ht fun _ u hu hle => ?_
  refine tracks_of_reads (a := u.window.currentIs .equal) rfl ?_
  cases u.window.currentIs .equal with
  | true =>
    exact (tracks_pure hu).after fun declared v hv hle' =>
      tracks_declarationEnd h hv _ _ isConst start (by omega)
  | false =>
    exact (h.call .type hu (by omega)).map.after fun declared v hv hle' =>
      tracks_declarationEnd h hv _ _ isConst start (by omega)

theorem tracks_constant (hn : s.window.left ≤ n) (hk : s.window.current.kind ≠ .eof) :
    Tracks final 1 (constant parse) (constant parse') s := by
  refine tracks_of_reads (get_eq s) ?_
  refine (tracks_advance hs hk).bind fun token t ht hlt => ?_
  dsimp only
  split
  · exact (tracks_declaration h ht true _ (by omega)).mono (Nat.zero_le _)
  · exact Steady.tracks (i := 0) (steady_unexpected _) ht

theorem tracks_fields (done : List Field) (hn : s.window.left ≤ n) :
    Tracks final 0 (fields parse done) (fields parse' done) s := by
  refine tracks_of_reads (a := s.window.currentIs .closeBrace) rfl ?_
  cases s.window.currentIs .closeBrace with
  | true => exact tracks_pure hs
  | false =>
    refine tracks_of_reads (a := s.window.atEnd) rfl ?_
    cases s.window.atEnd with
    | true => exact tracks_pure hs
    | false =>
      refine Tracks.mono (k := 1) ((tracks_expectName hs).bind fun name t ht hlt => ?_)
        (Nat.zero_le _)
      refine (steady_expect (k := 0) .colon).tracks_bind ht fun _ u hu hle => ?_
      refine (h.call .type hu (by omega)).after fun type v hv hle' => ?_
      refine (steady_expect (k := 0) .semicolon).tracks_bind hv fun _ w hw hle'' => ?_
      split
      · refine (steady_quote (k := 0) _).tracks_bind hw fun _ x hx hle₁ => ?_
        exact (steady_report (k := 0) (by decide) ..).tracks_bind hx fun _ y hy hle₂ =>
          h.call (.fields done) hy (by omega)
      · exact h.call (.fields _) hw (by omega)

theorem tracks_variants (hn : s.window.left ≤ n) :
    Tracks final 0 (variants parse) (variants parse') s := by
  refine tracks_of_reads (a := s.window.currentIs .closeBrace) rfl ?_
  cases s.window.currentIs .closeBrace with
  | true => exact tracks_pure hs
  | false =>
    refine (steady_expectName (k := 0)).tracks_bind hs fun variant t ht hle => ?_
    refine tracks_eat ht (by decide) (fun u hu hlt => ?_) (tracks_pure ht) (Nat.zero_le _)
    exact (h.call .variants hu (by omega)).then (i := 0) fun _ => keeps_pure _

theorem tracks_typeDecl (members : Production) (kind : members.Result → Name → TypeKind)
    (form : Name → TypeId → StmtKind) (hn : s.window.left ≤ n)
    (hk : s.window.current.kind ≠ .eof) :
    Tracks final 1 (typeDecl parse members kind form) (typeDecl parse' members kind form) s := by
  refine (tracks_advance hs hk).bind fun token t ht hlt => ?_
  refine (steady_expectName (k := 0)).tracks_bind ht fun name u hu hle => ?_
  refine (steady_expect (k := 0) .openBrace).tracks_bind hu fun _ v hv hle' => ?_
  refine (h.call members hv (by omega)).then (i := 0) fun read => ?_
  refine (steady_closeType _).bind fun _ => (steady_declareType _ ?_).bind fun _ =>
    steady_addStmt ..
  intro types stored id types' hs ha
  exact ⟨(hs.add ha).1, (hs.add ha).2.2.1⟩

theorem tracks_namespaceDecl (hn : s.window.left ≤ n) (hk : s.window.current.kind ≠ .eof) :
    Tracks final 1 (namespaceDecl parse) (namespaceDecl parse') s := by
  refine (tracks_advance hs hk).bind fun token t ht hlt => ?_
  refine (steady_expectName (k := 0)).tracks_bind ht fun name u hu hle => ?_
  refine (steady_declaredName (k := 0) _).tracks_bind hu fun qualified v hv hle' => ?_
  refine (steady_expect (k := 0) .openBrace).tracks_bind hv fun _ w hw hle'' => ?_
  have hbody := Tracks.inNamespace qualified (steady_bodyItems h.steady) hw
    fun x hx hwindow => tracks_bodyItems h hx (by rw [hwindow]; omega)
  have hwhole := hbody.then (i := 0) fun body =>
    (steady_spanFrom token.span).bind fun span => steady_addStmt (.namesp qualified body) span
  simpa only [bind_assoc] using hwhole

theorem tracks_path (name : Name) (hn : s.window.left ≤ n) :
    Tracks final 0 (path parse name) (path parse' name) s := by
  refine tracks_eat hs (by decide) (fun t ht hlt => ?_) (tracks_pure hs) (Nat.zero_le _)
  refine (steady_expectName (k := 0)).tracks_bind ht fun segment u hu hle => ?_
  refine (steady_qualify (k := 0) ..).tracks_bind hu fun qualified v hv hle' => ?_
  exact h.call (.path qualified) hv (by omega)

theorem tracks_usingDecl (hn : s.window.left ≤ n) (hk : s.window.current.kind ≠ .eof) :
    Tracks final 1 (usingDecl parse) (usingDecl parse') s := by
  refine (tracks_advance hs hk).bind fun token t ht hlt => ?_
  refine (steady_expectName (k := 0)).tracks_bind ht fun first u hu hle => ?_
  refine (h.call (.path _) hu (by omega)).then (i := 0) fun path => ?_
  refine (steady_expect .semicolon).bind fun _ => ?_
  refine (steady_spanFrom _).bind fun _ => Keeps.bind (p := usingTarget path) ?_ fun target => ?_
  · exact keeps_get.bind fun _ => keeps_pure _
  · exact (steady_pushUsing target).bind fun _ => steady_addStmt ..

theorem tracks_statement
    (he : ∀ t, t.Sound → t.window.left ≤ s.window.left →
      Tracks final 1 (parse (.expr .assign false)) (parse' (.expr .assign false)) t)
    (hn : s.window.left ≤ n) : Tracks final 1 (statement parse) (statement parse') s := by
  refine (steady_beginStatement (k := 0)).tracks_bind hs fun _ t ht hle => ?_
  refine tracks_of_reads (a := t.window.current) rfl ?_
  have hm : t.window.left ≤ n := hle.trans hn
  have hk {kind : TokenKind} (hkind : t.window.current.kind = kind) (hne : kind ≠ .eof) :
      t.window.current.kind ≠ .eof := hkind ▸ hne
  split
  · rename_i hkind
    exact tracks_returnStmt h ht hm (hk hkind nofun)
  · rename_i hkind
    exact tracks_printStmt h ht hm (hk hkind nofun)
  · rename_i hkind
    exact tracks_ifStmt h ht hm (hk hkind nofun)
  · rename_i hkind
    exact tracks_whileStmt h ht hm (hk hkind nofun)
  · rename_i hkind
    exact tracks_doStmt h ht hm (hk hkind nofun)
  · exact tracks_block h ht hm
  · rename_i hkind
    rw [structDecl_eq, structDecl_eq]
    exact tracks_typeDecl h ht _ _ _ hm (hk hkind nofun)
  · rename_i hkind
    rw [enumDecl_eq, enumDecl_eq]
    exact tracks_typeDecl h ht _ _ _ hm (hk hkind nofun)
  · rename_i hkind
    exact tracks_namespaceDecl h ht hm (hk hkind nofun)
  · rename_i hkind
    exact tracks_usingDecl h ht hm (hk hkind nofun)
  · rename_i hkind
    exact tracks_native h ht hm (hk hkind nofun)
  · rename_i hkind
    exact tracks_constant h ht hm (hk hkind nofun)
  · rename_i hkind
    refine (tracks_advance ht (hk hkind nofun)).then (i := 0) fun _ => ?_
    exact (steady_addStmtList []).bind fun _ => steady_addStmt ..
  · refine tracks_of_reads (a := t.window.next.kind == .colon) rfl ?_
    cases t.window.next.kind == .colon with
    | true =>
      exact tracks_of_reads (a := t.window.current.span) rfl (tracks_declaration h ht false _ hm)
    | false => exact tracks_exprStmt (he t ht hle)
  · exact tracks_exprStmt (he t ht hle)

end

/-! ### Lists of statements -/

section

variable (h : Descends none n parse parse') (hs : s.Sound)

include h hs

omit hs in
/-- After recovery fewer tokens are left. -/
theorem recover_congr (q : Production) {t : ParseState} (hend : s.window.atEnd = false)
    (ht : t.Sound) (hw : ∃ m, t.window = s.window.drop m) (hn : s.window.left ≤ n) :
    (do synchronize s.window.current.span; parse q) t =
      (do synchronize s.window.current.span; parse' q) t := by
  cases hu : synchronize s.window.current.span t with
  | ok _ u =>
    obtain ⟨hsound, hlt⟩ := left_synchronize hend ht hw hu
    rw [bind_of_ok hu, bind_of_ok hu]
    exact (h.call q hsound (by omega)).same
  | error e u => rw [bind_of_error hu, bind_of_error hu]

/-- Statements go on after one that was tried. -/
theorem tracks_tried {f g : Except Stop StmtId → Parse (List StmtId)}
    (hc : Tracks none 1 (parse .stmt) (parse' .stmt) s) (hf : ∀ r, Steady 0 (f r))
    (hok : ∀ id t, t.Sound → t.window.left < s.window.left → f (.ok id) t = g (.ok id) t)
    (hreported : ∀ t, t.Sound → (∃ m, t.window = s.window.drop m) →
      f (.error .reported) t = g (.error .reported) t)
    (hstop : ∀ e t, e ≠ .reported → f (.error e) t = g (.error e) t) :
    Tracks none 0 (attempt (parse .stmt) >>= f) (attempt (parse' .stmt) >>= g) s := by
  refine hc.attempt hf (h.steady .stmt) hs (fun id t ht => ?_) fun e t ht => ?_
  · obtain ⟨hsound, hlt⟩ := hc.takes id t ht
    exact hok id t hsound hlt
  · cases e with
    | reported =>
      have ho := ((h.steady .stmt).error ht hs).1
      exact hreported t ho.sound ho.window
    | exhausted cause => exact hstop _ t nofun
    | fault f => exact hstop _ t nofun

theorem tracks_items (hc : ∀ t, t.Sound → t.window.left ≤ s.window.left →
      Tracks none 1 (parse .stmt) (parse' .stmt) t) (hn : s.window.left ≤ n) :
    Tracks none 0 (items parse) (items parse') s := by
  refine tracks_eat hs (by decide) (fun t ht _ => tracks_pure ht) ?_ (Nat.zero_le _)
  refine tracks_of_reads (a := s.reports.truncated) rfl ?_
  cases s.reports.truncated with
  | true => exact tracks_pure hs
  | false =>
    refine tracks_of_reads (a := s.window.atEnd) rfl ?_
    cases hend : s.window.atEnd with
    | true => exact tracks_of_error rfl
    | false =>
      refine tracks_of_reads (a := s.window.current.span) rfl ?_
      refine tracks_tried (f := afterItem parse _) (g := afterItem parse' _) h hs
        (hc s hs (Nat.le_refl _)) (steady_afterItem h.steady _) (fun id t ht hlt => ?_)
        (fun t ht hw => recover_congr h .items hend ht hw hn) fun e t he => ?_
      · exact ((h.call .items ht (by omega)).then (i := 0) fun _ => keeps_pure _).same
      · cases e with
        | reported => exact absurd rfl he
        | exhausted cause => rfl
        | fault f => rfl

theorem tracks_program (hc : ∀ t, t.Sound → t.window.left ≤ s.window.left →
      Tracks none 1 (parse .stmt) (parse' .stmt) t) (hn : s.window.left ≤ n) :
    Tracks none 0 (program parse) (program parse') s := by
  refine tracks_of_reads (a := s.window.atEnd) rfl ?_
  cases hend : s.window.atEnd with
  | true => exact tracks_pure hs
  | false =>
    refine tracks_of_reads (a := s.reports.truncated) rfl ?_
    cases s.reports.truncated with
    | true => exact tracks_pure hs
    | false =>
      refine tracks_of_reads (a := s.window.current.span) rfl ?_
      refine tracks_tried (f := afterStmt parse _) (g := afterStmt parse' _) h hs
        (hc s hs (Nat.le_refl _)) (steady_afterStmt h.steady _) (fun id t ht hlt => ?_)
        (fun t ht hw => recover_congr h .program hend ht hw hn) fun e t he => ?_
      · exact ((h.call .program ht (by omega)).then (i := 0) fun _ => keeps_pure _).same
      · cases e with
        | reported => exact absurd rfl he
        | exhausted cause => rfl
        | fault f => rfl

end

/-! ### All productions -/

section

variable (h : ∀ q, Steady q.reach (parse q))

include h

/-- Productions that do the same on fewer tokens, and on as many if they are of a lower rank. -/
theorem descends_below {q : Production}
    (hq : ∀ q' t, t.Sound → 3 * t.window.left + q'.rank < 3 * s.window.left + q.rank →
      Tracks final q'.least (parse q') (parse' q') t) :
    Descends final s.window.left parse parse' ∧
      ∀ q' : Production, q'.rank < q.rank → ∀ t, t.Sound → t.window.left ≤ s.window.left →
        Tracks final q'.least (parse q') (parse' q') t :=
  ⟨⟨h, fun q' t ht hlt => hq q' t ht (by
    have := q'.rank_le
    omega)⟩, fun q' hlt t ht hle => hq q' t ht (by omega)⟩

variable (hs : s.Sound)

include hs

/-- A production takes tokens or goes down in rank before it calls another one. -/
theorem tracks_form (q : Production) (hitems : q ≠ .items) (hprogram : q ≠ .program)
    (hq : ∀ q' t, t.Sound → 3 * t.window.left + q'.rank < 3 * s.window.left + q.rank →
      Tracks final q'.least (parse q') (parse' q') t) :
    Tracks final q.least (step parse q) (step parse' q) s := by
  obtain ⟨hd, hlower⟩ := descends_below h hq
  cases q with
  | expr least isValue => exact tracks_expression hd hs least isValue (Nat.le_refl _)
  | infixes left least isValue => exact tracks_infixes hd hs left least isValue (Nat.le_refl _)
  | args => exact tracks_args hd (hlower .value (by decide) s hs (Nat.le_refl _)) (Nat.le_refl _)
  | type => exact tracks_typeName hd hs (Nat.le_refl _)
  | params =>
    exact tracks_params hd hs (hlower .type (by decide) s hs (Nat.le_refl _)) (Nat.le_refl _)
  | stmt => exact tracks_statement hd hs (hlower (.expr .assign false) (by decide)) (Nat.le_refl _)
  | items => exact absurd rfl hitems
  | fields done => exact tracks_fields hd hs done (Nat.le_refl _)
  | variants => exact tracks_variants hd hs (Nat.le_refl _)
  | path name => exact tracks_path hd hs name (Nat.le_refl _)
  | program => exact absurd rfl hprogram

/-- So do lists of statements. -/
theorem tracks_step (q : Production)
    (hq : ∀ q' t, t.Sound → 3 * t.window.left + q'.rank < 3 * s.window.left + q.rank →
      Tracks none q'.least (parse q') (parse' q') t) :
    Tracks none q.least (step parse q) (step parse' q) s := by
  by_cases hitems : q = .items
  · subst hitems
    obtain ⟨hd, hlower⟩ := descends_below h hq
    exact tracks_items hd hs (hlower .stmt (by decide)) (Nat.le_refl _)
  · by_cases hprogram : q = .program
    · subst hprogram
      obtain ⟨hd, hlower⟩ := descends_below h hq
      exact tracks_program hd hs (hlower .stmt (by decide)) (Nat.le_refl _)
    · exact tracks_form h hs q hitems hprogram hq

end

/-- Productions that go through at most so many others, and stop with this fault where they would
go further. -/
def upTo (bottom : Fault) : Nat → Productions
  | 0 => fun _ => throw (.fault bottom)
  | depth + 1 => step (upTo bottom depth)

theorem within_eq_upTo (depth : Nat) : within depth = upTo .endless depth := by
  induction depth with
  | zero => rfl
  | succ depth ih => rw [within, upTo, ih]

theorem steady_upTo (bottom : Fault) (depth : Nat) (q : Production) :
    Steady q.reach (upTo bottom depth q) := by
  induction depth generalizing q with
  | zero => exact keeps_throw fun s hs => ⟨hs.refl _, by simp⟩
  | succ depth ih => exact steady_step ih q

/-- The bound on the depth does not matter where it is large enough: it is not met. -/
theorem tracks_upTo (bottom bottom' : Fault) {depth depth' : Nat} (q : Production) (hs : s.Sound)
    (hd : 3 * s.window.left + q.rank < depth) (hd' : 3 * s.window.left + q.rank < depth') :
    Tracks none q.least (upTo bottom depth q) (upTo bottom' depth' q) s := by
  induction depth generalizing depth' q s with
  | zero => omega
  | succ depth ih =>
    obtain ⟨depth', rfl⟩ : ∃ d, depth' = d + 1 := ⟨depth' - 1, by omega⟩
    exact tracks_step (steady_upTo bottom depth) hs q fun q' t ht hlt =>
      ih q' ht (by omega) (by omega)

/-- No production goes too deep. -/
theorem production_eq_upTo (bottom : Fault) {depth : Nat} (q : Production) (hs : s.Sound)
    (hd : 3 * s.window.left + q.rank < depth) : production q s = upTo bottom depth q s := by
  have hrank := q.rank_le
  have hleft := s.window.left_le_unread
  change within (8 * (s.window.unread + 1)) q s = _
  rw [within_eq_upTo]
  exact (tracks_upTo .endless bottom q hs (by omega) hd).same

/-- What a production takes. -/
theorem production_takes {q : Production} {a : q.Result} {t : ParseState} (hs : s.Sound)
    (h : production q s = .ok a t) :
    t.Sound ∧ t.window.left + q.least ≤ s.window.left := by
  rw [production_eq_upTo .endless q hs (Nat.lt_succ_self _)] at h
  exact (tracks_upTo .endless .endless q hs (Nat.lt_succ_self _)
    (Nat.lt_succ_self _)).takes a t h

/-- Productions are what the grammar defines them to be, by each other. -/
theorem production_eq_step (q : Production) (hs : s.Sound) :
    production q s = step production q s := by
  rw [production_eq_upTo .endless q hs (Nat.lt_succ_self _)]
  refine (tracks_step (steady_upTo .endless _) hs q fun q' t ht hlt => ?_).same
  have hrank := q'.rank_le
  have hleft := t.window.left_le_unread
  have hdepth : 3 * t.window.left + q'.rank < 8 * (t.window.unread + 1) := by omega
  refine (tracks_upTo .endless .endless q' ht (by omega) hdepth).congr rfl ?_
  rw [← within_eq_upTo]
  rfl

/-- Where a program goes on, a statement is tried first. -/
theorem program_eq_tried (hs : s.Sound) (hend : s.window.atEnd = false)
    (htrunc : s.reports.truncated = false) : production .program s =
      (attempt (production .stmt) >>= afterStmt production s.window.current.span) s := by
  have hat : atEnd s = .ok false s := congrArg (EStateM.Result.ok · s) hend
  have htruncated : truncated s = .ok false s := congrArg (EStateM.Result.ok · s) htrunc
  rw [production_eq_step .program hs]
  change program production s = _
  unfold program
  exact (bind_of_ok hat).trans (bind_of_ok htruncated)

/-- At its end a program goes on with nothing. -/
theorem program_atEnd (hs : s.Sound) (hend : s.window.atEnd = true) :
    production .program s = .ok [] s := by
  have hat : atEnd s = .ok true s := congrArg (EStateM.Result.ok · s) hend
  rw [production_eq_step .program hs]
  change program production s = _
  unfold program
  rw [bind_of_ok hat]
  rfl

/-- A statement that is read comes before those that follow it. -/
theorem program_cons {id : StmtId} {ids : List StmtId} {t u : ParseState} (hs : s.Sound)
    (hend : s.window.atEnd = false) (htrunc : s.reports.truncated = false)
    (hrun : production .stmt s = .ok id t) (h : production .program t = .ok ids u) :
    production .program s = .ok (id :: ids) u := by
  have hattempt : attempt (production .stmt) s = .ok (.ok id) t := by simp only [attempt, hrun]
  rw [program_eq_tried hs hend htrunc, bind_of_ok hattempt]
  exact bind_of_ok h

end Parse

end FrontEnd
