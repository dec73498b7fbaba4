import FrontEnd.Proofs.Grammar.LinkStatements
import FrontEnd.Proofs.Grammar.SteadyStatements

/-! Declarations, read in two linked runs. -/

namespace FrontEnd

namespace Parse

/-- The list of the statements of a namespace may be made after it was left. -/
theorem namespaceDecl_eq (parse : Productions) : namespaceDecl parse = (do
    let start := (← advance).span
    let (name, _) ← expectName
    let qualified ← declaredName name
    let _ ← expect .openBrace
    modify fun s => { s with scope := s.scope.pushNamespace qualified }
    let ids ← ensuring (parse .items) fun s => { s with scope := s.scope.popNamespace.2 }
    listStmt (.namesp qualified) (← spanFrom start) ids) := by
  have hlist (ids : List StmtId) (s : ParseState) : ∃ q t, addStmtList ids s = .ok q t ∧
      addStmtList ids { s with scope := s.scope.popNamespace.2 } =
        .ok q { t with scope := t.scope.popNamespace.2 } := ⟨_, _, rfl, rfl⟩
  have hbody := ensuring_bind (parse .items) addStmtList hlist
  have hitems : bodyItems parse = parse .items >>= addStmtList := rfl
  simp only [namespaceDecl, hitems, hbody, bind_assoc, ← listStmt_spanFrom]

end Parse

namespace Link

open Parse Entry

variable {l : Link} {es es' : List Entry} {s₁ s₂ t₁ t₂ : ParseState} {name : Name}
  {isConst : Bool} {parse : Productions}

theorem Taken.onto {a : Window} {k : Nat} (h : l.Taken isConst a s₁) (ho : s₁.Onto k t₁) :
    l.Taken isConst a t₁ := by
  obtain ⟨ha, hk, hc, n, hn⟩ := h
  obtain ⟨m, hm⟩ := ho.window
  exact ⟨ha, hk, hc, n + m, by rw [hm, hn, Window.drop_drop]⟩

theorem Called.onto {k : Nat} (h : l.Called isConst name s₁) (ho : s₁.Onto k t₁) :
    l.Called isConst name t₁ := by
  obtain ⟨a, ha, hn⟩ := h
  exact ⟨a, ha.onto ho, ho.names _ _ hn⟩

variable [l.Lawful]

/-- The name under which it is stored. -/
theorem firm_stored (hr : l.Rel es s₁ s₂) (hn : l.Called isConst name s₁) :
    l.Firm es (declaredName name) (declaredName name) s₁ s₂ fun a b t₁ t₂ =>
      a = b ∧ l.Rel es t₁ t₂ ∧ s₁.Onto 1 t₁ ∧ l.Origin isConst a t₁ := by
  obtain ⟨a, ha, hn⟩ := hn
  refine (firm_declaredName hr hn).imp ?_
  rintro stored _ t₁ t₂ ⟨rfl, ht, text, hs, htext⟩
  exact ⟨rfl, ht.rel, ht.onto, a, ha.onto ht.onto, text, hs, htext⟩

theorem firm_called (isConst : Bool) (hr : l.Rel es s₁ s₂) (hc : isConst = true →
    ∃ w : Window, l.Sees w ∧ w.current.kind = .kwConst ∧ s₁.window = w.after) :
    l.Firm es expectName expectName s₁ s₂ fun a b t₁ t₂ =>
      a = b ∧ l.At es s₁ s₁.window.after t₁ t₂ ∧ l.Called isConst a.1 t₁ := by
  refine (firm_expectName hr).imp ?_
  rintro a _ t₁ t₂ ⟨rfl, ht, hk, hn⟩
  obtain ⟨n, hskip, -⟩ := s₁.window.bump.skipErrors_eq
  refine ⟨rfl, ht, s₁.window, ⟨hr.sees, hk, hc, n, ?_⟩, hn⟩
  rw [ht.window, Window.after, hskip]

/-! ### Variables -/

/-- The end of the declaration of a variable. -/
theorem firm_declaredVar (es' : List Entry) {type : TypeId} {v w : Option Value}
    {init₁ init₂ : Option ExprId} (hr : l.Rel (es' ++ es) s₁ s₂) (hn : l.Called isConst name s₁)
    (hvar : ∀ {stored u₁ u₂}, l.Rel (es' ++ es) u₁ u₂ → s₁.Onto 1 u₁ →
      l.Origin isConst stored u₁ → l.Firm (es' ++ es) (declareVariable stored type isConst v)
        (declareVariable stored type isConst w) u₁ u₂ fun _ _ t₁ t₂ =>
        l.rel (.declared stored type isConst w :: (es' ++ es)) t₁ t₂)
    (hf : ∀ ret stored, Forms ret (.declared stored type isConst w :: es')
      (.varDecl stored type init₁ isConst) (.varDecl stored type init₂ isConst)) (start : Span) :
    l.Firm es (variableEnd name type init₁ isConst v start)
      (variableEnd name type init₂ isConst w start) s₁ s₂ fun m n t₁ t₂ =>
      l.Rel (.stmt m n :: es) t₁ t₂ := by
  refine (firm_expect hr .semicolon).sheds.bind ?_
  rintro _ _ t₁ t₂ ⟨-, -, ht⟩
  refine (firm_spanFrom ht.rel.same start).bind ?_
  rintro span _ _ _ ⟨rfl, rfl, rfl⟩
  refine (firm_stored ht.rel (hn.onto ht.onto)).sheds.bind ?_
  rintro stored _ u₁ u₂ ⟨rfl, hu, hou, horigin⟩
  refine ((Firm.rel (E := fun _ _ _ => .declared stored type isConst w :: (es' ++ es))
    (hvar hu (ht.onto.trans hou) horigin) hu.sound₁ hu.sound₂ (steady_declareVariable ..)
      (steady_declareVariable ..)).sheds).bind ?_
  rintro _ _ v₁ v₂ ⟨hv, -⟩
  exact firm_addStmt (.declared stored type isConst w :: es') hv (hf _ stored) span

theorem firm_initialized {declared : Option TypeId} {i j : ExprId} {a b : Window}
    (hr : l.Rel (.raw i j a b :: es) s₁ s₂)
    (hk : ∀ type, declared = some type → l.knows type s₁)
    (hn : l.Called isConst name s₁) (start : Span) :
    l.Firm es (variableDecl name declared (some i) isConst start)
      (variableDecl name declared (some j) isConst start) s₁ s₂
      fun m n t₁ t₂ => l.Rel (.stmt m n :: es) t₁ t₂ := by
  have hdeclared : declared.getD .invalid = .invalid ∨ l.knows (declared.getD .invalid) s₁ := by
    cases declared with
    | none => exact .inl rfl
    | some type => exact .inr (hk type rfl)
  have hcheck := (Lawful.initializer name hr hdeclared).onto (k := 1)
    (steady_check fun env => Check.steady_checkInitializer ..)
    (steady_check fun env => Check.steady_checkInitializer ..) hr.sound₁ hr.sound₂
  refine hcheck.bind ?_
  rintro type _ t₁ t₂ ⟨⟨rfl, ht⟩, ho₁, ho₂⟩
  refine (firm_fold ⟨ho₁.sound, ho₂.sound, ht⟩).bind ?_
  rintro v w u₁ u₂ ⟨hu, hou⟩
  exact firm_declaredVar [.folded i j v w (.stored type)] hu (hn.onto (ho₁.trans hou))
    (fun hr' _ horigin => Lawful.var hr' horigin) (fun _ _ => .var) start

theorem firm_uninitialized {type : TypeId} (hr : l.Rel es s₁ s₂) (hk : l.knows type s₁)
    (hn : l.Called isConst name s₁) (start : Span) :
    l.Firm es (variableDecl name (some type) none isConst start)
      (variableDecl name (some type) none isConst start) s₁ s₂
      fun m n t₁ t₂ => l.Rel (.stmt m n :: es) t₁ t₂ := by
  have htype : l.Firm es (variableType name type none isConst start)
      (variableType name type none isConst start) s₁ s₂ fun a b t₁ t₂ =>
        a = type ∧ a = b ∧ l.Rel es t₁ t₂ ∧ s₁.Onto 1 t₁ := by
    unfold variableType
    cases isConst with
    | false => exact firm_pure ⟨rfl, rfl, hr, hr.sound₁.refl 1⟩
    | true =>
      refine (firm_spanFrom hr.same start).bind ?_
      rintro span _ _ _ ⟨rfl, rfl, rfl⟩
      refine (firm_quote hr.same name).bind ?_
      rintro quoted _ _ _ ⟨rfl, rfl, rfl⟩
      refine (firm_report hr (by decide) ..).bind ?_
      rintro _ _ t₁ t₂ ⟨ht, -⟩
      exact firm_pure ⟨rfl, rfl, ht.rel, ht.onto⟩
  refine htype.bind ?_
  rintro _ _ t₁ t₂ ⟨rfl, rfl, ht, hot⟩
  refine (firm_pure (a := none) (b := none) (R := fun v w u₁ u₂ => none = v ∧ none = w ∧
    t₁ = u₁ ∧ t₂ = u₂) ⟨rfl, rfl, rfl, rfl⟩).bind ?_
  rintro _ _ _ _ ⟨rfl, rfl, rfl, rfl⟩
  exact firm_declaredVar [] ht (hn.onto hot)
    (fun hr' ho horigin => Lawful.bare hr' (knows_onto hk (hot.trans ho)) horigin)
    (fun _ _ => .bare)
    start

/-! ### Functions -/

theorem firm_declareFunction {type : TypeId} {signature : Signature} {stored : Name}
    {isNative : Bool} (hr : l.Rel es s₁ s₂) (hk : l.knows type s₁)
    (hs : s₁.types.function? type = .ok (some signature)) :
    l.Firm es (declareFunction stored type signature isNative)
      (declareFunction stored type signature isNative) s₁ s₂ fun a b t₁ t₂ =>
      a = b ∧ l.Rel (.function a type :: es) t₁ t₂ ∧ s₁.Onto 0 t₁ := by
  refine ((Lawful.function hr hk hs).onto (steady_declareFunction ..)
    (steady_declareFunction ..) hr.sound₁ hr.sound₂).imp ?_
  rintro a b t₁ t₂ ⟨⟨hab, ht⟩, ho₁, ho₂⟩
  exact ⟨hab, ⟨ho₁.sound, ho₂.sound, ht⟩, ho₁⟩

/-- A function from its body on. -/
theorem Linked.bodyEnd (es' : List Entry) {type : TypeId} {stored mangled : Name}
    (h : l.Linked parse)
    (hr : l.Rel (es' ++ es) s₁ s₂) (hk : l.knows type s₁)
    (hf : ∀ ret m n, Forms ret (.bodyStmt type m n :: es')
      (.funcDecl stored mangled type (some m) false)
      (.funcDecl stored mangled type (some n) false)) (start : Span) :
    l.Gives es (Parse.bodyEnd parse stored mangled type start)
      (Parse.bodyEnd parse stored mangled type start) s₁ s₂ := by
  have hrest (body : StmtId) : Steady 0 (do
      addStmt (.funcDecl stored mangled type (some body) false) (← spanFrom start)) :=
    (steady_spanFrom _).bind fun _ => steady_addStmt ..
  refine (h.functionBody hr hk).sheds.bind hrest hrest ?_
  intro m n t₁ t₂ ht
  exact .firm (firm_spanStmt (.bodyStmt type m n :: es') ht (hf _ m n) start)

theorem Linked.functionEnd {type : TypeId} (h : l.Linked parse) (hr : l.Rel es s₁ s₂)
    (hk : l.knows type s₁) (hn : l.Called isConst name s₁) (start : Span) :
    l.Gives es (Parse.functionEnd parse name type start) (Parse.functionEnd parse name type start)
      s₁ s₂ := by
  refine (firm_stored hr hn).bind_pair ?_
  rintro stored _ t₁ t₂ ⟨rfl, ht, hot, -⟩
  have hkt := knows_onto hk hot
  refine pair_get_bind ?_
  rw [← ht.same.types]
  refine (firm_ofFault (faults_function? (Moves.known hkt))).bind_pair ?_
  rintro signature _ _ _ ⟨hs, rfl, rfl, rfl⟩
  cases signature with
  | none =>
    refine pair_bind_of_ok (a := stored) (b := stored) rfl rfl ?_
    exact Linked.bodyEnd [] h ht hkt (fun _ _ _ => .alias) start
  | some signature =>
    refine (firm_declareFunction ht hkt hs).bind_pair ?_
    rintro mangled _ u₁ u₂ ⟨rfl, hu, hou⟩
    exact Linked.bodyEnd [.function mangled type] h hu (knows_onto hkt hou) (fun _ _ _ => .func)
      start

theorem Linked.functionDecl {declared : Option TypeId} (h : l.Linked parse)
    (hr : l.Rel es s₁ s₂) (hd : ∀ type, declared = some type → l.knows type s₁)
    (hn : l.Called isConst name s₁) (start : Span) :
    l.Gives es (Parse.functionDecl parse name declared start)
      (Parse.functionDecl parse name declared start) s₁ s₂ := by
  refine (firm_advance hr).bind_pair ?_
  rintro func _ t₁ t₂ ⟨-, rfl, ht⟩
  have hsig := steady_signature h.steady
  refine ((h.signature ht.rel).onto hsig hsig ht.rel.sound₁ ht.rel.sound₂).bind_pair ?_
  rintro type _ u₁ u₂ ⟨⟨rfl, hu, hk⟩, hou, -⟩
  have ho' := ht.onto.trans hou
  refine (firm_spanFrom hu.same func.span).bind_pair ?_
  rintro span _ _ _ ⟨rfl, rfl, rfl⟩
  dsimp only
  split
  · rename_i wanted hwanted
    have hkw : l.knows wanted u₁ :=
      knows_onto (hd wanted (Option.filter_eq_some_iff.1 hwanted).1) ho'
    refine pair_get_bind ?_
    rw [← hu.same.types]
    refine (firm_ofFault (faults_equal (Moves.known hkw) (Moves.known hk))).bind_pair ?_
    rintro equal _ _ _ ⟨-, rfl, rfl, rfl⟩
    cases equal with
    | true => exact h.functionEnd hu hk (hn.onto ho') start
    | false =>
      refine (firm_quote hu.same name).bind_pair ?_
      rintro quoted _ _ _ ⟨rfl, rfl, rfl⟩
      refine (firm_quoteType hu hkw).bind_pair ?_
      rintro quotedType _ _ _ ⟨rfl, rfl, rfl⟩
      refine (firm_quoteType hu hk).bind_pair ?_
      rintro found _ _ _ ⟨rfl, rfl, rfl⟩
      refine (firm_report hu (by decide) ..).bind_pair ?_
      rintro _ _ v₁ v₂ ⟨hv, -⟩
      exact h.functionEnd hv.rel (knows_onto hk hv.onto) (hn.onto (ho'.trans hv.onto)) start
  · exact h.functionEnd hu hk (hn.onto ho') start

theorem firm_nativeEnd {type : TypeId} {signature : Option Signature} (hr : l.Rel es s₁ s₂)
    (hk : l.knows type s₁) (hn : l.Called false name s₁)
    (hs : s₁.types.function? type = .ok signature)
    (hnone : signature = none → 0 < s₁.reports.reports.size ∨ type = .invalid) (start : Span) :
    l.Firm es (nativeEnd name type signature start) (nativeEnd name type signature start) s₁ s₂
      fun m n t₁ t₂ => l.Rel (.stmt m n :: es) t₁ t₂ := by
  refine (firm_expect hr .semicolon).bind ?_
  rintro _ _ t₁ t₂ ⟨-, -, ht⟩
  refine (firm_spanFrom ht.rel.same start).bind ?_
  rintro span _ _ _ ⟨rfl, rfl, rfl⟩
  cases signature with
  | none =>
    refine firm_errorStmt ht.rel ((hnone rfl).imp (fun hpos => ?_) ?_) span
    · exact hpos.trans_le ht.onto.reports
    · rintro rfl
      exact knows_onto hk ht.onto
  | some signature =>
    refine (firm_stored ht.rel (hn.onto ht.onto)).bind ?_
    rintro stored _ u₁ u₂ ⟨rfl, hu, hou, -⟩
    have hou' := ht.onto.trans hou
    have hfunction : u₁.types.function? type = .ok (some signature) :=
      TypeTable.Grows.function? hou'.types hs
    refine (firm_declareFunction hu (knows_onto hk hou') hfunction).bind ?_
    rintro mangled _ v₁ v₂ ⟨rfl, hv, -⟩
    exact firm_addStmt [.function mangled type] hv .native span

theorem Linked.native (h : l.Linked parse) (hr : l.Rel es s₁ s₂) :
    l.Firm es (Parse.native parse) (Parse.native parse) s₁ s₂ fun m n t₁ t₂ =>
      l.Rel (.stmt m n :: es) t₁ t₂ := by
  refine (firm_advance hr).bind ?_
  rintro token _ t₁ t₂ ⟨-, rfl, ht⟩
  refine (firm_called false ht.rel (by simp)).bind ?_
  rintro ⟨name, nameSpan⟩ _ u₁ u₂ ⟨rfl, hu, hn⟩
  refine (firm_expect hu.rel .colon).bind ?_
  rintro _ _ v₁ v₂ ⟨-, -, hv⟩
  refine (firm_currentSpan hv.rel.same).bind ?_
  rintro typeStart _ _ _ ⟨rfl, rfl, rfl⟩
  refine ((h.type hv.rel).onto (h.steady _) (h.steady _) hv.rel.sound₁ hv.rel.sound₂).bind ?_
  rintro type _ w₁ w₂ ⟨⟨rfl, hw, hk⟩, how, -⟩
  have hnw : l.Called false name w₁ := (hn.onto hv.onto).onto how
  refine (firm_spanFrom hw.same typeStart).bind ?_
  rintro typeSpan _ _ _ ⟨rfl, rfl, rfl⟩
  refine firm_get_bind ?_
  rw [← hw.same.types]
  refine (firm_ofFault (faults_function? (Moves.known hk))).bind ?_
  rintro signature _ _ _ ⟨hs, rfl, rfl, rfl⟩
  dsimp only
  split
  · refine (firm_quote hw.same name).bind ?_
    rintro quoted _ _ _ ⟨rfl, rfl, rfl⟩
    refine (firm_quoteType hw hk).bind ?_
    rintro found _ _ _ ⟨rfl, rfl, rfl⟩
    refine (firm_report hw (by decide) ..).bind ?_
    rintro _ _ x₁ x₂ ⟨hx, hpos⟩
    exact firm_nativeEnd hx.rel (knows_onto hk hx.onto) (hnw.onto hx.onto)
      (TypeTable.Grows.function? hx.onto.types hs) (fun _ => .inl hpos) token.span
  · rename_i hvalid
    refine firm_nativeEnd hw hk hnw hs (fun hnone => .inr ?_) token.span
    exact Decidable.byContradiction fun hne => hvalid ⟨by rw [hnone]; rfl, hne⟩

/-! ### Declarations by form -/

theorem Linked.initializerEnd {declared : Option TypeId} (h : l.Linked parse)
    (hr : l.Rel es s₁ s₂) (hk : ∀ type, declared = some type → l.knows type s₁)
    (hn : l.Called isConst name s₁) (start : Span) :
    l.Gives es (Parse.initializerEnd parse name declared isConst start)
      (Parse.initializerEnd parse name declared isConst start) s₁ s₂ := by
  refine (firm_currentIs hr.same .kwFunc).bind_pair ?_
  rintro func _ _ _ ⟨rfl, rfl, rfl, -⟩
  cases func with
  | true => exact h.functionDecl hr hk hn start
  | false =>
    refine (h.whole hr .assign true).bind (fun _ => (stores_variableDecl ..).steady)
      (fun _ => (stores_variableDecl ..).steady) ?_
    rintro i j t₁ t₂ ⟨a, b, ht, hot⟩
    exact .firm (firm_initialized ht (fun type hsome => knows_onto (hk type hsome) hot)
      (hn.onto hot) start)

theorem Linked.declaration (h : l.Linked parse) (hr : l.Rel es s₁ s₂) (hc : isConst = true →
      ∃ w : Window, l.Sees w ∧ w.current.kind = .kwConst ∧ s₁.window = w.after) (start : Span) :
    l.Gives es (Parse.declaration parse isConst start) (Parse.declaration parse isConst start)
      s₁ s₂ := by
  refine (firm_called isConst hr hc).bind_pair ?_
  rintro ⟨name, nameSpan⟩ _ t₁ t₂ ⟨rfl, ht, hn⟩
  refine (firm_expect ht.rel .colon).bind_pair ?_
  rintro _ _ u₁ u₂ ⟨-, -, hu⟩
  have hnu := hn.onto hu.onto
  refine (firm_currentIs hu.rel.same .equal).bind_pair ?_
  rintro untyped _ _ _ ⟨rfl, rfl, rfl, huntyped⟩
  cases untyped with
  | true =>
    refine pair_bind_of_ok (a := none) (b := none) rfl rfl ?_
    refine (firm_eat hu.rel .equal).bind_pair ?_
    rintro equal _ v₁ v₂ ⟨rfl, hv, hk, -⟩
    obtain rfl : equal = true := hk.2 (huntyped.1 rfl)
    exact h.initializerEnd hv.rel (by simp) (hnu.onto hv.onto) start
  | false =>
    have htype : l.Firm es (some <$> parse .type) (some <$> parse .type) u₁ u₂
        fun a b v₁ v₂ => a = b ∧ l.Rel es v₁ v₂ ∧ u₁.Onto 1 v₁ ∧
          ∃ type, a = some type ∧ l.knows type v₁ := by
      rw [map_eq_pure_bind]
      refine ((h.type hu.rel).onto (h.steady _) (h.steady _) hu.rel.sound₁ hu.rel.sound₂).bind ?_
      rintro type _ v₁ v₂ ⟨⟨rfl, hv, hk⟩, hov, -⟩
      exact firm_pure ⟨rfl, hv, hov, type, rfl, hk⟩
    refine htype.bind_pair ?_
    rintro _ _ v₁ v₂ ⟨rfl, hv, hov, type, rfl, hk⟩
    refine (firm_eat hv .equal).bind_pair ?_
    rintro equal _ w₁ w₂ ⟨rfl, hw, -, -⟩
    have how := hov.trans hw.onto
    have hkw := knows_onto hk hw.onto
    cases equal with
    | true =>
      refine h.initializerEnd hw.rel ?_ (hnu.onto how) start
      rintro _ ⟨⟩
      exact hkw
    | false =>
      exact .firm (firm_uninitialized hw.rel hkw (hnu.onto how) start)

theorem Linked.constant (h : l.Linked parse) (hr : l.Rel es s₁ s₂)
    (hk : s₁.window.current.kind = .kwConst) :
    l.Gives es (Parse.constant parse) (Parse.constant parse) s₁ s₂ := by
  refine pair_get_bind ?_
  rw [← hr.same.window]
  refine (firm_advance hr).bind_pair ?_
  rintro token _ t₁ t₂ ⟨-, rfl, ht⟩
  dsimp only
  split
  · exact h.declaration ht.rel
      (fun _ => ⟨s₁.window, hr.sees, hk, ht.window⟩) token.span
  · exact .firm (firm_unexpected ht.rel _)

theorem Linked.readFields {done : List Field} (h : l.Linked parse) (hr : l.Rel es s₁ s₂)
    (hdone : ∀ field ∈ done, l.knows field.type s₁) :
    l.Firm es (Parse.fields parse done) (Parse.fields parse done) s₁ s₂ fun a b t₁ t₂ =>
      a = b ∧ l.Rel es t₁ t₂ ∧ ∀ field ∈ a, l.knows field.type t₁ := by
  refine (firm_currentIs hr.same .closeBrace).bind ?_
  rintro closed _ _ _ ⟨rfl, rfl, rfl, -⟩
  cases closed with
  | true => exact firm_pure ⟨rfl, hr, hdone⟩
  | false =>
    refine (firm_atEnd hr.same).bind ?_
    rintro ended _ _ _ ⟨rfl, rfl, rfl, -⟩
    cases ended with
    | true => exact firm_pure ⟨rfl, hr, hdone⟩
    | false =>
      refine (firm_expectName hr).bind ?_
      rintro ⟨name, span⟩ _ t₁ t₂ ⟨rfl, ht, -⟩
      refine (firm_expect ht.rel .colon).bind ?_
      rintro _ _ u₁ u₂ ⟨-, -, hu⟩
      refine ((h.type hu.rel).onto (h.steady _) (h.steady _) hu.rel.sound₁ hu.rel.sound₂).bind ?_
      rintro type _ v₁ v₂ ⟨⟨rfl, hv, hk⟩, hov, -⟩
      refine (firm_expect hv .semicolon).bind ?_
      rintro _ _ w₁ w₂ ⟨-, -, hw⟩
      have how := ht.onto.trans (hu.onto.trans (hov.trans hw.onto))
      have hall : ∀ field ∈ done, l.knows field.type w₁ :=
        fun field hf => knows_onto (hdone field hf) how
      split
      · refine (firm_quote hw.rel.same name).bind ?_
        rintro quoted _ _ _ ⟨rfl, rfl, rfl⟩
        refine (firm_report hw.rel (by decide) ..).bind ?_
        rintro _ _ x₁ x₂ ⟨hx, -⟩
        exact h.fields hx.rel fun field hf => knows_onto (hall field hf) hx.onto
      · refine h.fields hw.rel fun field hf => ?_
        rcases List.mem_append.1 hf with hf | hf
        · exact hall field hf
        · obtain rfl := List.mem_singleton.1 hf
          exact knows_onto hk hw.onto

theorem Linked.readVariants (h : l.Linked parse) (hr : l.Rel es s₁ s₂) :
    l.Firm es (Parse.variants parse) (Parse.variants parse) s₁ s₂ fun a b t₁ t₂ =>
      a = b ∧ l.Rel es t₁ t₂ := by
  refine (firm_currentIs hr.same .closeBrace).bind ?_
  rintro closed _ _ _ ⟨rfl, rfl, rfl, -⟩
  cases closed with
  | true => exact firm_pure ⟨rfl, hr⟩
  | false =>
    refine (firm_expectName hr).bind ?_
    rintro ⟨variant, span⟩ _ t₁ t₂ ⟨rfl, ht, -⟩
    refine (firm_eat ht.rel .comma).bind ?_
    rintro more _ u₁ u₂ ⟨rfl, hu, -⟩
    cases more with
    | false => exact firm_pure ⟨rfl, hu.rel⟩
    | true =>
      refine (h.variants hu.rel).bind ?_
      rintro rest _ v₁ v₂ ⟨rfl, hv⟩
      exact firm_pure ⟨rfl, hv⟩

theorem firm_closeType (hr : l.Rel es s₁ s₂) (start : Span) :
    l.Firm es (closeType start) (closeType start) s₁ s₂ fun a b t₁ t₂ =>
      a = b ∧ l.Rel es t₁ t₂ ∧ s₁.Onto 1 t₁ := by
  refine (firm_expect hr .closeBrace).bind ?_
  rintro _ _ t₁ t₂ ⟨-, -, ht⟩
  refine (firm_eat ht.rel .semicolon).bind ?_
  rintro _ _ u₁ u₂ ⟨-, hu, -⟩
  refine (firm_spanFrom hu.rel.same start).imp ?_
  rintro span _ _ _ ⟨rfl, rfl, rfl⟩
  exact ⟨rfl, hu.rel, ht.onto.trans hu.onto⟩

/-- A struct or enum, where something is known of the members that were read. -/
theorem Linked.typeDecl {members : Production} {kind : members.Result → Name → TypeKind}
    {form : Name → TypeId → StmtKind} {K : members.Result → ParseState → Prop} (h : l.Linked parse)
    (hm : ∀ v₁ v₂, l.Rel es v₁ v₂ →
      l.Firm es (parse members) (parse members) v₁ v₂ fun a b w₁ w₂ =>
        a = b ∧ l.Rel es w₁ w₂ ∧ K a w₁)
    (hd : ∀ name read w₁ x₁ x₂, K read w₁ → w₁.Onto 1 x₁ → l.Rel es x₁ x₂ →
      l.Called false name x₁ →
      l.Firm es (declareType name fun types stored => types.add (kind read stored) stored)
        (declareType name fun types stored => types.add (kind read stored) stored) x₁ x₂
        fun a b t₁ t₂ => a = b ∧ l.rel es t₁ t₂)
    (hform : form = .structDecl ∨ form = .enumDecl) (hr : l.Rel es s₁ s₂) :
    l.Firm es (typeDecl parse members kind form) (typeDecl parse members kind form) s₁ s₂
      fun m n t₁ t₂ => l.Rel (.stmt m n :: es) t₁ t₂ := by
  refine (firm_advance hr).bind ?_
  rintro token _ t₁ t₂ ⟨-, rfl, ht⟩
  refine (firm_called false ht.rel (by simp)).bind ?_
  rintro ⟨name, span⟩ _ u₁ u₂ ⟨rfl, hu, hn⟩
  refine (firm_expect hu.rel .openBrace).bind ?_
  rintro _ _ v₁ v₂ ⟨-, -, hv⟩
  refine ((hm v₁ v₂ hv.rel).onto (h.steady _) (h.steady _) hv.rel.sound₁ hv.rel.sound₂).bind ?_
  rintro read _ w₁ w₂ ⟨⟨rfl, hw, hk⟩, how, -⟩
  refine (firm_closeType hw token.span).bind ?_
  rintro whole _ x₁ x₂ ⟨rfl, hx, hox⟩
  have hnx := ((hn.onto hv.onto).onto how).onto hox
  have hadd (types : TypeTable) (stored : Name) (id : TypeId) (types' : TypeTable)
      (hs : types.Sound) (ha : types.add (kind read stored) stored = .ok (id, types')) :
      types'.Sound ∧ types.Grows types' :=
    ⟨(hs.add ha).1, (hs.add ha).2.2.1⟩
  refine ((hd name read w₁ x₁ x₂ hk hox hx hnx).onto (steady_declareType name hadd)
    (steady_declareType name hadd) hx.sound₁ hx.sound₂).bind ?_
  rintro ⟨stored, type⟩ _ y₁ y₂ ⟨⟨rfl, hy⟩, ho₁, ho₂⟩
  rcases hform with rfl | rfl
  · exact firm_addStmt [] ⟨ho₁.sound, ho₂.sound, hy⟩ .struct whole
  · exact firm_addStmt [] ⟨ho₁.sound, ho₂.sound, hy⟩ .enum whole

theorem Linked.structDecl (h : l.Linked parse) (hr : l.Rel es s₁ s₂) :
    l.Firm es (Parse.structDecl parse) (Parse.structDecl parse) s₁ s₂ fun m n t₁ t₂ =>
      l.Rel (.stmt m n :: es) t₁ t₂ := by
  rw [structDecl_eq]
  refine h.typeDecl (K := fun fields s => ∀ field ∈ fields, l.knows field.type s)
    (fun _ _ hv => h.fields hv (by simp)) ?_ (.inl rfl) hr
  intro name fields w₁ x₁ x₂ hk ho hx hn
  exact Lawful.struct hx hn fun field hf => knows_onto (hk field hf) ho

theorem Linked.enumDecl (h : l.Linked parse) (hr : l.Rel es s₁ s₂) :
    l.Firm es (Parse.enumDecl parse) (Parse.enumDecl parse) s₁ s₂ fun m n t₁ t₂ =>
      l.Rel (.stmt m n :: es) t₁ t₂ := by
  rw [enumDecl_eq]
  refine h.typeDecl (K := fun _ _ => True) (fun _ _ hv => (h.variants hv).imp ?_)
    (fun _ _ _ _ _ _ _ hx hn => Lawful.enum hx hn) (.inr rfl) hr
  rintro _ _ _ _ ⟨he, hw⟩
  exact ⟨he, hw, trivial⟩

theorem Linked.namespaceDecl (h : l.Linked parse) (hr : l.Rel es s₁ s₂) :
    l.Gives es (Parse.namespaceDecl parse) (Parse.namespaceDecl parse) s₁ s₂ := by
  rw [namespaceDecl_eq]
  refine (firm_advance hr).bind_pair ?_
  rintro token _ t₁ t₂ ⟨-, rfl, ht⟩
  refine (firm_expectName ht.rel).bind_pair ?_
  rintro ⟨name, span⟩ _ u₁ u₂ ⟨rfl, hu, -, hn⟩
  refine (firm_declaredName hu.rel hn).bind_pair ?_
  rintro qualified _ v₁ v₂ ⟨rfl, hv, -⟩
  refine (firm_expect hv.rel .openBrace).bind_pair ?_
  rintro _ _ w₁ w₂ ⟨-, -, hw⟩
  have hopened : l.Rel es (w₁.shift (·.pushNamespace qualified) id)
      (w₂.shift (·.pushNamespace qualified) id) := hw.rel.shift fun _ => rfl
  have hopen (s : ParseState) : (modify fun s => { s with
      scope := s.scope.pushNamespace qualified } : Parse PUnit) s =
      .ok ⟨⟩ (s.shift (·.pushNamespace qualified) id) := rfl
  refine pair_bind_of_ok (hopen w₁) (hopen w₂) ?_
  refine Pair.bind (Pair.shifted (·.popNamespace.2) (h.items hopened) hopened.sound₁
    hopened.sound₂ (h.steady .items) (h.steady .items) Scope.depth_popNamespace)
    steady_spanList steady_spanList ?_
  rintro is js x₁ x₂ ⟨es', hes, hx⟩
  exact .firm (firm_listStmt es' hx (.namesp hes) token.span)

theorem Linked.readPath (h : l.Linked parse) (hr : l.Rel es s₁ s₂) :
    l.Firm es (Parse.path parse name) (Parse.path parse name) s₁ s₂ fun a b t₁ t₂ =>
      a = b ∧ l.Rel es t₁ t₂ := by
  refine (firm_eat hr .dot).bind ?_
  rintro dot _ t₁ t₂ ⟨rfl, ht, -⟩
  cases dot with
  | false => exact firm_pure ⟨rfl, ht.rel⟩
  | true =>
    refine (firm_expectName ht.rel).bind ?_
    rintro ⟨segment, span⟩ _ u₁ u₂ ⟨rfl, hu, -⟩
    refine (firm_qualify hu.rel ..).bind ?_
    rintro qualified _ v₁ v₂ ⟨rfl, hv, -⟩
    exact h.path hv.rel

theorem Linked.usingDecl (h : l.Linked parse) (hr : l.Rel es s₁ s₂) :
    l.Firm es (Parse.usingDecl parse) (Parse.usingDecl parse) s₁ s₂ fun m n t₁ t₂ =>
      l.Rel (.stmt m n :: es) t₁ t₂ := by
  refine (firm_advance hr).bind ?_
  rintro token _ t₁ t₂ ⟨-, rfl, ht⟩
  refine (firm_expectName ht.rel).bind ?_
  rintro ⟨first, span⟩ _ u₁ u₂ ⟨rfl, hu, -⟩
  refine (h.path hu.rel).bind ?_
  rintro path _ v₁ v₂ ⟨rfl, hv⟩
  refine (firm_expect hv .semicolon).bind ?_
  rintro _ _ w₁ w₂ ⟨-, -, hw⟩
  refine (firm_spanFrom hw.rel.same token.span).bind ?_
  rintro whole _ _ _ ⟨rfl, rfl, rfl⟩
  have htarget : l.Firm es (usingTarget path) (usingTarget path) w₁ w₂ fun a b x₁ x₂ =>
      a = b ∧ w₁ = x₁ ∧ w₂ = x₂ := by
    refine .ok rfl rfl ⟨?_, rfl, rfl⟩
    rw [hw.rel.same.scope, hw.rel.same.names, hw.rel.same.scratch]
  refine htarget.bind ?_
  rintro target _ _ _ ⟨rfl, rfl, rfl⟩
  have hused : l.Rel es (w₁.shift (·.pushUsing target) id) (w₂.shift (·.pushUsing target) id) :=
    hw.rel.shift fun _ => rfl
  have huse (s : ParseState) : (modify fun s => { s with
      scope := s.scope.pushUsing target } : Parse PUnit) s =
      .ok ⟨⟩ (s.shift (·.pushUsing target) id) := rfl
  refine Firm.bind (firm_of_ok (R := fun _ _ x₁ x₂ => l.Rel es x₁ x₂) (huse w₁) (huse w₂) hused) ?_
  intro _ _ x₁ x₂ hx
  exact firm_addStmt [] hx .using whole

/-! ### All statements -/

theorem Linked.statement (h : l.Linked parse) (hr : l.Rel es s₁ s₂) :
    l.Gives es (Parse.statement parse) (Parse.statement parse) s₁ s₂ := by
  refine (firm_beginStatement hr).bind_pair ?_
  intro _ _ t₁ t₂ ht
  refine (firm_current ht.rel.same).bind_pair ?_
  rintro token _ _ _ ⟨htoken, rfl, rfl, rfl⟩
  split
  · exact h.returnStmt ht.rel
  · exact h.printStmt ht.rel
  · exact h.ifStmt ht.rel
  · exact h.whileStmt ht.rel
  · exact h.doStmt ht.rel
  · exact h.block ht.rel
  · exact .firm (h.structDecl ht.rel)
  · exact .firm (h.enumDecl ht.rel)
  · exact h.namespaceDecl ht.rel
  · exact .firm (h.usingDecl ht.rel)
  · exact .firm (h.native ht.rel)
  · rename_i hk
    exact h.constant ht.rel (htoken ▸ hk)
  · exact firm_emptyStmt ht.rel
  · refine (firm_nextIs ht.rel.same .colon).bind_pair ?_
    rintro colon _ _ _ ⟨rfl, rfl, rfl, -⟩
    cases colon with
    | false => exact h.exprStmt ht.rel
    | true =>
      refine (firm_currentSpan ht.rel.same).bind_pair ?_
      rintro start _ _ _ ⟨rfl, rfl, rfl⟩
      exact h.declaration ht.rel (by simp) start
  · exact h.exprStmt ht.rel

end Link

end FrontEnd
