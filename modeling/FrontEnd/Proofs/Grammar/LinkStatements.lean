import FrontEnd.Proofs.Grammar.LinkExpressions

/-! Statements, read in two linked runs. -/

namespace FrontEnd

namespace Link

open Parse Entry

variable {l : Link} {α : Type} {es es' : List Entry} {s₁ s₂ t₁ t₂ : ParseState}
  {i j : ExprId} {a b : Window} {parse : Productions} {p₁ p₂ : Parse StmtId}

/-- A statement was read. -/
abbrev Gives (l : Link) (es : List Entry) (p₁ p₂ : Parse StmtId) (s₁ s₂ : ParseState) : Prop :=
  l.Pair es p₁ p₂ s₁ s₂ fun m n t₁ t₂ => l.Rel (.stmt m n :: es) t₁ t₂

variable [l.Lawful]

/-! ### Ends of statements -/

theorem firm_addStmt (es' : List Entry) {m n : StmtKind} (hr : l.Rel (es' ++ es) s₁ s₂)
    (hf : Forms s₁.returns.head? es' m n)
    (span : Span) : l.Firm es (addStmt m span) (addStmt n span) s₁ s₂ fun m n t₁ t₂ =>
      l.Rel (.stmt m n :: es) t₁ t₂ :=
  (Firm.rel (k := 0) (E := fun m n _ => .stmt m n :: es) (Lawful.stmt span hf hr) hr.sound₁
    hr.sound₂ (steady_addStmt ..) (steady_addStmt ..)).imp fun _ _ _ _ ht => ht.1

theorem firm_errorStmt (hr : l.Rel es s₁ s₂)
    (hf : 0 < s₁.reports.reports.size ∨ l.knows .invalid s₁)
    (span : Span) : l.Firm es (addStmt .error span) (addStmt .error span) s₁ s₂ fun m n t₁ t₂ =>
      l.Rel (.stmt m n :: es) t₁ t₂ :=
  (Firm.rel (k := 0) (E := fun m n _ => .stmt m n :: es) (Lawful.flaw span hr hf) hr.sound₁
    hr.sound₂ (steady_addStmt ..) (steady_addStmt ..)).imp fun _ _ _ _ ht => ht.1

/-- The statement ends with the last token. -/
theorem firm_spanStmt (es' : List Entry) {m n : StmtKind} (hr : l.Rel (es' ++ es) s₁ s₂)
    (hf : Forms s₁.returns.head? es' m n)
    (start : Span) :
    l.Firm es (do addStmt m (← spanFrom start)) (do addStmt n (← spanFrom start)) s₁ s₂
      fun m n t₁ t₂ => l.Rel (.stmt m n :: es) t₁ t₂ := by
  refine (firm_spanFrom hr.same start).bind ?_
  rintro span _ _ _ ⟨rfl, rfl, rfl⟩
  exact firm_addStmt es' hr hf span

theorem firm_closeStmt (hr : l.Rel es s₁ s₂) (start : Span) :
    l.Firm es (closeStmt start) (closeStmt start) s₁ s₂ fun a b t₁ t₂ =>
      a = b ∧ l.Rel es t₁ t₂ ∧ s₁.Onto 1 t₁ := by
  refine (firm_expect hr .semicolon).bind ?_
  rintro _ _ t₁ t₂ ⟨-, -, ht⟩
  refine (firm_spanFrom ht.rel.same start).imp ?_
  rintro span _ _ _ ⟨rfl, rfl, rfl⟩
  exact ⟨rfl, ht.rel, ht.onto⟩

/-- The statement ends with a semicolon. -/
theorem firm_closedStmt (es' : List Entry) {m n : StmtKind} (hr : l.Rel (es' ++ es) s₁ s₂)
    (hf : Forms s₁.returns.head? es' m n)
    (start : Span) :
    l.Firm es (do addStmt m (← closeStmt start)) (do addStmt n (← closeStmt start)) s₁ s₂
      fun m n t₁ t₂ => l.Rel (.stmt m n :: es) t₁ t₂ := by
  refine (firm_closeStmt hr start).sheds.bind ?_
  rintro span _ t₁ t₂ ⟨rfl, ht, hot⟩
  exact firm_addStmt es' ht (hot.returns ▸ hf) span

/-! ### Expressions of statements -/

omit [l.Lawful] in
theorem Linked.whole (h : l.Linked parse) (hr : l.Rel es s₁ s₂) (least : Level) (isValue : Bool) :
    l.Pair es (parse (.expr least isValue)) (parse (.expr least isValue)) s₁ s₂ fun i j t₁ t₂ =>
      ∃ a b, l.Rel (.raw i j a b :: es) t₁ t₂ ∧ s₁.Onto 1 t₁ := by
  refine ((h.expr hr).onto (h.steady _) (h.steady _) hr.sound₁ hr.sound₂).imp ?_
  rintro i j t₁ t₂ ⟨ht, hot, -⟩
  exact ⟨s₁.window, t₁.window, ht, hot⟩

theorem firm_fold {purpose : Purpose} (hr : l.Rel (.checked i j purpose :: es) s₁ s₂) :
    l.Firm es (fold i) (fold j) s₁ s₂ fun v w t₁ t₂ =>
      l.Rel (.folded i j v w purpose :: es) t₁ t₂ ∧ s₁.Onto 1 t₁ :=
  Firm.rel (E := fun v w _ => .folded i j v w purpose :: es) (Lawful.fold hr) hr.sound₁ hr.sound₂
    (steady_fold i) (steady_fold j)

omit [l.Lawful] in
/-- A complete expression: how a check leaves it. -/
theorem Firm.checks {p₁ p₂ : Env → Check α} (hr : l.Rel (.raw i j a b :: es) s₁ s₂)
    {purpose : Purpose}
    (hp : l.Firm es (check p₁) (check p₂) s₁ s₂ fun _ _ t₁ t₂ =>
      l.rel (.checked i j purpose :: es) t₁ t₂)
    (h₁ : ∀ env, Check.Steady env (p₁ env)) (h₂ : ∀ env, Check.Steady env (p₂ env)) :
    l.Firm es (check p₁) (check p₂) s₁ s₂ fun _ _ t₁ t₂ =>
      l.Rel (.checked i j purpose :: es) t₁ t₂ ∧ s₁.Onto 1 t₁ :=
  Firm.rel (E := fun _ _ _ => .checked i j purpose :: es) hp hr.sound₁ hr.sound₂ (steady_check h₁)
    (steady_check h₂)

theorem Linked.condition (h : l.Linked parse) (hr : l.Rel es s₁ s₂) :
    l.Pair es (Parse.condition parse) (Parse.condition parse) s₁ s₂ fun i j t₁ t₂ =>
      ∃ v w, l.Rel (.folded i j v w .free :: es) t₁ t₂ := by
  have hrest (cond : ExprId) : Steady 0 (do
      check fun env => Check.checkCondition env cond
      let _ ← fold cond
      return cond) :=
    (steady_check fun env => Check.steady_checkCondition cond).bind fun _ =>
      (steady_fold cond).bind fun _ => keeps_pure _
  refine (h.whole hr .assign true).bind hrest hrest ?_
  rintro i j t₁ t₂ ⟨a, b, ht, -⟩
  refine (Firm.checks ht (Lawful.condition ht) (fun _ => Check.steady_checkCondition i) fun _ =>
    Check.steady_checkCondition j).bind_pair ?_
  rintro _ _ u₁ u₂ ⟨hu, -⟩
  refine (firm_fold hu).bind_pair ?_
  rintro v w v₁ v₂ ⟨hv, -⟩
  exact .firm (firm_pure ⟨v, w, hv⟩)

/-! ### Statements -/

theorem Linked.exprStmt (h : l.Linked parse) (hr : l.Rel es s₁ s₂) :
    l.Gives es (Parse.exprStmt parse) (Parse.exprStmt parse) s₁ s₂ := by
  have hrest (id : ExprId) : Steady 0 (do
      let _ ← check fun env => Check.infer env id
      let _ ← fold id
      let _ ← expect .semicolon
      addStmt (.expr id) (← spanFrom (← Parse.expr id).span)) := by
    refine (steady_check fun env => Check.steady_infer id).bind fun _ => ?_
    refine (steady_fold id).bind fun _ => (steady_expect .semicolon).bind fun _ => ?_
    exact (steady_expr id).bind fun _ => (steady_spanFrom _).bind fun _ => steady_addStmt ..
  refine (h.whole hr .assign false).bind hrest hrest ?_
  rintro i j t₁ t₂ ⟨a, b, ht, -⟩
  refine (Firm.checks ht (Lawful.infer ht) (fun _ => Check.steady_infer i) fun _ =>
    Check.steady_infer j).bind_pair ?_
  rintro _ _ u₁ u₂ ⟨hu, -⟩
  refine (firm_fold hu).bind_pair ?_
  rintro v w v₁ v₂ ⟨hv, -⟩
  refine (firm_expect hv .semicolon).shed.bind_pair ?_
  rintro _ _ w₁ w₂ ⟨-, -, hw⟩
  refine (Lawful.span hw.rel).bind_pair ?_
  rintro x y _ _ ⟨hspan, rfl, rfl⟩
  rw [← hspan]
  exact .firm (firm_spanStmt [.folded i j v w .free] hw.rel .expr x.span)

theorem Linked.printStmt (h : l.Linked parse) (hr : l.Rel es s₁ s₂) :
    l.Gives es (Parse.printStmt parse) (Parse.printStmt parse) s₁ s₂ := by
  refine (firm_advance hr).bind_pair ?_
  rintro token _ t₁ t₂ ⟨-, rfl, ht⟩
  have hrest (value : ExprId) : Steady 0 (do
      check fun env => Check.checkPrint env value
      let _ ← fold value
      addStmt (.print value) (← closeStmt token.span)) :=
    (steady_check fun env => Check.steady_checkPrint value).bind fun _ =>
      (steady_fold value).bind fun _ => (steady_closeStmt _).bind fun _ => steady_addStmt ..
  refine (h.whole ht.rel .assign true).bind hrest hrest ?_
  rintro i j u₁ u₂ ⟨a, b, hu, -⟩
  refine (Firm.checks hu (Lawful.print hu) (fun _ => Check.steady_checkPrint i) fun _ =>
    Check.steady_checkPrint j).bind_pair ?_
  rintro _ _ v₁ v₂ ⟨hv, -⟩
  refine (firm_fold hv).bind_pair ?_
  rintro v w w₁ w₂ ⟨hw, -⟩
  exact .firm (firm_closedStmt [.folded i j v w .free] hw .print token.span)

theorem Linked.returnStmt (h : l.Linked parse) (hr : l.Rel es s₁ s₂) :
    l.Gives es (Parse.returnStmt parse) (Parse.returnStmt parse) s₁ s₂ := by
  refine (firm_advance hr).bind_pair ?_
  rintro token _ t₁ t₂ ⟨-, rfl, ht⟩
  refine (firm_currentIs ht.rel.same .semicolon).bind_pair ?_
  rintro bare _ _ _ ⟨rfl, rfl, rfl, -⟩
  cases bare with
  | true =>
    refine pair_bind_of_ok (a := none) (b := none) rfl rfl (pair_get_bind ?_)
    rw [← ht.rel.same.returns]
    refine (firm_spanFrom ht.rel.same token.span).bind_pair ?_
    rintro span _ _ _ ⟨rfl, rfl, rfl⟩
    have hcheck := Firm.rel (k := 0) (E := fun _ _ _ => es)
      (Lawful.bareReturn span ht.rel) ht.rel.sound₁ ht.rel.sound₂
      (steady_check fun env => Check.steady_checkReturn ..)
      (steady_check fun env => Check.steady_checkReturn ..)
    refine hcheck.bind_pair ?_
    rintro _ _ u₁ u₂ ⟨hu, -⟩
    exact .firm (firm_closedStmt [] hu .ret token.span)
  | false =>
    have hend (value : Option ExprId) := (stores_returnEnd token.span value).steady
    have hvalue : l.Pair es (some <$> parse .value) (some <$> parse .value) t₁ t₂
        fun v w u₁ u₂ => ∃ i j a b, v = some i ∧ w = some j ∧
          l.Rel (.raw i j a b :: es) u₁ u₂ := by
      rw [map_eq_pure_bind]
      refine (h.whole ht.rel .assign true).bind
        (fun _ => keeps_pure _) (fun _ => keeps_pure _) ?_
      rintro i j u₁ u₂ ⟨a, b, hu, -⟩
      exact .firm (firm_pure ⟨i, j, a, b, rfl, rfl, hu⟩)
    refine hvalue.bind hend hend ?_
    rintro _ _ u₁ u₂ ⟨i, j, a, b, rfl, rfl, hu⟩
    refine pair_get_bind ?_
    rw [← hu.same.returns]
    refine (firm_spanFrom hu.same token.span).bind_pair ?_
    rintro span _ _ _ ⟨rfl, rfl, rfl⟩
    refine (Firm.checks hu (Lawful.value span hu)
      (fun _ => Check.steady_checkReturn ..) fun _ => Check.steady_checkReturn ..).bind_pair ?_
    rintro _ _ v₁ v₂ ⟨hv, hov⟩
    refine (firm_fold hv).bind_pair ?_
    rintro v w w₁ w₂ ⟨hw, how⟩
    have hret : w₁.returns = u₁.returns := (hov.trans how).returns
    exact .firm (firm_closedStmt [.folded i j v w (.returned u₁.returns.head?)] hw
      (hret ▸ .value) token.span)

theorem Linked.ifStmt (h : l.Linked parse) (hr : l.Rel es s₁ s₂) :
    l.Gives es (Parse.ifStmt parse) (Parse.ifStmt parse) s₁ s₂ := by
  refine (firm_advance hr).bind_pair ?_
  rintro token _ t₁ t₂ ⟨-, rfl, ht⟩
  have hend (cond : ExprId) (thenBranch : StmtId) : Steady 0 (do
      let elseBranch ← if ← eat .kwElse then some <$> parse .stmt else pure none
      addStmt (.cond cond thenBranch elseBranch) (← spanFrom token.span)) := by
    refine (steady_eat .kwElse).bind fun other => ?_
    cases other with
    | true =>
      refine Keeps.bind (Keeps.map (h.steady .stmt)) fun _ => ?_
      exact (steady_spanFrom _).bind fun _ => steady_addStmt ..
    | false =>
      exact (keeps_pure _).bind fun _ => (steady_spanFrom _).bind fun _ => steady_addStmt ..
  have hrest (cond : ExprId) := Keeps.bind (h.steady .stmt) (hend cond)
  refine (h.condition ht.rel).bind hrest hrest ?_
  rintro c e u₁ u₂ ⟨v, w, hu⟩
  refine (h.stmt hu).shed.bind (hend c) (hend e) ?_
  intro k m v₁ v₂ hv
  refine (firm_eat hv .kwElse).shed.shed.bind_pair ?_
  rintro other _ w₁ w₂ ⟨rfl, hw, -⟩
  have hspan (start : Span) (cond : ExprId) (thenBranch : StmtId) (elseBranch : Option StmtId) :
      Steady 0 (do addStmt (.cond cond thenBranch elseBranch) (← spanFrom start)) :=
    (steady_spanFrom _).bind fun _ => steady_addStmt ..
  cases other with
  | false =>
    exact pair_bind_of_ok (a := none) (b := none) rfl rfl (.firm (firm_spanStmt
      [.stmt k m, .folded c e v w .free] hw.rel .cond token.span))
  | true =>
    have hother : l.Pair (.stmt k m :: .folded c e v w .free :: es) (some <$> parse .stmt)
        (some <$> parse .stmt) w₁ w₂ fun a b x₁ x₂ => ∃ i j, a = some i ∧ b = some j ∧
          l.Rel (.stmt i j :: .stmt k m :: .folded c e v w .free :: es) x₁ x₂ := by
      rw [map_eq_pure_bind]
      refine (h.stmt hw.rel).bind (fun _ => keeps_pure _) (fun _ => keeps_pure _) ?_
      intro i j x₁ x₂ hx
      exact .firm (firm_pure ⟨i, j, rfl, rfl, hx⟩)
    refine hother.shed.shed.bind (hspan token.span c k) (hspan token.span e m) ?_
    rintro _ _ x₁ x₂ ⟨i, j, rfl, rfl, hx⟩
    exact .firm (firm_spanStmt [.stmt i j, .stmt k m, .folded c e v w .free] hx .other token.span)

theorem Linked.whileStmt (h : l.Linked parse) (hr : l.Rel es s₁ s₂) :
    l.Gives es (Parse.whileStmt parse) (Parse.whileStmt parse) s₁ s₂ := by
  refine (firm_advance hr).bind_pair ?_
  rintro token _ t₁ t₂ ⟨-, rfl, ht⟩
  have hend (cond : ExprId) (body : StmtId) :
      Steady 0 (do addStmt (.loop cond body) (← spanFrom token.span)) :=
    (steady_spanFrom _).bind fun _ => steady_addStmt ..
  have hrest (cond : ExprId) := Keeps.bind (h.steady .stmt) (hend cond)
  refine (h.condition ht.rel).bind hrest hrest ?_
  rintro c e u₁ u₂ ⟨v, w, hu⟩
  refine (h.stmt hu).shed.bind (hend c) (hend e) ?_
  intro k m v₁ v₂ hv
  exact .firm (firm_spanStmt [.stmt k m, .folded c e v w .free] hv .loop token.span)

theorem Linked.doStmt (h : l.Linked parse) (hr : l.Rel es s₁ s₂) :
    l.Gives es (Parse.doStmt parse) (Parse.doStmt parse) s₁ s₂ := by
  refine (firm_advance hr).bind_pair ?_
  rintro token _ t₁ t₂ ⟨-, rfl, ht⟩
  have hend (body : StmtId) (cond : ExprId) :
      Steady 0 (do addStmt (.doLoop body cond) (← closeStmt token.span)) :=
    (steady_closeStmt _).bind fun _ => steady_addStmt ..
  have hrest (body : StmtId) : Steady 0 (do
      beginStatement
      let _ ← expect .kwWhile
      let cond ← Parse.condition parse
      addStmt (.doLoop body cond) (← closeStmt token.span)) :=
    steady_beginStatement.bind fun _ => (steady_expect .kwWhile).bind fun _ =>
      (steady_condition h.steady).bind (hend body)
  refine (h.stmt ht.rel).bind hrest hrest ?_
  intro k m u₁ u₂ hu
  refine (firm_beginStatement hu).shed.bind_pair ?_
  intro _ _ v₁ v₂ hv
  refine (firm_expect hv.rel .kwWhile).shed.bind_pair ?_
  rintro _ _ w₁ w₂ ⟨-, -, hw⟩
  refine (h.condition hw.rel).shed.bind (hend k) (hend m) ?_
  rintro c e x₁ x₂ ⟨v, w, hx⟩
  exact .firm (firm_closedStmt [.folded c e v w .free, .stmt k m] hx .doLoop token.span)

theorem firm_emptyStmt (hr : l.Rel es s₁ s₂) : l.Gives es emptyStmt emptyStmt s₁ s₂ := by
  refine (firm_advance hr).bind_pair ?_
  rintro token _ t₁ t₂ ⟨-, rfl, ht⟩
  exact .firm (firm_list [] ht.rel .empty token.span)

end Link

end FrontEnd
