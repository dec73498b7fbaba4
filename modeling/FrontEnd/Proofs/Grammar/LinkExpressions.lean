import FrontEnd.Proofs.Grammar.LinkProductions

/-! Expressions, read in two linked runs. -/

namespace FrontEnd

namespace Link

open Parse Entry

variable {l : Link} {α : Type} {es es' : List Entry} {s₁ s₂ t₁ t₂ : ParseState}
  {i j : ExprId} {a b : Window} {x y : Expr} {parse : Productions}
  {p₁ p₂ : Parse ExprId}

/-- An expression was read. -/
abbrev Reads (l : Link) (es : List Entry) (a : Window) (p₁ p₂ : Parse ExprId)
    (s₁ s₂ : ParseState) : Prop :=
  l.Pair es p₁ p₂ s₁ s₂ fun i j t₁ t₂ => l.Rel (.raw i j a t₁.window :: es) t₁ t₂

variable [l.Lawful]

omit [l.Lawful] in
theorem reads_of_firm (h : l.Firm es p₁ p₂ s₁ s₂ fun i j t₁ t₂ =>
    l.rel (.raw i j a t₁.window :: es) t₁ t₂) (hs₁ : s₁.Sound) (hs₂ : s₂.Sound)
    (h₁ : Steady 0 p₁) (h₂ : Steady 0 p₂) : l.Reads es a p₁ p₂ s₁ s₂ :=
  .firm ((Firm.rel (E := fun i j t => .raw i j a t.window :: es) h hs₁ hs₂ h₁ h₂).imp
    fun _ _ _ _ ht => ht.1)

omit [l.Lawful] in
theorem reads_of_pair (h : l.Pair es p₁ p₂ s₁ s₂ fun i j t₁ t₂ =>
    l.rel (.raw i j a t₁.window :: es) t₁ t₂) (hs₁ : s₁.Sound) (hs₂ : s₂.Sound)
    (h₁ : Steady 0 p₁) (h₂ : Steady 0 p₂) : l.Reads es a p₁ p₂ s₁ s₂ :=
  (Pair.rel (E := fun i j t => .raw i j a t.window :: es) h hs₁ hs₂ h₁ h₂).imp
    fun _ _ _ _ ht => ht.1

/-! ### Operands -/

theorem Linked.group (h : l.Linked parse) (hr : l.Rel es s₁ s₂) :
    l.Reads es s₁.window (Parse.group parse) (Parse.group parse) s₁ s₂ := by
  refine (firm_advance hr).bind_pair ?_
  rintro token _ t₁ t₂ ⟨-, rfl, ht⟩
  have hrest (inner : ExprId) : Steady 0 (do
      let _ ← expect .closeParen
      groupEnd inner (← spanFrom token.span)) :=
    (steady_expect _).bind fun _ => (steady_spanFrom _).bind fun _ => steady_groupEnd ..
  refine (h.expr ht.rel).bind hrest hrest ?_
  intro i j u₁ u₂ hu
  refine (firm_expect hu .closeParen).shed.bind_pair ?_
  rintro _ _ v₁ v₂ ⟨-, -, hv⟩
  refine (firm_spanFrom hv.rel.same token.span).bind_pair ?_
  rintro span _ _ _ ⟨rfl, rfl, rfl⟩
  exact reads_of_firm (Lawful.group s₁.window span hv.rel) hv.rel.sound₁ hv.rel.sound₂
    (steady_groupEnd ..) (steady_groupEnd ..)

theorem Linked.lambda (h : l.Linked parse) (hr : l.Rel es s₁ s₂) :
    l.Reads es s₁.window (Parse.lambda parse) (Parse.lambda parse) s₁ s₂ := by
  refine (firm_advance hr).bind_pair ?_
  rintro token _ t₁ t₂ ⟨-, rfl, ht⟩
  refine (h.signature ht.rel).bind_pair ?_
  rintro type _ u₁ u₂ ⟨rfl, hu, hk⟩
  have hrest (body : StmtId) :
      Steady 0 (do addExpr (.lambda type body) (← spanFrom token.span)) :=
    (steady_spanFrom _).bind fun _ => steady_addExpr ..
  have hbody := steady_functionBody h.steady type
  refine ((h.functionBody hu hk).onto hbody hbody hu.sound₁ hu.sound₂).bind hrest hrest ?_
  rintro m n v₁ v₂ ⟨hv, hov, -⟩
  refine (firm_spanFrom hv.same token.span).bind_pair ?_
  rintro span _ _ _ ⟨rfl, rfl, rfl⟩
  exact reads_of_firm (Lawful.lambda s₁.window span hv (knows_onto hk hov)) hv.sound₁ hv.sound₂
    (steady_addExpr ..) (steady_addExpr ..)

theorem Linked.primary (h : l.Linked parse) (hr : l.Rel es s₁ s₂) :
    l.Reads es s₁.window (Parse.primary parse) (Parse.primary parse) s₁ s₂ := by
  refine (firm_current hr.same).bind_pair ?_
  rintro token _ _ _ ⟨rfl, rfl, rfl, rfl⟩
  have hliteral : l.Reads es s₁.window (literal s₁.window.current) (literal s₁.window.current)
      s₁ s₂ :=
    reads_of_firm (Lawful.literal hr) hr.sound₁ hr.sound₂ (steady_literal _) (steady_literal _)
  split
  any_goals exact hliteral
  · exact reads_of_firm (Lawful.str hr) hr.sound₁ hr.sound₂ (steady_stringLiteral _)
      (steady_stringLiteral _)
  · exact reads_of_firm (Lawful.name hr) hr.sound₁ hr.sound₂ steady_nameExpr steady_nameExpr
  · exact h.group hr
  · exact h.lambda hr
  · exact .firm (firm_expected hr (by decide) ..)

theorem Linked.unary (h : l.Linked parse) (hr : l.Rel es s₁ s₂) :
    l.Reads es s₁.window (Parse.unary parse) (Parse.unary parse) s₁ s₂ := by
  refine (firm_current hr.same).bind_pair ?_
  rintro token _ _ _ ⟨rfl, rfl, rfl, rfl⟩
  cases hop : UnaryOp.ofToken? s₁.window.current.kind with
  | none => exact h.primary hr
  | some op =>
    refine (firm_advance hr).bind_pair ?_
    rintro token _ t₁ t₂ ⟨-, rfl, ht⟩
    have hrest (id : ExprId) : Steady 0 (unaryEnd op token.span id) := steady_unaryEnd ..
    refine (h.expr ht.rel).bind hrest hrest ?_
    intro i j u₁ u₂ hu
    rw [ht.window] at hu
    exact reads_of_pair (Lawful.unary token.span hu hr.sees hop) hu.sound₁ hu.sound₂
      (steady_unaryEnd ..) (steady_unaryEnd ..)

/-! ### Infix forms -/

theorem Linked.binary (h : l.Linked parse) (hr : l.Rel (.raw i j a b :: es) s₁ s₂) (level : Level) :
    l.Reads es a (Parse.binary parse i level) (Parse.binary parse j level) s₁ s₂ := by
  refine (firm_current hr.same).bind_pair ?_
  rintro token _ _ _ ⟨rfl, rfl, rfl, rfl⟩
  cases BinaryOp.ofToken? s₁.window.current.kind with
  | none => exact .firm (firm_unexpected hr _).shed
  | some op =>
    refine (firm_advance hr).shed.bind_pair ?_
    rintro _ _ t₁ t₂ ⟨-, -, ht⟩
    refine (h.expr ht.rel).shed.bind
      (fun _ => steady_binaryEnd ..) (fun _ => steady_binaryEnd ..) ?_
    intro k m u₁ u₂ hu
    exact reads_of_firm (Lawful.binary op hu) hu.sound₁ hu.sound₂ (steady_binaryEnd ..)
      (steady_binaryEnd ..)

theorem Linked.assignment (h : l.Linked parse) (hr : l.Rel (.raw i j a s₁.window :: es) s₁ s₂) :
    l.Reads es a (Parse.assignment parse i) (Parse.assignment parse j) s₁ s₂ := by
  refine (firm_current hr.same).bind_pair ?_
  rintro token _ _ _ ⟨rfl, rfl, rfl, rfl⟩
  cases hop : AssignOp.ofToken? s₁.window.current.kind with
  | none => exact .firm (firm_unexpected hr _).shed
  | some op =>
    refine (firm_advance hr).shed.bind_pair ?_
    rintro _ _ t₁ t₂ ⟨-, -, ht⟩
    refine (h.expr ht.rel).shed.bind
      (fun _ => steady_assignmentEnd ..) (fun _ => steady_assignmentEnd ..) ?_
    intro k m u₁ u₂ hu
    exact reads_of_pair (Lawful.assign hu hop) hu.sound₁ hu.sound₂ (steady_assignmentEnd ..)
      (steady_assignmentEnd ..)

theorem Linked.readArgs (h : l.Linked parse) (hr : l.Rel es s₁ s₂) :
    l.Pair es (Parse.args parse) (Parse.args parse) s₁ s₂ fun is js t₁ t₂ =>
      ∃ es', Raws es' is js ∧ l.Rel (es' ++ es) t₁ t₂ := by
  have hrest (arg : ExprId) : Steady 0 (do
      if ← eat .comma then return arg :: (← parse .args)
      return [arg]) := by
    refine (steady_eat .comma).bind fun more => ?_
    cases more with
    | true => exact Keeps.bind (h.steady .args).weaken fun _ => keeps_pure _
    | false => exact keeps_pure _
  refine (h.expr hr).bind hrest hrest ?_
  intro i j t₁ t₂ ht
  refine (firm_eat ht .comma).shed.bind_pair ?_
  rintro more _ u₁ u₂ ⟨rfl, hu, -⟩
  cases more with
  | false => exact .firm (firm_pure ⟨_, .snoc .nil, hu.rel⟩)
  | true =>
    refine (h.args hu.rel).shed.bind (fun _ => keeps_pure _) (fun _ => keeps_pure _) ?_
    rintro is js v₁ v₂ ⟨es', hes, hv⟩
    exact .firm (firm_pure ⟨_, hes.cons, by rwa [List.append_assoc]⟩)

/-- The rest of a call after its arguments. -/
theorem firm_endCall (es' : List Entry) {is js : List ExprId}
    (ht : l.Rel (es' ++ .object i j x y a b :: es) t₁ t₂)
    (hes : Raws es' is js) (hspan : x.span = y.span) :
    l.Reads es a (endCall i x is) (endCall j y js) t₁ t₂ := by
  refine (firm_expect ht .closeParen).sheds.shed.bind_pair ?_
  rintro _ _ u₁ u₂ ⟨-, -, hu⟩
  rw [← hspan]
  refine (firm_spanFrom hu.rel.same x.span).bind_pair ?_
  rintro span _ _ _ ⟨rfl, rfl, rfl⟩
  exact reads_of_firm (Lawful.call span hu.rel hes) hu.rel.sound₁ hu.rel.sound₂ (steady_callEnd ..)
    (steady_callEnd ..)

theorem Linked.call (h : l.Linked parse) (hr : l.Rel (.object i j x y a b :: es) s₁ s₂) :
    l.Reads es a (Parse.call parse i x) (Parse.call parse j y) s₁ s₂ := by
  have hspan := Lawful.callSpan hr.rel
  refine (firm_expect hr .openParen).shed.bind_pair ?_
  rintro _ _ t₁ t₂ ⟨-, -, ht⟩
  refine (firm_currentIs ht.rel.same .closeParen).bind_pair ?_
  rintro empty _ _ _ ⟨rfl, rfl, rfl, -⟩
  cases empty with
  | true => exact pair_bind_of_ok rfl rfl (firm_endCall [] ht.rel .nil hspan)
  | false =>
    refine (h.args ht.rel).shed.bind
      (steady_endCall i x) (steady_endCall j y) ?_
    rintro is js u₁ u₂ ⟨es', hes, hu⟩
    exact firm_endCall es' hu hes hspan

theorem Linked.postfixForm (h : l.Linked parse) (hr : l.Rel (.raw i j a s₁.window :: es) s₁ s₂) :
    l.Reads es a (Parse.postfixForm parse i) (Parse.postfixForm parse j) s₁ s₂ := by
  refine (Lawful.object hr).bind_pair ?_
  rintro x y _ _ ⟨rfl, rfl, hxy⟩
  have hobject : l.Rel (.object i j x y a s₁.window :: es) s₁ s₂ := ⟨hr.sound₁, hr.sound₂, hxy⟩
  refine (firm_eat hobject .dot).shed.bind_pair ?_
  rintro dot _ t₁ t₂ ⟨rfl, ht, hk, hw⟩
  cases dot with
  | true =>
    exact reads_of_firm (Lawful.member ht.rel (hk.1 rfl) (hw rfl)) ht.rel.sound₁ ht.rel.sound₂
      (steady_member ..) (steady_member ..)
  | false => exact h.call ht.rel

theorem Linked.readInfixes (h : l.Linked parse) (hr : l.Rel (.raw i j a s₁.window :: es) s₁ s₂)
    (least : Level) (isValue : Bool) :
    l.Reads es a (Parse.infixes parse i least isValue) (Parse.infixes parse j least isValue)
      s₁ s₂ := by
  refine (firm_current hr.same).bind_pair ?_
  rintro token _ _ _ ⟨rfl, rfl, rfl, rfl⟩
  have hgo {p₁ p₂ : Parse ExprId} (hp : l.Reads es a p₁ p₂ s₁ s₂)
      : l.Reads es a (p₁ >>= fun whole => parse (.infixes whole least isValue))
      (p₂ >>= fun whole => parse (.infixes whole least isValue)) s₁ s₂ := by
    refine hp.bind (fun whole => (h.steady (.infixes whole least isValue)).weaken)
      (fun whole => (h.steady (.infixes whole least isValue)).weaken) ?_
    intro i' j' t₁ t₂ ht
    exact h.infixes ht
  dsimp only
  split
  · exact .firm (firm_pure hr)
  · split
    · exact hgo (h.assignment hr)
    · exact hgo (h.postfixForm hr)
    · exact hgo (h.binary hr _)

theorem Linked.expression (h : l.Linked parse) (hr : l.Rel es s₁ s₂) (least : Level)
    (isValue : Bool) :
    l.Reads es s₁.window (Parse.expression parse least isValue)
      (Parse.expression parse least isValue) s₁ s₂ := by
  refine (h.unary hr).bind
    (fun left => (h.steady (.infixes left least isValue)).weaken)
    (fun left => (h.steady (.infixes left least isValue)).weaken) ?_
  intro i j t₁ t₂ ht
  exact h.infixes ht

end Link

end FrontEnd
