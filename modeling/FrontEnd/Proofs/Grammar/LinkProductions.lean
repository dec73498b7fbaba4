import FrontEnd.Proofs.Grammar.LinkBlocks

/-! Types and expressions, read in two linked runs. -/

namespace FrontEnd

theorem ParseState.Same.env {s₁ s₂ : ParseState} (h : s₁.Same s₂) : s₁.env = s₂.env := by
  unfold ParseState.env
  rw [h.types, h.names, h.symbols, h.scope, h.lines, h.scratch]

namespace Parse

variable {k : Nat}

theorem steady_member (left : ExprId) (object : Expr) : Steady k (member left object) :=
  steady_expectName.bind fun _ => steady_addTarget ..

theorem exists_basicType {k : TokenKind} {type : TypeId} (h : basicType? k = some type) :
    ∃ b, b ≠ BasicType.invalid ∧ type = b.id := by
  unfold basicType? at h
  split at h <;> cases h
  exacts [⟨.integer, by decide, rfl⟩, ⟨.long, by decide, rfl⟩, ⟨.float, by decide, rfl⟩,
    ⟨.double, by decide, rfl⟩, ⟨.bool, by decide, rfl⟩, ⟨.char, by decide, rfl⟩,
    ⟨.cstring, by decide, rfl⟩, ⟨.void, by decide, rfl⟩]

end Parse

namespace Link

open Parse

/-- Both runs go along in every production inside a program. -/
structure Linked (l : Link) (parse : Productions) : Prop where
  steady : ∀ q, Steady q.reach (parse q)
  type {es s₁ s₂} : l.Rel es s₁ s₂ →
    l.Firm es (parse .type) (parse .type) s₁ s₂ fun a b t₁ t₂ =>
      a = b ∧ l.Rel es t₁ t₂ ∧ l.knows a t₁
  params {es s₁ s₂} : l.Rel es s₁ s₂ →
    l.Firm es (parse .params) (parse .params) s₁ s₂ fun a b t₁ t₂ =>
      a = b ∧ l.Rel es t₁ t₂ ∧ ∀ param ∈ a.1, l.knows param.1 t₁
  fields {es s₁ s₂ done} : l.Rel es s₁ s₂ → (∀ field ∈ done, l.knows field.type s₁) →
    l.Firm es (parse (.fields done)) (parse (.fields done)) s₁ s₂ fun a b t₁ t₂ =>
      a = b ∧ l.Rel es t₁ t₂ ∧ ∀ field ∈ a, l.knows field.type t₁
  variants {es s₁ s₂} : l.Rel es s₁ s₂ →
    l.Firm es (parse .variants) (parse .variants) s₁ s₂ fun a b t₁ t₂ => a = b ∧ l.Rel es t₁ t₂
  path {es s₁ s₂ name} : l.Rel es s₁ s₂ →
    l.Firm es (parse (.path name)) (parse (.path name)) s₁ s₂ fun a b t₁ t₂ =>
      a = b ∧ l.Rel es t₁ t₂
  expr {es s₁ s₂ least isValue} : l.Rel es s₁ s₂ →
    l.Pair es (parse (.expr least isValue)) (parse (.expr least isValue)) s₁ s₂ fun i j t₁ t₂ =>
      l.Rel (.raw i j s₁.window t₁.window :: es) t₁ t₂
  infixes {es s₁ s₂ i j a least isValue} : l.Rel (.raw i j a s₁.window :: es) s₁ s₂ →
    l.Pair es (parse (.infixes i least isValue)) (parse (.infixes j least isValue)) s₁ s₂
      fun i' j' t₁ t₂ => l.Rel (.raw i' j' a t₁.window :: es) t₁ t₂
  args {es s₁ s₂} : l.Rel es s₁ s₂ →
    l.Pair es (parse .args) (parse .args) s₁ s₂ fun is js t₁ t₂ =>
      ∃ es', Entry.Raws es' is js ∧ l.Rel (es' ++ es) t₁ t₂
  stmt {es s₁ s₂} : l.Rel es s₁ s₂ →
    l.Pair es (parse .stmt) (parse .stmt) s₁ s₂ fun m n t₁ t₂ => l.Rel (.stmt m n :: es) t₁ t₂
  items {es s₁ s₂} : l.Rel es s₁ s₂ →
    l.Pair es (parse .items) (parse .items) s₁ s₂ fun is js t₁ t₂ =>
      ∃ es', Entry.Stmts es' is js ∧ l.Rel (es' ++ es) t₁ t₂

variable {l : Link} {α : Type} {es es' : List Entry} {s₁ s₂ t₁ t₂ : ParseState}
  {i j : ExprId} {a b : Window} {parse : Productions}

variable [l.Lawful]

/-! ### Types -/

theorem Linked.readParams (h : l.Linked parse) (hr : l.Rel es s₁ s₂) :
    l.Firm es (Parse.params parse) (Parse.params parse) s₁ s₂ fun a b t₁ t₂ =>
      a = b ∧ l.Rel es t₁ t₂ ∧ ∀ param ∈ a.1, l.knows param.1 t₁ := by
  refine (firm_eat hr .ellipsis).bind ?_
  rintro dots _ t₁ t₂ ⟨rfl, ht, -⟩
  cases dots with
  | true => exact firm_pure ⟨rfl, ht.rel, by simp⟩
  | false =>
    refine (h.type ht.rel).bind ?_
    rintro type _ u₁ u₂ ⟨rfl, hu, htype⟩
    have hname : l.Firm es paramName paramName u₁ u₂ fun a b t₁ t₂ =>
        a = b ∧ l.Rel es t₁ t₂ ∧ u₁.Onto 1 t₁ := by
      refine (firm_currentIs hu.same .ident).bind ?_
      rintro named _ _ _ ⟨rfl, rfl, rfl, -⟩
      cases named with
      | false => exact firm_pure ⟨rfl, hu, hu.sound₁.refl 1⟩
      | true =>
        refine (firm_expectName hu).bind ?_
        rintro name _ v₁ v₂ ⟨rfl, hv, -⟩
        exact firm_pure ⟨rfl, hv.rel, hv.onto⟩
    refine hname.bind ?_
    rintro name _ v₁ v₂ ⟨rfl, hv, hov⟩
    refine (firm_eat hv .comma).bind ?_
    rintro more _ w₁ w₂ ⟨rfl, hw, -⟩
    have hlast := knows_onto htype (hov.trans hw.onto)
    cases more with
    | false =>
      refine firm_pure ⟨rfl, hw.rel, ?_⟩
      rintro param hparam
      obtain rfl := List.mem_singleton.1 hparam
      exact hlast
    | true =>
      refine ((h.params hw.rel).onto (h.steady _) (h.steady _) hw.rel.sound₁ hw.rel.sound₂).bind ?_
      rintro ⟨rest, variadic⟩ _ x₁ x₂ ⟨⟨rfl, hx, hrest⟩, hox, -⟩
      refine firm_pure ⟨rfl, hx, ?_⟩
      rintro param hparam
      rcases List.mem_cons.1 hparam with rfl | hparam
      · exact knows_onto hlast hox
      · exact hrest param hparam

theorem firm_addFunction {signature : Signature} (hr : l.Rel es s₁ s₂)
    (hk : l.Knows signature s₁) :
    l.Firm es (addFunction signature) (addFunction signature) s₁ s₂ fun a b t₁ t₂ =>
      a = b ∧ l.Rel es t₁ t₂ ∧ l.knows a t₁ := by
  refine ((Lawful.addFunction hr hk).onto (k := 1) (steady_addFunction _) (steady_addFunction _)
    hr.sound₁ hr.sound₂).imp ?_
  rintro a b t₁ t₂ ⟨⟨hab, ht, hka⟩, ho₁, ho₂⟩
  exact ⟨hab, ⟨ho₁.sound, ho₂.sound, ht⟩, hka⟩

theorem Linked.signatureEnd (h : l.Linked parse) (hr : l.Rel es s₁ s₂)
    (params : List (TypeId × Name) × Bool) (hk : ∀ param ∈ params.1, l.knows param.1 s₁) :
    l.Firm es (Parse.signatureEnd parse params) (Parse.signatureEnd parse params) s₁ s₂
      fun a b t₁ t₂ => a = b ∧ l.Rel es t₁ t₂ ∧ l.knows a t₁ := by
  refine (firm_expect hr .closeParen).bind ?_
  rintro _ _ t₁ t₂ ⟨-, -, ht⟩
  refine (firm_eat ht.rel .thinArrow).bind ?_
  rintro arrow _ u₁ u₂ ⟨rfl, hu, -⟩
  have hou := ht.onto.trans hu.onto
  have hparams {v₁ : ParseState} {k : Nat} (ho : u₁.Onto k v₁) (type : TypeId)
      (hm : type ∈ params.1.map Prod.fst) : l.knows type v₁ := by
    obtain ⟨param, hmem, rfl⟩ := List.mem_map.1 hm
    exact knows_onto (knows_onto (hk param hmem) hou) ho
  cases arrow with
  | false =>
    refine (firm_pure (a := TypeId.void) (b := TypeId.void)
      (R := fun a b v₁ v₂ => a = .void ∧ a = b ∧ u₁ = v₁ ∧ u₂ = v₂) ⟨rfl, rfl, rfl, rfl⟩).bind ?_
    rintro _ _ _ _ ⟨rfl, rfl, rfl, rfl⟩
    exact firm_addFunction hu.rel ⟨hparams (hu.rel.sound₁.refl 1), Lawful.basic hu.rel (by decide)⟩
  | true =>
    refine ((h.type hu.rel).onto (h.steady _) (h.steady _) hu.rel.sound₁ hu.rel.sound₂).bind ?_
    rintro type _ v₁ v₂ ⟨⟨rfl, hv, htype⟩, hov, -⟩
    exact firm_addFunction hv ⟨hparams hov, htype⟩

theorem Linked.signature (h : l.Linked parse) (hr : l.Rel es s₁ s₂) :
    l.Firm es (Parse.signature parse) (Parse.signature parse) s₁ s₂ fun a b t₁ t₂ =>
      a = b ∧ l.Rel es t₁ t₂ ∧ l.knows a t₁ := by
  refine (firm_expect hr .openParen).bind ?_
  rintro _ _ t₁ t₂ ⟨-, -, ht⟩
  refine (firm_currentIs ht.rel.same .closeParen).bind ?_
  rintro empty _ _ _ ⟨rfl, rfl, rfl, -⟩
  cases empty with
  | true =>
    refine (firm_pure (R := fun a b u₁ u₂ => a = ([], false) ∧ a = b ∧ t₁ = u₁ ∧ t₂ = u₂)
      ⟨rfl, rfl, rfl, rfl⟩).bind ?_
    rintro _ _ _ _ ⟨rfl, rfl, rfl, rfl⟩
    exact h.signatureEnd ht.rel ([], false) (by simp)
  | false =>
    refine (h.params ht.rel).bind ?_
    rintro params _ u₁ u₂ ⟨rfl, hu, hk⟩
    exact h.signatureEnd hu params hk

theorem firm_namedType (hr : l.Rel es s₁ s₂) :
    l.Firm es namedType namedType s₁ s₂ fun a b t₁ t₂ =>
      a = b ∧ l.Rel es t₁ t₂ ∧ l.knows a t₁ := by
  refine ((Lawful.named hr).onto (k := 1) steady_namedType steady_namedType hr.sound₁
    hr.sound₂).imp ?_
  rintro a b t₁ t₂ ⟨⟨hab, ht, hk⟩, ho₁, ho₂⟩
  exact ⟨hab, ⟨ho₁.sound, ho₂.sound, ht⟩, hk⟩

theorem Linked.typeName (h : l.Linked parse) (hr : l.Rel es s₁ s₂) :
    l.Firm es (Parse.typeName parse) (Parse.typeName parse) s₁ s₂ fun a b t₁ t₂ =>
      a = b ∧ l.Rel es t₁ t₂ ∧ l.knows a t₁ := by
  refine (firm_current hr.same).bind ?_
  rintro token _ _ _ ⟨-, rfl, rfl, rfl⟩
  cases hbasic : basicType? token.kind with
  | some type =>
    obtain ⟨basic, hne, rfl⟩ := exists_basicType hbasic
    refine (firm_advance hr).bind ?_
    rintro _ _ t₁ t₂ ⟨-, -, ht⟩
    exact firm_pure ⟨rfl, ht.rel, Lawful.basic ht.rel hne⟩
  | none =>
    dsimp only
    split
    · refine (firm_advance hr).bind ?_
      rintro _ _ t₁ t₂ ⟨-, -, ht⟩
      exact h.signature ht.rel
    · split
      · exact firm_namedType hr
      · split
        · exact firm_reject hr (by decide) ..
        · exact firm_expected hr (by decide) ..

/-! ### Blocks -/

/-- The end of a statement that holds others. -/
theorem firm_list (es' : List Entry) {is js : List StmtId} {form : ListRange → StmtKind}
    {entry : StmtId → StmtId → Entry} (hr : l.Rel (es' ++ es) s₁ s₂)
    (hc : Entry.Closes es' is js form entry) (span : Span) :
    l.Firm es (listStmt form span is) (listStmt form span js) s₁ s₂ fun m n t₁ t₂ =>
      l.Rel (entry m n :: es) t₁ t₂ :=
  (Firm.rel (k := 0) (E := fun m n _ => entry m n :: es) (Lawful.list span hc hr) hr.sound₁
    hr.sound₂ (steady_listStmt ..) (steady_listStmt ..)).imp fun _ _ _ _ ht => ht.1

theorem firm_listStmt (es' : List Entry) {is js : List StmtId} {form : ListRange → StmtKind}
    {entry : StmtId → StmtId → Entry} (hr : l.Rel (es' ++ es) s₁ s₂)
    (hc : Entry.Closes es' is js form entry) (start : Span) :
    l.Firm es (do listStmt form (← spanFrom start) is) (do listStmt form (← spanFrom start) js)
      s₁ s₂ fun m n t₁ t₂ => l.Rel (entry m n :: es) t₁ t₂ := by
  refine (firm_spanFrom hr.same start).bind ?_
  rintro span _ _ _ ⟨rfl, rfl, rfl⟩
  exact firm_list es' hr hc span

omit [l.Lawful] in
theorem steady_spanList {form : ListRange → StmtKind} {start : Span} (ids : List StmtId) :
    Steady 0 (do listStmt form (← spanFrom start) ids) :=
  (steady_spanFrom _).bind fun _ => steady_listStmt ..

theorem Linked.block (h : l.Linked parse) (hr : l.Rel es s₁ s₂) :
    l.Pair es (Parse.block parse) (Parse.block parse) s₁ s₂ fun m n t₁ t₂ =>
      l.Rel (.stmt m n :: es) t₁ t₂ := by
  rw [block_eq]
  refine (firm_expect hr .openBrace).bind_pair ?_
  rintro brace _ t₁ t₂ ⟨-, rfl, ht⟩
  refine Pair.bind (Rel.inScope (G := fun is js => [.scoped is js]) ht.rel (h.steady .items)
    (h.steady .items) h.items ?_) steady_spanList steady_spanList ?_
  · rintro is js u₁ u₂ ⟨es', hes, hu⟩ hd
    exact Lawful.leave hu hes hd
  · intro is js u₁ u₂ hu
    exact .firm (firm_listStmt [.scoped is js] hu .block brace.span)

theorem Linked.functionBody {type : TypeId} (h : l.Linked parse) (hr : l.Rel es s₁ s₂)
    (hk : l.knows type s₁) :
    l.Pair es (Parse.functionBody parse type) (Parse.functionBody parse type) s₁ s₂
      fun m n t₁ t₂ => l.Rel (.bodyStmt type m n :: es) t₁ t₂ := by
  rw [functionBody_eq]
  refine (firm_expect hr .openBrace).bind_pair ?_
  rintro brace _ t₁ t₂ ⟨-, rfl, ht⟩
  have hkt := knows_onto hk ht.onto
  refine pair_get_bind ?_
  rw [← ht.rel.same.types]
  refine (firm_ofFault (faults_function? (Moves.known hkt))).bind_pair ?_
  rintro signature _ _ _ ⟨hsig, rfl, rfl, rfl⟩
  have hparams := steady_declareParams? signature
  have hinner : Steady 0 (do
      signature.forM declareParams
      Parse.returning ((signature.map Signature.ret).getD .invalid) (parse .items)) :=
    Keeps.bind hparams fun _ => steady_returning _ (h.steady .items)
  refine Pair.bind (Rel.inScope (G := fun is js => [.bodied type is js])
    (R := fun is js u₁ u₂ => ∃ v₁ v₂, u₁ = v₁.shift id List.tail ∧ u₂ = v₂.shift id List.tail ∧
      ∃ es', Entry.Stmts es' is js ∧ l.Rel (es' ++ .params type :: .enter :: es) v₁ v₂) ht.rel
    hinner hinner (fun hu => ?_) ?_) steady_spanList steady_spanList ?_
  · refine ((Lawful.params hu (knows_shift hkt) hsig).onto hparams hparams hu.sound₁
      hu.sound₂).bind_pair ?_
    rintro _ _ v₁ v₂ ⟨hv, hov₁, hov₂⟩
    have hv := Rel.mk (hov₁.sound.shift (Nat.le_refl _)) (hov₂.sound.shift (Nat.le_refl _)) hv
    exact (Rel.returning hv (h.steady .items) (h.steady .items) (h.items hv)).shed
  · rintro is js _ _ ⟨u₁, u₂, rfl, rfl, es', hes, hu⟩ hd
    exact Lawful.leaveBody hu hes hd
  · intro is js u₁ u₂ hu
    exact .firm (firm_listStmt [.bodied type is js] hu .body brace.span)

end Link

end FrontEnd
