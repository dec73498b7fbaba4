import FrontEnd.Proofs.Grammar.Descent
import FrontEnd.Proofs.Grammar.LinkDeclarations

/-! Whole programs, read in two linked runs. -/

namespace FrontEnd

namespace Parse

/-- In a program that is read on from here, some statement outside all blocks ends because a storage
ran out. -/
inductive Exhausts : ParseState → Prop
  | here {s t cause} : s.window.atEnd = false → s.reports.truncated = false →
    production .stmt s = .error (.exhausted cause) t → Exhausts s
  | read {s t id} : s.window.atEnd = false → s.reports.truncated = false →
    production .stmt s = .ok id t → Exhausts t → Exhausts s
  | skipped {s t u} : s.window.atEnd = false → s.reports.truncated = false →
    production .stmt s = .error .reported t →
    synchronize s.window.current.span t = .ok ⟨⟩ u → Exhausts u → Exhausts s

end Parse

namespace Link

open Parse Entry

variable {l : Link} [l.Lawful] {es es' : List Entry} {s₁ s₂ t₁ t₂ : ParseState}
  {parse : Productions}

/-- Statements were read. -/
abbrev Lists (l : Link) (es : List Entry) (p₁ p₂ : Parse (List StmtId)) (s₁ s₂ : ParseState) :
    Prop :=
  l.Pair es p₁ p₂ s₁ s₂ fun is js t₁ t₂ => ∃ es', Stmts es' is js ∧ l.Rel (es' ++ es) t₁ t₂

/-- One statement before others. -/
theorem Lists.cons {m n : StmtId} {p₁ p₂ : Parse (List StmtId)}
    (h : l.Lists (.stmt m n :: es) p₁ p₂ s₁ s₂) :
    l.Lists es (return m :: (← p₁)) (return n :: (← p₂)) s₁ s₂ := by
  refine Pair.bind (Pair.shed h) (fun _ => keeps_pure _) (fun _ => keeps_pure _) ?_
  rintro is js t₁ t₂ ⟨es', hes, ht⟩
  exact .firm (firm_pure ⟨_, hes.cons, by rwa [List.append_assoc]⟩)

/-- Reading goes on after a statement that failed. -/
theorem firm_recover (hr : l.Rel es s₁ s₂) (start : Span) :
    l.Firm es (synchronize start) (synchronize start) s₁ s₂ fun _ _ t₁ t₂ =>
      l.Rel es t₁ t₂ ∧ synchronize start s₁ = .ok ⟨⟩ t₁ ∧ synchronize start s₂ = .ok ⟨⟩ t₂ := by
  cases firm_synchronize hr start with
  | ok h₁ h₂ h => exact .ok h₁ h₂ ⟨h, h₁, h₂⟩
  | stop h₁ h₂ h hpos => exact .stop h₁ h₂ h hpos
  | fault h₁ h₂ hf => exact .fault h₁ h₂ hf
  | first h₁ hb => exact .first h₁ hb
  | second h₂ hb => exact .second h₂ hb

theorem Linked.readItems (h : l.Linked parse) (hr : l.Rel es s₁ s₂) :
    l.Lists es (Parse.items parse) (Parse.items parse) s₁ s₂ := by
  refine (firm_eat hr .closeBrace).bind_pair ?_
  rintro closed _ t₁ t₂ ⟨rfl, ht, -⟩
  cases closed with
  | true => exact .firm (firm_pure ⟨[], .nil, ht.rel⟩)
  | false =>
    refine (firm_truncated ht.rel.same).bind_pair ?_
    rintro truncated _ _ _ ⟨rfl, rfl, rfl⟩
    cases truncated with
    | true => exact .firm (firm_pure ⟨[], .nil, ht.rel⟩)
    | false =>
      have hrest : l.Lists es
          (do
            let start ← currentSpan
            let r ← attempt (parse .stmt)
            afterItem parse start r)
          (do
            let start ← currentSpan
            let r ← attempt (parse .stmt)
            afterItem parse start r) t₁ t₂ := by
        refine (firm_currentSpan ht.rel.same).bind_pair ?_
        rintro start _ _ _ ⟨rfl, rfl, rfl⟩
        refine Pair.attempt (afterItem parse start) (afterItem parse start) (h.stmt ht.rel)
          ht.rel.sound₁ ht.rel.sound₂ (h.steady .stmt) (h.steady .stmt)
          (steady_afterItem h.steady start) (steady_afterItem h.steady start) ?_ ?_
          (fun _ => ⟨rfl, rfl⟩) (fun _ _ _ => rfl) (fun _ _ _ => rfl)
        · intro m n u₁ u₂ _ _ hu
          exact Lists.cons (h.items hu)
        · intro u₁ u₂ _ _ hu
          refine (firm_recover hu start).bind_pair ?_
          rintro _ _ v₁ v₂ ⟨hv, -⟩
          exact h.items hv
      refine (firm_atEnd ht.rel.same).bind_pair ?_
      rintro ended _ _ _ ⟨rfl, rfl, rfl, -⟩
      cases ended with
      | false => exact hrest
      | true =>
        refine (firm_unexpected (R := fun _ _ _ _ => False) ht.rel _).bind_pair ?_
        rintro _ _ _ _ ⟨⟩

/-! ### All productions -/

theorem Linked.step (h : l.Linked parse) : l.Linked (Parse.step parse) where
  steady := steady_step h.steady
  type hr := h.typeName hr
  params hr := h.readParams hr
  fields hr hdone := h.readFields hr hdone
  variants hr := h.readVariants hr
  path hr := h.readPath hr
  expr hr := h.expression hr _ _
  infixes hr := h.readInfixes hr _ _
  args hr := h.readArgs hr
  stmt hr := h.statement hr
  items hr := h.readItems hr

theorem firm_overflow {α : Type} {verb : String} {R : α → α → ParseState → ParseState → Prop} :
    l.Firm es (throw (.fault (.overflow verb))) (throw (.fault (.overflow verb))) s₁ s₂ R :=
  .fault rfl rfl Moves.overflow

/-- Two linked runs stay linked as deep as they go. -/
theorem linked_upTo (verb : String) (depth : Nat) : l.Linked (upTo (.overflow verb) depth) := by
  induction depth with
  | succ depth ih => exact ih.step
  | zero =>
    exact {
      steady := steady_upTo _ 0
      type := fun _ => firm_overflow
      params := fun _ => firm_overflow
      fields := fun _ _ => firm_overflow
      variants := fun _ => firm_overflow
      path := fun _ => firm_overflow
      expr := fun _ => .firm firm_overflow
      infixes := fun _ => .firm firm_overflow
      args := fun _ => .firm firm_overflow
      stmt := fun _ => .firm firm_overflow
      items := fun _ => .firm firm_overflow }

theorem upTo_eq_production (q : Production) (hr : l.Rel es s₁ s₂) :
    ∃ parse, l.Linked parse ∧ production q s₁ = parse q s₁ ∧
      ∀ q' : Production, q'.rank = q.rank → production q' s₂ = parse q' s₂ :=
  ⟨_, linked_upTo "" (3 * s₁.window.left + q.rank + 1), production_eq_upTo _ q hr.sound₁
    (by omega),
    fun q' hq => production_eq_upTo _ q' hr.sound₂ (by rw [← hr.same.window, hq]; omega)⟩

/-- All productions are linked: none goes too deep. -/
theorem linked_production : l.Linked production where
  steady := steady_production
  type hr := by
    obtain ⟨parse, h, h₁, h₂⟩ := upTo_eq_production .type hr
    exact (h.type hr).congr h₁ (h₂ _ rfl)
  params hr := by
    obtain ⟨parse, h, h₁, h₂⟩ := upTo_eq_production .params hr
    exact (h.params hr).congr h₁ (h₂ _ rfl)
  fields hr hd := by
    obtain ⟨parse, h, h₁, h₂⟩ := upTo_eq_production (.fields _) hr
    exact (h.fields hr hd).congr h₁ (h₂ _ rfl)
  variants hr := by
    obtain ⟨parse, h, h₁, h₂⟩ := upTo_eq_production .variants hr
    exact (h.variants hr).congr h₁ (h₂ _ rfl)
  path hr := by
    obtain ⟨parse, h, h₁, h₂⟩ := upTo_eq_production (.path _) hr
    exact (h.path hr).congr h₁ (h₂ _ rfl)
  expr hr := by
    obtain ⟨parse, h, h₁, h₂⟩ := upTo_eq_production (.expr _ _) hr
    exact (h.expr hr).congr h₁ (h₂ _ rfl)
  infixes hr := by
    obtain ⟨parse, h, h₁, h₂⟩ := upTo_eq_production (.infixes _ _ _) hr
    exact (h.infixes hr).congr h₁ (h₂ _ rfl)
  args hr := by
    obtain ⟨parse, h, h₁, h₂⟩ := upTo_eq_production .args hr
    exact (h.args hr).congr h₁ (h₂ _ rfl)
  stmt hr := by
    obtain ⟨parse, h, h₁, h₂⟩ := upTo_eq_production .stmt hr
    exact (h.stmt hr).congr h₁ (h₂ _ rfl)
  items hr := by
    obtain ⟨parse, h, h₁, h₂⟩ := upTo_eq_production .items hr
    exact (h.items hr).congr h₁ (h₂ _ rfl)

/-! ### Programs -/

/-- A whole program, if no storage runs out in either run. -/
theorem pair_program (hr : l.Rel es s₁ s₂) (hx₁ : ¬Exhausts s₁) (hx₂ : ¬Exhausts s₂) :
    l.Lists es (production .program) (production .program) s₁ s₂ := by
  induction hn : s₁.window.left using Nat.strongRecOn generalizing es s₁ s₂ with
  | ind n ih =>
    have h : l.Linked production := linked_production
    refine Pair.congr ?_ (production_eq_step .program hr.sound₁)
      (production_eq_step .program hr.sound₂)
    refine (firm_atEnd hr.same).bind_pair ?_
    rintro ended _ _ _ ⟨rfl, rfl, rfl, hend⟩
    cases ended with
    | true => exact .firm (firm_pure ⟨[], .nil, hr⟩)
    | false =>
      have htrunc : l.Firm es truncated truncated s₁ s₂ fun a b t₁ t₂ =>
          a = b ∧ s₁ = t₁ ∧ s₂ = t₂ ∧ s₁.reports.truncated = a :=
        .ok rfl rfl ⟨by rw [hr.same.reports], rfl, rfl, rfl⟩
      refine htrunc.bind_pair ?_
      rintro truncated _ _ _ ⟨rfl, rfl, rfl, htrunc⟩
      cases truncated with
      | true => exact .firm (firm_pure ⟨[], .nil, hr⟩)
      | false =>
        have hend₂ : s₂.window.atEnd = false := hr.same.window ▸ hend.symm
        have htrunc₂ : s₂.reports.truncated = false := hr.same.reports ▸ htrunc
        have hspan : currentSpan s₂ = .ok s₁.window.current.span s₂ := by
          rw [hr.same.window]
          rfl
        refine pair_bind_of_ok (a := s₁.window.current.span) rfl hspan ?_
        refine Pair.attempt (afterStmt production s₁.window.current.span)
          (afterStmt production s₁.window.current.span) (h.stmt hr) hr.sound₁ hr.sound₂
          (h.steady .stmt) (h.steady .stmt) (steady_afterStmt h.steady _)
          (steady_afterStmt h.steady _) ?_ ?_ (fun _ => ⟨rfl, rfl⟩) ?_ ?_
        · intro m n u₁ u₂ g₁ g₂ hu
          have hlt := (production_takes hr.sound₁ g₁).2
          exact Lists.cons (ih _ (hn ▸ hlt) hu (fun hx => hx₁ (.read hend.symm htrunc g₁ hx))
            (fun hx => hx₂ (.read hend₂ htrunc₂ g₂ hx)) rfl)
        · intro u₁ u₂ g₁ g₂ hu
          refine (firm_recover hu s₁.window.current.span).bind_pair ?_
          rintro _ _ v₁ v₂ ⟨hv, k₁, k₂⟩
          have ho := ((h.steady .stmt).error g₁ hr.sound₁).1
          have hlt := (left_synchronize hend.symm ho.sound ho.window k₁).2
          refine ih _ (hn ▸ hlt) hv (fun hx => hx₁ (.skipped hend.symm htrunc g₁ k₁ hx))
            (fun hx => ?_) rfl
          rw [hr.same.window] at k₂
          exact hx₂ (.skipped hend₂ htrunc₂ g₂ k₂ hx)
        · intro cause u₁ g₁
          exact absurd (.here hend.symm htrunc g₁) hx₁
        · intro cause u₂ g₂
          exact absurd (.here hend₂ htrunc₂ g₂) hx₂

end Link

end FrontEnd
