import FrontEnd.Proofs.Grammar.LinkParts
import FrontEnd.Proofs.Grammar.SteadyProductions

/-! Blocks, and failures that are caught, in two linked runs. -/

namespace FrontEnd

theorem ParseState.Sound.shift {s : ParseState} {scope : Scope → Scope}
    {returns : List TypeId → List TypeId} (h : s.Sound)
    (hd : s.scope.depth ≤ (scope s.scope).depth) : (s.shift scope returns).Sound :=
  { h with
    shallow := h.shallow.mono hd
    bindings := fun key hk => h.bindings key (Nat.lt_of_le_of_lt hd hk) }

namespace Parse

variable {α β : Type} {p : Parse α} {s t : ParseState} {after : ParseState → ParseState}

theorem ensuring_of_ok {a : α} (h : p s = .ok a t) : ensuring p after s = .ok a (after t) := by
  simp only [ensuring, h]

theorem ensuring_of_error {e : Stop} (h : p s = .error e t) :
    ensuring p after s = .error e (after t) := by
  simp only [ensuring, h]

/-- What cannot fail and is not touched by the end of `p` may as well wait for it. -/
theorem ensuring_bind (p : Parse α) (f : α → Parse β)
    (hf : ∀ a s, ∃ b t, f a s = .ok b t ∧ f a (after s) = .ok b (after t)) :
    ensuring (p >>= f) after = ensuring p after >>= f := by
  funext s
  cases hp : p s with
  | error e t => rw [ensuring_of_error (bind_of_error hp), bind_of_error (ensuring_of_error hp)]
  | ok a t =>
    obtain ⟨b, u, hu, hafter⟩ := hf a t
    rw [ensuring_of_ok ((bind_of_ok hp).trans hu), bind_of_ok (ensuring_of_ok hp), hafter]

theorem inScope_bind (p : Parse α) (f : α → Parse β)
    (hf : ∀ a s, ∃ b t, f a s = .ok b t ∧ f a (leaveScope s) = .ok b (leaveScope t)) :
    inScope (p >>= f) = inScope p >>= f := by
  unfold inScope
  rw [ensuring_bind p f hf, bind_assoc]

/-! The list of the statements of a body may be made after the body was left. -/

variable (parse : Productions)

theorem inScope_bodyItems :
    inScope (bodyItems parse) = inScope (parse .items) >>= addStmtList :=
  inScope_bind _ _ fun _ _ => ⟨_, _, rfl, rfl⟩

theorem returning_bodyItems (ret : TypeId) :
    returning ret (bodyItems parse) = returning ret (parse .items) >>= addStmtList := by
  have hlist (ids : List StmtId) (s : ParseState) : ∃ q t, addStmtList ids s = .ok q t ∧
      addStmtList ids { s with returns := s.returns.tail } =
        .ok q { t with returns := t.returns.tail } := ⟨_, _, rfl, rfl⟩
  unfold returning
  rw [bind_assoc, ← ensuring_bind (parse .items) addStmtList hlist]
  rfl

theorem listStmt_spanFrom (form : ListRange → StmtKind) (start : Span) (ids : List StmtId) :
    (do
      let body ← addStmtList ids
      addStmt (form body) (← spanFrom start)) = (do listStmt form (← spanFrom start) ids) := rfl

theorem block_eq : block parse = (do
    let brace ← expect .openBrace
    let ids ← inScope (parse .items)
    listStmt .block (← spanFrom brace.span) ids) := by
  simp only [block, inScope_bodyItems, bind_assoc, ← listStmt_spanFrom]

theorem functionBody_eq (type : TypeId) : functionBody parse type = (do
    let brace ← expect .openBrace
    let signature ← ofFault ((← get).types.function? type)
    let ids ← inScope do
      signature.forM declareParams
      returning ((signature.map Signature.ret).getD .invalid) (parse .items)
    listStmt .block (← spanFrom brace.span) ids) := by
  have hinner (signature : Option Signature) : inScope (do
        signature.forM declareParams
        returning ((signature.map Signature.ret).getD .invalid) (bodyItems parse)) =
      inScope (do
        signature.forM declareParams
        returning ((signature.map Signature.ret).getD .invalid) (parse .items)) >>=
      addStmtList := by
    have hlist (ids : List StmtId) (s : ParseState) : ∃ q t, addStmtList ids s = .ok q t ∧
        addStmtList ids (leaveScope s) = .ok q (leaveScope t) := ⟨_, _, rfl, rfl⟩
    rw [← inScope_bind _ addStmtList hlist, returning_bodyItems, bind_assoc]
  simp only [functionBody, hinner, bind_assoc, ← listStmt_spanFrom]

theorem steady_listStmt {k : Nat} (form : ListRange → StmtKind) (span : Span)
    (ids : List StmtId) : Steady k (listStmt form span ids) :=
  (steady_addStmtList ids).bind fun _ => steady_addStmt ..

end Parse

namespace Link

open Parse

variable {l : Link} {α β : Type} {es es' : List Entry} {s₁ s₂ t₁ t₂ : ParseState}
  {p₁ p₂ : Parse α} {R R' : α → α → ParseState → ParseState → Prop}
  {Q : β → β → ParseState → ParseState → Prop} {k : Nat} {after : ParseState → ParseState}
  {E : α → α → ParseState → List Entry} {P : α → α → List Entry → Prop}

/-! ### Rules -/

theorem last_ensuring (p : Parse α) (after : ParseState → ParseState) (s : ParseState) :
    last (ensuring p after s) = after (last (p s)) := by
  unfold ensuring
  cases p s <;> rfl

theorem Pair.ensuring (h : l.Pair es p₁ p₂ s₁ s₂ R)
    (htree : ∀ t, (after t).tree = t.tree)
    (hok : ∀ a b t₁ t₂, R a b t₁ t₂ → R' a b (after t₁) (after t₂))
    (hfail : ∀ t₁ t₂, p₁ s₁ = .error .reported t₁ → p₂ s₂ = .error .reported t₂ →
      l.rel es t₁ t₂ → 0 < t₁.reports.reports.size →
      l.rel es (after t₁) (after t₂) ∧ 0 < (after t₁).reports.reports.size)
    (hapart : l.Apart (last (p₁ s₁)) (last (p₂ s₂)) →
      l.Apart (after (last (p₁ s₁))) (after (last (p₂ s₂)))) :
    l.Pair es (ensuring p₁ after) (ensuring p₂ after) s₁ s₂ R' := by
  cases h with
  | apart h =>
    refine .apart ?_
    rw [last_ensuring, last_ensuring]
    exact hapart h
  | firm h =>
    refine .firm ?_
    cases h with
    | ok g₁ g₂ g => exact .ok (ensuring_of_ok g₁) (ensuring_of_ok g₂) (hok _ _ _ _ g)
    | stop g₁ g₂ g hpos =>
      obtain ⟨g, hpos⟩ := hfail _ _ g₁ g₂ g hpos
      exact .stop (ensuring_of_error g₁) (ensuring_of_error g₂) g hpos
    | fault g₁ g₂ hf => exact .fault (ensuring_of_error g₁) (ensuring_of_error g₂) hf
    | first g₁ hb => exact .first (ensuring_of_error g₁) (hb.mono (htree _) (.refl _))
    | second g₂ hb => exact .second (ensuring_of_error g₂) (hb.mono (htree _) (.refl _))

/-- The relation of a law, and where the step leads. -/
theorem Firm.rel (h : l.Firm es p₁ p₂ s₁ s₂ fun a b t₁ t₂ => l.rel (E a b t₁) t₁ t₂)
    (hs₁ : s₁.Sound) (hs₂ : s₂.Sound) (h₁ : Steady k p₁) (h₂ : Steady k p₂) :
    l.Firm es p₁ p₂ s₁ s₂ fun a b t₁ t₂ => l.Rel (E a b t₁) t₁ t₂ ∧ s₁.Onto k t₁ :=
  (h.onto h₁ h₂ hs₁ hs₂).imp fun _ _ _ _ ⟨g, ho₁, ho₂⟩ => ⟨⟨ho₁.sound, ho₂.sound, g⟩, ho₁⟩

theorem Pair.rel (h : l.Pair es p₁ p₂ s₁ s₂ fun a b t₁ t₂ => l.rel (E a b t₁) t₁ t₂)
    (hs₁ : s₁.Sound) (hs₂ : s₂.Sound) (h₁ : Steady k p₁) (h₂ : Steady k p₂) :
    l.Pair es p₁ p₂ s₁ s₂ fun a b t₁ t₂ => l.Rel (E a b t₁) t₁ t₂ ∧ s₁.Onto k t₁ :=
  (h.onto h₁ h₂ hs₁ hs₂).imp fun _ _ _ _ ⟨g, ho₁, ho₂⟩ => ⟨⟨ho₁.sound, ho₂.sound, g⟩, ho₁⟩

section

variable [l.Lawful]

theorem knows_onto {type : TypeId} (h : l.knows type s₁) (ho : s₁.Onto k t₁) : l.knows type t₁ :=
  Moves.knows h ho.types ho.names ho.reports

theorem knows_shift {type : TypeId} {scope : Scope → Scope} {returns : List TypeId → List TypeId}
    (h : l.knows type s₁) : l.knows type (s₁.shift scope returns) :=
  Moves.knows h (.refl _) (.refl _) (Nat.le_refl _)

/-! ### Blocks -/

/-- Both runs go on in another place of the program. -/
theorem Rel.shift {scope : Scope → Scope} (h : l.Rel es s₁ s₂)
    (hd : ∀ c : Scope, (scope c).depth = c.depth) :
    l.Rel es (s₁.shift scope id) (s₂.shift scope id) :=
  ⟨h.sound₁.shift (hd _).ge, h.sound₂.shift (hd _).ge, Moves.shift h hd⟩

/-- What is run elsewhere at the same depth, and then back. -/
theorem Pair.shifted (leave : Scope → Scope)
    (h : l.Pair es p₁ p₂ s₁ s₂ fun a b t₁ t₂ => ∃ es', P a b es' ∧ l.Rel (es' ++ es) t₁ t₂)
    (hs₁ : s₁.Sound) (hs₂ : s₂.Sound) (h₁ : Steady k p₁) (h₂ : Steady k p₂)
    (hleave : ∀ c, (leave c).depth = c.depth) :
    l.Pair es (Parse.ensuring p₁ (·.shift leave id)) (Parse.ensuring p₂ (·.shift leave id)) s₁ s₂
      fun a b t₁ t₂ => ∃ es', P a b es' ∧ l.Rel (es' ++ es) t₁ t₂ := by
  refine h.ensuring (fun _ => rfl) (fun a b t₁ t₂ ht => ?_)
    (fun t₁ t₂ g₁ g₂ ht hpos => ⟨?_, hpos⟩) fun ht => ?_
  · obtain ⟨es', he, ht⟩ := ht
    exact ⟨es', he, ht.shift hleave⟩
  · exact Moves.shift ⟨(h₁.error g₁ hs₁).1.sound, (h₂.error g₂ hs₂).1.sound, ht⟩ hleave
  · exact ht.later (ht.sound₁.shift (hleave _).ge) (ht.sound₂.shift (hleave _).ge)
      (Nat.le_refl _) (Nat.le_refl _)

/-- What is run where values of a type are returned. -/
theorem Rel.returning {ret : TypeId}
    (h : l.Rel es (s₁.shift id (ret :: ·)) (s₂.shift id (ret :: ·)))
    (h₁ : Steady k p₁) (h₂ : Steady k p₂)
    (hp : l.Pair es p₁ p₂ (s₁.shift id (ret :: ·)) (s₂.shift id (ret :: ·)) R) :
    l.Pair es (Parse.returning ret p₁) (Parse.returning ret p₂) s₁ s₂ fun a b t₁ t₂ =>
      ∃ u₁ u₂, t₁ = u₁.shift id List.tail ∧ t₂ = u₂.shift id List.tail ∧ R a b u₁ u₂ := by
  have hrun : l.Pair es (Parse.ensuring p₁ (·.shift id List.tail))
      (Parse.ensuring p₂ (·.shift id List.tail)) (s₁.shift id (ret :: ·)) (s₂.shift id (ret :: ·))
      fun a b t₁ t₂ =>
        ∃ u₁ u₂, t₁ = u₁.shift id List.tail ∧ t₂ = u₂.shift id List.tail ∧ R a b u₁ u₂ := by
    refine hp.ensuring (fun _ => rfl) (fun a b u₁ u₂ hu => ⟨u₁, u₂, rfl, rfl, hu⟩)
      (fun u₁ u₂ g₁ g₂ hu hpos => ⟨?_, hpos⟩) fun hu => ?_
    · exact Moves.resign ⟨(h₁.error g₁ h.sound₁).1.sound, (h₂.error g₂ h.sound₂).1.sound, hu⟩ hpos
    · exact hu.later (hu.sound₁.shift (Nat.le_refl _)) (hu.sound₂.shift (Nat.le_refl _))
        (Nat.le_refl _) (Nat.le_refl _)
  exact pair_bind_of_ok (a := ⟨⟩) (b := ⟨⟩) rfl rfl hrun

/-- What is run in a block of its own. -/
theorem Rel.inScope {G : α → α → List Entry} (h : l.Rel es s₁ s₂) (h₁ : Steady 0 p₁)
    (h₂ : Steady 0 p₂)
    (hp : l.Rel (.enter :: es) (s₁.shift Scope.enter id) (s₂.shift Scope.enter id) →
      l.Pair (.enter :: es) p₁ p₂ (s₁.shift Scope.enter id) (s₂.shift Scope.enter id) R)
    (hleave : ∀ a b t₁ t₂, R a b t₁ t₂ → 0 < t₁.scope.depth →
      l.rel (G a b ++ es) (leaveScope t₁) (leaveScope t₂)) :
    l.Pair es (Parse.inScope p₁) (Parse.inScope p₂) s₁ s₂ fun a b t₁ t₂ =>
      l.Rel (G a b ++ es) t₁ t₂ := by
  have hshift : l.Rel (.enter :: es) (s₁.shift Scope.enter id) (s₂.shift Scope.enter id) :=
    ⟨h.sound₁.shift (Nat.le_succ _), h.sound₂.shift (Nat.le_succ _), Lawful.enter h⟩
  have hwhole := (hp hshift).shed.onto h₁ h₂ hshift.sound₁ hshift.sound₂
  -- However the inner run ends, the state after leaving is sound.
  have hsound {p : Parse α} {s : ParseState} (hs : s.Sound) (hst : Steady 0 p) :
      (leaveScope (last (p (s.shift Scope.enter id)))).Sound := by
    have hout := steady_inScope hst
    have heq : last (Parse.inScope p s) = leaveScope (last (p (s.shift Scope.enter id))) :=
      last_ensuring ..
    rw [← heq]
    cases hr : Parse.inScope p s with
    | ok a t => exact (hout.ok hr hs).sound
    | error e t => exact (hout.error hr hs).1.sound
  have hdepth {s t : ParseState} (hs : (s.shift Scope.enter id).Onto 0 t) : 0 < t.scope.depth := by
    rw [hs.depth]
    exact Nat.succ_pos _
  have henter (s : ParseState) : enterScope s = .ok ⟨⟩ (s.shift Scope.enter id) := rfl
  refine pair_bind_of_ok (henter s₁) (henter s₂) ?_
  have hleft := hsound h.sound₁ h₁
  have hright := hsound h.sound₂ h₂
  cases hwhole with
  | apart ha =>
    refine .apart ?_
    rw [last_ensuring, last_ensuring]
    exact ha.later hleft hright (Nat.le_refl _) (Nat.le_refl _)
  | firm hf =>
    refine .firm ?_
    cases hf with
    | ok g₁ g₂ g =>
      obtain ⟨g, ho₁, -⟩ := g
      rw [g₁] at hleft
      rw [g₂] at hright
      exact .ok (ensuring_of_ok g₁) (ensuring_of_ok g₂)
        ⟨hleft, hright, hleave _ _ _ _ g (hdepth ho₁)⟩
    | stop g₁ g₂ g hpos =>
      have ho₁ := (h₁.error g₁ hshift.sound₁).1
      have ho₂ := (h₂.error g₂ hshift.sound₂).1
      exact .stop (ensuring_of_error g₁) (ensuring_of_error g₂)
        (Lawful.abandon ⟨ho₁.sound, ho₂.sound, g⟩ hpos (hdepth ho₁)) hpos
    | fault g₁ g₂ hf => exact .fault (ensuring_of_error g₁) (ensuring_of_error g₂) hf
    | first g₁ hb => exact .first (ensuring_of_error g₁) (hb.mono rfl (.refl _))
    | second g₂ hb => exact .second (ensuring_of_error g₂) (hb.mono rfl (.refl _))

end

/-! ### Failures -/

/-- What follows a run that is not let fail. -/
theorem Pair.attempt (f₁ f₂ : Except Stop α → Parse β) (h : l.Pair es p₁ p₂ s₁ s₂ R)
    (hs₁ : s₁.Sound) (hs₂ : s₂.Sound) (h₁ : Steady 0 p₁) (h₂ : Steady 0 p₂)
    (c₁ : ∀ r, Steady 0 (f₁ r)) (c₂ : ∀ r, Steady 0 (f₂ r))
    (hok : ∀ a b t₁ t₂, p₁ s₁ = .ok a t₁ → p₂ s₂ = .ok b t₂ → R a b t₁ t₂ →
      l.Pair es (f₁ (.ok a)) (f₂ (.ok b)) t₁ t₂ Q)
    (hreported : ∀ t₁ t₂, p₁ s₁ = .error .reported t₁ → p₂ s₂ = .error .reported t₂ →
      l.Rel es t₁ t₂ → l.Pair es (f₁ (.error .reported)) (f₂ (.error .reported)) t₁ t₂ Q)
    (hfault : ∀ f, f₁ (.error (.fault f)) = throw (.fault f) ∧
      f₂ (.error (.fault f)) = throw (.fault f))
    (hfirst : ∀ cause t₁, p₁ s₁ = .error (.exhausted cause) t₁ →
      f₁ (.error (.exhausted cause)) = throw (.exhausted cause))
    (hsecond : ∀ cause t₂, p₂ s₂ = .error (.exhausted cause) t₂ →
      f₂ (.error (.exhausted cause)) = throw (.exhausted cause)) :
    l.Pair es (Parse.attempt p₁ >>= f₁) (Parse.attempt p₂ >>= f₂) s₁ s₂ Q := by
  have hrun {p : Parse α} {s t : ParseState} {e : Stop} (g : p s = .error e t) :
      Parse.attempt p s = .ok (.error e) t := by simp only [Parse.attempt, g]
  have hthrow {p : Parse α} {f : Except Stop α → Parse β} {s t : ParseState} {e : Stop}
      (g : p s = .error e t) (hf : f (.error e) = throw e) :
      (Parse.attempt p >>= f) s = .error e t := by
    rw [bind_of_ok (hrun g), hf]
    rfl
  cases h with
  | apart h =>
    have hlast (p : Parse α) (s : ParseState) : last (Parse.attempt p s) = last (p s) := by
      unfold Parse.attempt
      cases p s <;> rfl
    rw [← hlast, ← hlast] at h
    have ho₁ := onto_last h.sound₁ c₁
    have ho₂ := onto_last h.sound₂ c₂
    exact .apart (h.later ho₁.sound ho₂.sound ho₁.reports ho₂.reports)
  | firm h =>
    cases h with
    | ok g₁ g₂ g =>
      exact pair_bind_of_ok (by simp only [Parse.attempt, g₁]) (by simp only [Parse.attempt, g₂])
        (hok _ _ _ _ g₁ g₂ g)
    | stop g₁ g₂ g _ =>
      exact pair_bind_of_ok (hrun g₁) (hrun g₂) (hreported _ _ g₁ g₂
        ⟨(h₁.error g₁ hs₁).1.sound, (h₂.error g₂ hs₂).1.sound, g⟩)
    | fault g₁ g₂ hf => exact .firm (.fault (hthrow g₁ (hfault _).1) (hthrow g₂ (hfault _).2) hf)
    | @first e _ g₁ hb =>
      cases e with
      | exhausted cause => exact .firm (.first (hthrow g₁ (hfirst _ _ g₁)) hb)
      | fault f => exact .firm (.first (hthrow g₁ (hfault f).1) hb)
      | reported => cases hb
    | @second e _ g₂ hb =>
      cases e with
      | exhausted cause => exact .firm (.second (hthrow g₂ (hsecond _ _ g₂)) hb)
      | fault f => exact .firm (.second (hthrow g₂ (hfault f).2) hb)
      | reported => cases hb

end Link

end FrontEnd
