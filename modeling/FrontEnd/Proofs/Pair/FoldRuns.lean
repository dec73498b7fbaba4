import FrontEnd.Constant.Folder
import FrontEnd.Proofs.Pair.Pools

/-! Folding in two trees that match: the same subtrees have the same values. -/

namespace FrontEnd

open Tie

variable {D : Prop} {t u : Tree}

/-! ### Code -/

namespace Lowering

variable {isBound : Name → Bool}

/-- The run ended with a fault. -/
def Faulty (stop : Option (Halt EvalError)) : Prop := ∃ f, stop = some (.fault f)

/-- Code is generated alike, until one run faults. -/
def tie : Tie (Halt EvalError) Chunk where
  inStep := Eq
  parted x y := Faulty x.1 ∨ Faulty y.1
  leads x y := Faulty x.1 → Faulty y.1

instance : tie.Lawful where
  refl _ := id
  trans h h' := h' ∘ h
  left h hl := h.imp hl id
  right h hl := h.imp id hl

/-- Whatever does not look at the tree. -/
theorem steps_self {α : Type} (p : Lowering α) : tie.Steps p := by
  refine .mk (fun _ => fun ⟨_, h⟩ => nomatch h) ?_
  rintro s _ rfl
  cases p s with
  | ok a c => exact .ok rfl
  | error e c => exact .stop rfl

theorem lockstep_node {f g : ExprId → Lowering Unit} (ht : ∀ id, t.expr id = u.expr id)
    (h : ∀ id, tie.Lockstep (f id) (g id)) (id : ExprId) :
    tie.Lockstep (node t isBound f id) (node u isBound g id) := by
  unfold node
  rw [ht]
  refine (steps_self _).bind fun e => ?_
  cases e.kind with
  | group inner => exact h inner
  | binary op left right =>
    exact (h left).bind fun _ => (h right).bind fun _ => steps_self _
  | unary op operand =>
    dsimp only
    split
    · exact steps_self _
    · exact (h operand).bind fun _ => steps_self _
  | _ => exact steps_self _

theorem lockstep_within (ht : ∀ id, t.expr id = u.expr id) (d e : Nat) (id : ExprId) :
    tie.Lockstep (within t isBound d id) (within u isBound e id) := by
  induction d generalizing e id with
  | zero =>
    exact ⟨(steps_self _).left, (steps_self _).left, fun _ _ _ => .parted (.inl ⟨_, rfl⟩)⟩
  | succ d ih =>
    cases e with
    | zero => exact ⟨(steps_self _).left, (steps_self _).left, fun _ _ _ => .parted (.inr ⟨_, rfl⟩)⟩
    | succ e => exact lockstep_node ht (ih e) id

end Lowering

/-! ### Folding -/

namespace Folder

variable {F : Folder} {depth : Nat} {α β : Type}

theorem evaluate_of_fault {id : ExprId} {fault : Fault}
    (h : (ending (F.lower depth t id)).1 = some (.fault fault)) :
    F.evaluate depth t id = .error (.fault fault) := by
  unfold evaluate
  cases hrun : F.lower depth t id with
  | ok a code =>
    rw [hrun] at h
    cases h
  | error e code =>
    rw [hrun] at h
    cases h
    rfl

/-- An expression has the same value in both trees, unless one run faults. -/
theorem evaluate_eq (F : Folder) (depth : Nat) (h : t.Matches D u) (id : ExprId) :
    F.evaluate depth t id = F.evaluate depth u id ∨ ¬D ∧
      ((∃ f, F.evaluate depth t id = .error (.fault f)) ∨
        ∃ f, F.evaluate depth u id = .error (.fault f)) := by
  by_cases hD : D
  · rw [h.eq hD]
    exact .inl rfl
  · have hnodes : Lowering.tie.Lockstep
        (Lowering.within t (F.isBound · depth) (t.exprs.capacity + 1) id)
        (Lowering.within u (F.isBound · depth) (u.exprs.capacity + 1) id) :=
      Lowering.lockstep_within h.expr_eq _ _ id
    have hrun := hnodes.pair .empty .empty rfl
    change Lowering.tie.Pair (F.lower depth t id) (F.lower depth u id) at hrun
    generalize hx : F.lower depth t id = x at hrun
    generalize hy : F.lower depth u id = y at hrun
    cases hrun with
    | ok hc =>
      left
      unfold evaluate
      rw [hx, hy, hc]
    | stop hc =>
      left
      unfold evaluate
      rw [hx, hy, hc]
    | parted hf =>
      exact .inr ⟨hD, hf.imp (fun ⟨f, hf⟩ => ⟨f, evaluate_of_fault (hx ▸ hf)⟩)
        fun ⟨f, hf⟩ => ⟨f, evaluate_of_fault (hy ▸ hf)⟩⟩

/-- The trees match. Unless `D` holds, a run can also stop alone. -/
def tie (D : Prop) : Tie Fault Tree where
  inStep := Tree.Matches D
  parted x y := ¬D ∧ (x.1.isSome ∨ y.1.isSome)
  leads x y := x.1.isSome → y.1.isSome

instance : (tie D).Lawful where
  refl _ := id
  trans h h' := h' ∘ h
  left h hl := ⟨h.1, h.2.imp hl id⟩
  right h hl := ⟨h.1, h.2.imp id hl⟩

theorem alone (p : EStateM Fault Tree α) : (tie D).Alone p := fun _ => nofun

theorem ofExcept_eq (r : Except Fault α) (s : Tree) :
    (ofExcept r : EStateM Fault Tree α) s = answered id s r := by
  cases r <;> rfl

theorem steps_ofExcept (r : Except Fault α) :
    (tie D).Steps (ofExcept r : EStateM Fault Tree α) := by
  refine .mk (alone _) fun t u htu => ?_
  cases r with
  | ok a => exact .ok htu
  | error f => exact .stop htu

theorem pair_answer {R : α → α → Prop} {x y : Except Fault α} {f g : α → EStateM Fault Tree β}
    (hst : t.Matches D u) (h : Answers D R x y)
    (hfg : ∀ a b, R a b → (tie D).Pair (f a t) (g b u)) :
    (tie D).Pair ((ofExcept x >>= f) t) ((ofExcept y >>= g) u) :=
  Pair.answer (ofExcept_eq x t) (ofExcept_eq y u) hst h (fun hD _ _ => ⟨hD, .inl rfl⟩)
    (fun hD _ _ => ⟨hD, .inr rfl⟩) hfg

theorem steps_replaceExpr (id : ExprId) (e : Expr) (value : Value) : (tie D).Steps (do
    set (← ofExcept ((← get).replaceExpr id e)).2
    return some value : EStateM Fault Tree (Option Value)) :=
  steps_get_bind (alone _) fun _ _ htu =>
    pair_answer htu (htu.replaceExpr id e) fun _ _ hab => .ok hab

/-- The children of a node that is not replaced. -/
theorem lockstep_foldChildren {f g : ExprId → EStateM Fault Tree (Option Value)}
    (h : ∀ id, (tie D).Lockstep (f id) (g id)) (kind : ExprKind) :
    (tie D).Lockstep
      (do
        for child in foldedChildren (← get) kind do
          let _ ← f child
        return (none : Option Value))
      (do
        for child in foldedChildren (← get) kind do
          let _ ← g child
        return (none : Option Value)) := by
  refine lockstep_look (fun s => ?_) fun s t hst => ?_
  · exact (lockstep_forIn _ fun child _ => (h child).bind fun _ => steps_pure _).bind
      fun _ => steps_pure _
  · have hsame : foldedChildren s kind = foldedChildren t kind := by
      cases kind <;> simp only [foldedChildren, hst.exprList_eq]
    rw [hsame]

/-- One node, given the folding of its children. -/
theorem lockstep_foldNode {f g : ExprId → EStateM Fault Tree (Option Value)}
    (h : ∀ id, (tie D).Lockstep (f id) (g id)) (id : ExprId) :
    (tie D).Lockstep (F.foldNode depth f id) (F.foldNode depth g id) := by
  refine lockstep_look (fun s => ?_) fun s t hst => by rw [hst.expr_eq]
  refine Lockstep.bind (steps_ofExcept _) fun e => ?_
  dsimp only
  split
  · exact steps_pure _
  · split
    · refine ⟨alone _, alone _, fun t u htu => ?_⟩
      rw [get_bind, get_bind]
      rcases evaluate_eq F depth htu id with heq | ⟨hD, ⟨fault, hfault⟩ | ⟨fault, hfault⟩⟩
      · rw [heq]
        cases F.evaluate depth u id with
        | ok value =>
          exact (steps_replaceExpr id _ value).pair t u htu
        | error e =>
          cases e with
          | cause _ => exact (lockstep_foldChildren h _).pair t u htu
          | fault f => exact .stop htu
      · rw [hfault]
        exact .parted ⟨hD, .inl rfl⟩
      · rw [hfault]
        exact .parted ⟨hD, .inr rfl⟩
    · exact lockstep_foldChildren h _

theorem lockstep_foldWithin {d e : Nat} (hde : D → d = e) (id : ExprId) :
    (tie D).Lockstep (F.foldWithin depth d id) (F.foldWithin depth e id) := by
  induction d generalizing e id with
  | zero =>
    refine ⟨alone _, alone _, fun t u htu => ?_⟩
    by_cases hD : D
    · rw [← hde hD]
      exact .stop htu
    · exact .parted ⟨hD, .inl rfl⟩
  | succ d ih =>
    cases e with
    | zero => exact ⟨alone _, alone _, fun _ _ _ => .parted ⟨fun hD => (nomatch hde hD), .inr rfl⟩⟩
    | succ e => exact lockstep_foldNode (ih fun hD => Nat.succ.inj (hde hD)) id

/-- Folding goes on in the same way until one run has no more steps. -/
theorem steps_fold (id : ExprId) : (tie D).Steps (F.fold depth id) :=
  steps_get_bind (alone _) fun t u htu =>
    (lockstep_foldWithin (fun hD => by rw [htu.eq hD]) id).pair t u htu

end Folder

end FrontEnd
