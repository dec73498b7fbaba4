import FrontEnd.Constant.Folder
import FrontEnd.Proofs.Grammar.Outcome
import FrontEnd.Proofs.Syntax.StoredStatements

/-! Folding keeps the storages of a tree sound, and releases no statement. -/

namespace FrontEnd

/-- The pools stay sound, and the statements are the same. -/
def Tree.Onto (t u : Tree) : Prop := t.Sound → u.Sound ∧ u.stmts = t.stmts

instance : Std.Refl Tree.Onto := ⟨fun _ h => ⟨h, rfl⟩⟩

instance : Trans Tree.Onto Tree.Onto Tree.Onto where
  trans h h' ht := by
    obtain ⟨hu, hs⟩ := h ht
    obtain ⟨hv, hs'⟩ := h' hu
    exact ⟨hv, hs'.trans hs⟩

namespace Lowering

variable {tree : Tree} {isBound : Name → Bool}

/-- There is code for the expression. -/
def Lowers (tree : Tree) (isBound : Name → Bool) (id : ExprId) : Prop :=
  ∃ depth chunk chunk', within tree isBound depth id chunk = .ok ⟨⟩ chunk'

/-- What an expression with code is made of has code. -/
theorem closed_lowers : tree.Closed (Lowers tree isBound) := by
  rintro id ⟨_ | depth, chunk, chunk', h⟩ e he child hchild
  · cases h
  · unfold within node at h
    simp only [he] at h
    obtain ⟨_, _, hread, h⟩ := bind_eq_ok h
    cases hread
    cases hk : e.kind with
    | group inner =>
      rw [hk] at h hchild
      obtain rfl := List.mem_singleton.1 hchild
      exact ⟨inner, rfl, depth, _, _, h⟩
    | unary op operand =>
      rw [hk] at h hchild
      obtain rfl := List.mem_singleton.1 hchild
      dsimp only at h
      split at h
      · cases h
      · obtain ⟨_, _, hoperand, -⟩ := bind_eq_ok h
        exact ⟨operand, rfl, depth, _, _, hoperand⟩
    | binary op left right =>
      rw [hk] at h hchild
      obtain ⟨_, _, hleft, h⟩ := bind_eq_ok h
      obtain ⟨_, _, hright, -⟩ := bind_eq_ok h
      rcases List.mem_cons.1 hchild with rfl | hchild
      · exact ⟨right, rfl, depth, _, _, hright⟩
      · obtain rfl := List.mem_singleton.1 hchild
        exact ⟨left, rfl, depth, _, _, hleft⟩
    | literal _ | var _ =>
      rw [hk] at hchild
      cases hchild
    | _ =>
      rw [hk] at h
      cases h

end Lowering

namespace Folder

variable {f : Folder} {depth : Nat}

/-! ### Bindings -/

theorem bindingAt_empty (key : ScopedKey) : empty.bindingAt key = none := by
  simp [empty, bindingAt]

theorem bindingAt_bind (f : Folder) (key k : ScopedKey) (value : Value) :
    (f.bind key value).bindingAt k = if k = key then some value else f.bindingAt k := by
  simp only [bind, bindingAt, Std.HashMap.getElem?_insert, beq_iff_eq, @eq_comm _ k key]

theorem bindingAt_unbind (f : Folder) (key k : ScopedKey) :
    (f.unbind key).bindingAt k = if k = key then none else f.bindingAt k := by
  simp only [unbind, bindingAt, Std.HashMap.getElem?_erase, beq_iff_eq, @eq_comm _ k key]

theorem bindingAt_leaveScope (f : Folder) (depth : Nat) (k : ScopedKey) :
    (f.leaveScope depth).bindingAt k = if k.depth = depth then none else f.bindingAt k := by
  simp only [leaveScope, bindingAt, Std.HashMap.getElem?_filter']
  by_cases h : k.depth = depth
  · simp [h]
  · have hkeep : (k.depth != depth) = true := by simp [h]
    cases f.bindings[k]? <;> simp [h]

/-! ### Steps -/

/-- A step that folds live nodes. -/
abbrev Steady {α : Type} (p : EStateM Fault Tree α) : Prop :=
  Keeps Tree.Onto (fun t _ u => t.Onto u) p

theorem steady_ofExcept {α : Type} (r : Except Fault α) :
    Steady (ofExcept r : EStateM Fault Tree α) :=
  keeps_ofExcept fun _ t _ => Std.Refl.refl t

/-- Code that yields a value was generated. -/
theorem lowers_of_evaluate {t : Tree} {id : ExprId} {value : Value}
    (h : f.evaluate depth t id = .ok value) :
    Lowering.Lowers t (f.isBound · depth) id := by
  unfold evaluate at h
  cases hl : f.lower depth t id with
  | ok u chunk => exact ⟨_, _, chunk, hl⟩
  | error e chunk =>
    rw [hl] at h
    cases h

/-- What is replaced by its value is made of constants, so no statement is below it. -/
theorem meets_replaceExpr {t : Tree} {id : ExprId} {value : Value} {span : Span}
    (h : f.evaluate depth t id = .ok value) :
    Meets (do
      set (← ofExcept ((← get).replaceExpr id (Expr.ofValue value span))).2
      return some value : EStateM Fault Tree (Option Value)) t
      (fun _ u => t.Onto u) fun _ u => t.Onto u := by
  refine meets_bind_of_ok (get_eq t) ?_
  refine Meets.bind (R := fun r u => u = t ∧ t.replaceExpr id (Expr.ofValue value span) = .ok r)
    (meets_ofExcept (fun _ h => ⟨rfl, h⟩) fun _ _ => Std.Refl.refl t) ?_
  rintro r _ ⟨rfl, hr⟩
  refine Meets.bind (R := fun _ u => u = r.2) (meets_set rfl) fun _ u hu => meets_pure ?_
  rw [hu]
  exact fun ht => ⟨ht.replaceExpr hr, Lowering.closed_lowers.stmts_replaceExpr ht
    (lowers_of_evaluate h) (fun _ => rfl) hr⟩

theorem steady_foldNode {fold : ExprId → EStateM Fault Tree (Option Value)}
    (h : ∀ id, Steady (fold id)) (id : ExprId) : Steady (f.foldNode depth fold id) := by
  have hchildren (ids : List ExprId) : Steady (do
      for child in ids do
        let _ ← fold child
      return (none : Option Value)) :=
    (keeps_forIn ids fun child _ => (h child).bind fun _ => keeps_pure _).bind fun _ => keeps_pure _
  refine keeps_get.bind fun _ => (steady_ofExcept _).bind fun e => ?_
  dsimp only
  split
  · exact keeps_pure _
  · split
    · refine keeps_get_bind fun t => ?_
      split
      · rename_i value hvalue
        exact meets_replaceExpr hvalue
      · exact (keeps_get.bind fun _ => hchildren _).meets t
      · exact meets_throw (Std.Refl.refl t)
    · exact keeps_get.bind fun _ => hchildren _

theorem steady_foldWithin (levels : Nat) (id : ExprId) :
    Steady (f.foldWithin depth levels id) := by
  induction levels generalizing id with
  | zero => exact keeps_throw Std.Refl.refl
  | succ levels ih => exact steady_foldNode ih id

theorem steady_fold (id : ExprId) : Steady (f.fold depth id) :=
  keeps_get.bind fun _ => steady_foldWithin _ id

end Folder

end FrontEnd
