import FrontEnd.Proofs.Typing.Fitting

/-!
Where values go: into the target of an assignment, into a variable that they initialize, and out of
a function. The types at both ends are compared when the program is checked.
-/

namespace FrontEnd

namespace TypeTable

/-- The type of what functions of this type return. -/
def result (types : TypeTable) (type : TypeId) : TypeId :=
  match types.function? type with
  | .ok (some signature) => signature.ret
  | _ => .invalid

theorem result_eq {types : TypeTable} {type : TypeId} {signature : Option Signature}
    (h : types.function? type = .ok signature) :
    types.result type = (signature.map Signature.ret).getD .invalid := by
  unfold result
  rw [h]
  cases signature <;> rfl

theorem compatible_of_equal {types : TypeTable} {a b : TypeId}
    (h : types.equal a b = .ok true) : types.compatible a b = .ok true := by
  unfold compatible
  rw [h]
  rfl

theorem compatible_self (types : TypeTable) (type : TypeId) :
    types.compatible type type = .ok true := compatible_of_equal (if_pos rfl)

/-- Values of this type may go where another type is wanted. -/
def Takes (types : TypeTable) (wanted : Option TypeId) (type : TypeId) : Prop :=
  ∀ t, wanted = some t → t ≠ .invalid → types.compatible type t = .ok true

theorem Takes.mono {types types' : TypeTable} {wanted : Option TypeId} {type : TypeId}
    (h : types.Takes wanted type) (hg : types.Grows types') : types'.Takes wanted type :=
  fun t ht hne => hg.stays_compatible _ (h t ht hne)

end TypeTable

/-- Both sides of an assignment were compared. -/
def Expr.Flows (types : TypeTable) (e : Expr) (parts : List TypeId) : Prop :=
  match e.kind with
  | .assign op _ _ => ∀ value, parts = [e.type, value] → ∃ stored,
    op.Stores types e.type value stored ∧ types.compatible stored e.type = .ok true
  | _ => True

/-- The type of a variable was compared with that of its initializer, and the type that is wanted
of the function around with that of what is returned. -/
def Stmt.Flows (types : TypeTable) (wanted : Option TypeId) (s : Stmt) (parts : List TypeId) :
    Prop :=
  match s.kind with
  | .ret _ => ∀ type ∈ parts, types.Takes wanted type
  | .varDecl _ stored (some _) _ =>
    stored ≠ .invalid ∧ ∀ type ∈ parts, types.Takes (some stored) type
  | _ => True

/-- The type that is wanted of what is returned within an expression. -/
def ExprKind.wants (types : TypeTable) : ExprKind → Option TypeId
  | .lambda type _ => some (types.result type)
  | _ => none

/-- The type that is wanted of what is returned within a statement, given the one around it. -/
def StmtKind.wants (types : TypeTable) (wanted : Option TypeId) : StmtKind → Option TypeId
  | .funcDecl _ _ type _ _ => some (types.result type)
  | _ => wanted

theorem AssignOp.Stores.mono {types types' : TypeTable} {op : AssignOp}
    {target value stored : TypeId} (h : op.Stores types target value stored)
    (hg : types.Grows types') : op.Stores types' target value stored := by
  cases op with
  | assign => exact h
  | compound binary => exact hg.stays_binary _ _ h
  | complement => exact hg.stays_unary _ _ h

/-- What was noted of an assignment while it was checked. -/
theorem Typed.flows {env : Env} {types : TypeTable} {e : Expr} {tys : List TypeId}
    (h : Typed env e tys) (hg : env.types.Grows types) : e.Flows types tys := by
  unfold Expr.Flows
  split
  · rename_i hk
    rintro value rfl
    cases h with
    | assign hk' hs hc =>
      rw [hk] at hk'
      cases hk'
      exact ⟨_, hs.mono hg, hg.stays_compatible _ hc⟩
    | binary hk' => rw [hk] at hk'; cases hk'
    | call hk' => rw [hk] at hk'; cases hk'
  · trivial

namespace Branch

/-- All flows in a branch were compared, where `wanted` is the type to return. -/
inductive Guarded (types : TypeTable) : Option TypeId → Branch → Prop
  | expr {wanted root e parts} : Expr.Flows types e (parts.filterMap type?) →
    (∀ p ∈ parts, Guarded types (e.kind.wants types) p) →
    Guarded types wanted ⟨root, .expr e, parts⟩
  | stmt {wanted root s parts} : Stmt.Flows types wanted s (parts.filterMap type?) →
    (∀ p ∈ parts, Guarded types (s.kind.wants types wanted) p) →
    Guarded types wanted ⟨root, .stmt s, parts⟩

variable {L : TypeId → Branch → Branch → Prop} {env : Env} {types : TypeTable}
  {wanted : Option TypeId} {b c : Branch}

/-- In a checked expression the flows were compared, if they were in the bodies of its lambdas. -/
theorem Alike.guarded (h : Alike L b c) (hg : env.types.Grows types) (hc : c.Checked env)
    (hL : ∀ type b c, L type b c → c.Guarded types (some (types.result type))) :
    c.Guarded types wanted := by
  induction b using induct generalizing c wanted with
  | mk root node parts ih =>
    cases h with
    | @expr i j x y bs cs hk hl ht hs hparts =>
      have hly : y.kind.isLambda = false := hk.isLambda ▸ hl
      obtain ⟨tys, htypes, htyped, hchecked⟩ := hc.of_node hly
      refine .expr (filterMap_type? htypes ▸ htyped.flows hg) fun q hq => ?_
      obtain ⟨p, hpmem, hpq⟩ := exists_mem_of_forall₂ hparts hq
      exact ih p hpmem hpq (hchecked q hq)
    | lambda hx hy ht hs hl =>
      refine .expr (by simp [Expr.Flows, hy]) ?_
      simpa [ExprKind.wants, hy] using hL _ _ _ hl

end Branch

end FrontEnd
