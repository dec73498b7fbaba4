import FrontEnd.Proofs.Constant.Rewriting
import FrontEnd.Proofs.Constant.TypedValue
import FrontEnd.Proofs.Typing.Fitting

/-!
Flags that tell constants from other expressions. Where the names of folded constants are flagged,
and every other node as its parts are, code generation accepts what is flagged and refuses the rest.
-/

namespace FrontEnd

/-- How many of the first parts of an expression are in a scope of their own: the body of a
lambda. -/
def ExprKind.enclosed : ExprKind → Nat
  | .lambda .. => 1
  | _ => 0

namespace Branch

variable {isBound : Name → Bool} {b c x : Branch} {root : NodeId} {i : ExprId} {e : Expr}
  {parts : List Branch}

/-- Outside lambda bodies, exactly the constants are flagged. -/
def Flagged (isBound : Name → Bool) (b : Branch) : Prop :=
  ∀ x, b.Reached ExprKind.enclosed x → ∀ e, x.node = .expr e → e.isConstant = x.isConstant isBound

theorem Flagged.here (h : Flagged isBound ⟨root, .expr e, parts⟩) :
    e.isConstant = isConstant isBound ⟨root, .expr e, parts⟩ :=
  h _ .here e rfl

theorem Flagged.part (h : Flagged isBound ⟨root, .expr e, parts⟩)
    (hx : x ∈ parts.drop e.kind.enclosed) : x.Flagged isBound :=
  fun y hy => h y (.part hx hy)

theorem Flagged.reached (h : b.Flagged isBound) (hx : b.Reached ExprKind.enclosed x) :
    x.Flagged isBound := by
  induction hx with
  | here => exact h
  | part hp _ ih => exact ih (h.part hp)

/-- More names may be bound than those by which constants are flagged: names that are not flagged
count for nothing. -/
theorem Flagged.isConstant_eq {isBound' : Name → Bool} (h : b.Flagged isBound)
    (hb : ∀ name, isBound name = true → isBound' name = true) :
    b.isConstant isBound' = b.isConstant isBound := by
  induction b using induct with
  | mk root node parts ih =>
    cases node with
    | stmt s => rfl
    | expr e =>
      have hhere := h.here
      unfold isConstant at hhere ⊢
      split
      next => rfl
      next name hk =>
        simp only [hk] at hhere
        cases hname : isBound name with
        | true => rw [hb name hname]
        | false =>
          rw [hname, Bool.and_false] at hhere
          rw [hhere, Bool.false_and, Bool.false_and]
      next hk => exact ih _ (by simp) (h.part (by simp [hk, ExprKind.enclosed]))
      next hk => rw [ih _ (by simp) (h.part (by simp [hk, ExprKind.enclosed]))]
      next hk =>
        rw [ih _ (by simp) (h.part (by simp [hk, ExprKind.enclosed])),
          ih _ (by simp) (h.part (by simp [hk, ExprKind.enclosed]))]
      next => rfl

theorem Flagged.mono {isBound' : Name → Bool} (h : b.Flagged isBound)
    (hb : ∀ name, isBound name = true → isBound' name = true) : b.Flagged isBound' :=
  fun x hx e he => (h x hx e he).trans ((h.reached hx).isConstant_eq hb).symm

theorem flagged_node (he : e.isConstant = isConstant isBound ⟨root, .expr e, parts⟩)
    (hparts : ∀ p ∈ parts.drop e.kind.enclosed, p.Flagged isBound) :
    Flagged isBound ⟨root, .expr e, parts⟩ := by
  intro x hx e' he'
  cases hx with
  | here =>
    cases he'
    exact he
  | part hp hx => exact hparts _ hp x hx e' he'

theorem Retyped.symm (h : b.Retyped c) : c.Retyped b := by
  induction b using induct generalizing c with
  | mk root node parts ih =>
    cases h with
    | mk hk ha hc hs hl hp =>
      have hlam := (unlinked_inj hk).1
      refine .mk hk.symm ha.symm hc.symm hs.symm (fun h => (hl (hlam ▸ h)).symm) fun h => ?_
      rw [hlam] at h
      refine List.forall₂_iff_get.2 ⟨(hp h).length_eq.symm, fun n h₁ h₂ => ?_⟩
      exact ih _ (List.get_mem ..) ((hp h).get h₂ h₁)

/-- Checking makes nothing constant, and nothing that is constant something else. -/
theorem Retyped.isConstant_eq (h : b.Retyped c) : c.isConstant isBound = b.isConstant isBound :=
  Bool.eq_iff_iff.2 ⟨fun hc => (h.symm.constant hc).1, fun hb => (h.constant hb).1⟩

theorem Flagged.retyped (hb : b.Flagged isBound) (h : b.Retyped c) : c.Flagged isBound := by
  induction b using induct generalizing c with
  | mk root node parts ih =>
    have hconstant : c.isConstant isBound = isConstant isBound ⟨root, node, parts⟩ :=
      h.isConstant_eq
    cases h with
    | @mk i x y bs cs hk _ hc _ hl hp =>
      have hlam := (unlinked_inj hk).1
      refine flagged_node (hc.trans (hb.here.trans hconstant.symm)) fun q hq => ?_
      cases hx : x.kind.isLambda with
      | true =>
        have henclosed : y.kind.enclosed = x.kind.enclosed := by
          cases hkx : x.kind <;> cases hky : y.kind <;>
            simp_all [ExprKind.isLambda, ExprKind.enclosed]
        rw [hl hx, henclosed] at hq
        exact hb.part hq
      | false =>
        have hnone : x.kind.enclosed = 0 := by
          cases hkx : x.kind <;> simp_all [ExprKind.isLambda, ExprKind.enclosed]
        obtain ⟨p, hmem, hpq⟩ := exists_mem_of_forall₂ (hp hx) (List.mem_of_mem_drop hq)
        exact ih p hmem (hb.part (by simpa [hnone] using hmem)) hpq

end Branch

namespace Folder

variable {f : Folder} {depth : Nat} {t : Tree} {b : Branch} {i : ExprId} {e : Expr}

/-- A node that is flagged just if it is constant is lowered if it is flagged, unless the tables of
a chunk are too small for it; and evaluating it then finds every name. -/
theorem lower_flagged (h : t.Holds [b]) (hb : b.root = .expr i)
    (he : e.isConstant = b.isConstant (f.isBound · depth)) :
    (e.isConstant = true →
      ((∃ c, f.lower depth t i = .ok () c) ∨
        ∃ c, f.lower depth t i = .error (.cause .tooManyConstants) c) ∧
      ∀ err, f.evaluate depth t i = .error err → err ≠ .cause .notConstant ∧
        err ≠ .cause .unbound) ∧
    (e.isConstant = false →
      ∃ err c, f.lower depth t i = .error (.cause err) c ∧
        (err = .notConstant ∨ err = .tooManyConstants)) := by
  have hmeets := Lowering.lowers_expr h hb (f.binding · depth)
  have hlower : f.lower depth t i =
    Lowering.expr t (Lowering.bound (f.binding · depth)) i .empty := rfl
  rw [he]
  change (b.isConstant (Lowering.bound (f.binding · depth)) = true → _) ∧
    (b.isConstant (Lowering.bound (f.binding · depth)) = false → _)
  unfold evaluate
  rw [hlower]
  cases hrun : Lowering.expr t (Lowering.bound (f.binding · depth)) i .empty with
  | ok _ chunk =>
    have hlow := hmeets.of_ok hrun
    refine ⟨fun _ => ⟨.inl ⟨chunk, rfl⟩, fun err herr => ?_⟩, fun hnot => ?_⟩
    · obtain ⟨-, -, hvalue⟩ := hlow.of_empty
      dsimp only at herr
      rw [hvalue] at herr
      cases hv : b.value (f.binding · depth) with
      | ok v => simp [hv, Halt.liftCause] at herr
      | error cause =>
        obtain rfl : Halt.cause cause = err := by simpa [hv, Halt.liftCause] using herr
        obtain rfl | ⟨op, rfl⟩ := Branch.objects_value hlow.constant hv <;> simp
    · rw [hlow.constant] at hnot
      cases hnot
  | error err chunk =>
    cases hmeets.of_error hrun with
    | notConstant hnot =>
      refine ⟨fun hc => ?_, fun _ => ⟨_, _, rfl, .inl rfl⟩⟩
      rw [hc] at hnot
      cases hnot
    | crowded _ =>
      refine ⟨fun _ => ⟨.inr ⟨_, rfl⟩, fun err herr => ?_⟩, fun _ => ⟨_, _, rfl, .inr rfl⟩⟩
      cases herr
      simp

end Folder

end FrontEnd
