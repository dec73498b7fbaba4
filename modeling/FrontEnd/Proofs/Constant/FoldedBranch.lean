import FrontEnd.Proofs.Constant.Rewriting
import FrontEnd.Proofs.Constant.TypedValue

/-! What folding makes of the branch of an expression, wherever it stands in a forest. -/

namespace FrontEnd

namespace Branch

/-- The literal that a branch is. -/
def literal? (b : Branch) : Option Value := b.expr?.bind Expr.literal?

/-- A branch and what folding makes of it: parts that have a value may give way to a literal. -/
inductive Folds (bindings : Name → Option Value) : Branch → Branch → Prop
  | same {b} : Folds bindings b b
  | value {i e parts v} : e.kind.isLambda = false →
    isConstant (Lowering.bound bindings) ⟨.expr i, .expr e, parts⟩ = true →
    value bindings ⟨.expr i, .expr e, parts⟩ = .ok v →
    Folds bindings ⟨.expr i, .expr e, parts⟩ ⟨.expr i, .expr (Expr.ofValue v e.span), []⟩
  | node {i e bs cs} : e.kind.isLambda = false → List.Forall₂ (Folds bindings) bs cs →
    Folds bindings ⟨.expr i, .expr e, bs⟩ ⟨.expr i, .expr e, cs⟩

theorem Folds.root_eq {bindings : Name → Option Value} {b c : Branch} (h : Folds bindings b c) :
    c.root = b.root := by
  cases h <;> rfl

theorem isConstant_of_literal {isBound : Name → Bool} {b : Branch} {t : Tree} {v : Value}
    (ht : t.Holds [b]) (hb : b.literal? = some v) : b.isConstant isBound = true := by
  obtain ⟨root, node, parts⟩ := b
  cases node with
  | stmt s => cases hb
  | expr e =>
    have hk : e.kind = .literal v := Expr.literal?_eq_some.1 hb
    obtain rfl : parts = [] := by
      simpa [Tree.children, Tree.exprChildren, hk] using ht.root.children.symm
    unfold isConstant
    rw [hk]

end Branch

namespace Folder

open Branch

variable {f : Folder} {depth d : Nat} {t : Tree} {hole : Hole} {b : Branch} {i : ExprId} {e : Expr}
  {done rest parts : List Branch} {ids : List ExprId}

/-- Folding a branch succeeds wherever it stands, and rewrites nothing but constants. -/
def FoldsAt (f : Folder) (depth d : Nat) (b : Branch) : Prop :=
  ∀ (hole : Hole) {t i}, b.root = .expr i → t.Holds (hole.plug b) →
    Meets (f.foldWithin depth d i) t
      (fun r u => ∃ b' replaced, t.Turns (hole.plug b) u (hole.plug b') ∧
        f.Rewrites depth t [b] u replaced ∧ Folds (f.binding · depth) b b' ∧ r = b'.literal?)
      fun _ _ => False

/-- Parts of a node that are folded one after the other. -/
theorem foldAll (h : t.Holds (hole.plug ⟨.expr i, .expr e, done ++ rest⟩))
    (hroots : rest.map Branch.root = ids.map .expr) (ih : ∀ p ∈ rest, f.FoldsAt depth d p) :
    Meets (forIn ids PUnit.unit fun child _ => do
        let _ ← f.foldWithin depth d child
        return ForInStep.yield PUnit.unit : EStateM Fault Tree PUnit) t
      (fun _ u => ∃ rest' replaced, t.Turns (hole.plug ⟨.expr i, .expr e, done ++ rest⟩) u
          (hole.plug ⟨.expr i, .expr e, done ++ rest'⟩) ∧
        f.Rewrites depth t rest u replaced ∧
        List.Forall₂ (Folds (f.binding · depth)) rest rest') fun _ _ => False := by
  have hrest {t : Tree} {done rest : List Branch}
      (h : t.Holds (hole.plug ⟨.expr i, .expr e, done ++ rest⟩)) : t.Holds rest :=
    h.plugged.opened.1.left.right
  induction rest generalizing t done ids with
  | nil =>
    obtain rfl := List.map_eq_nil_iff.1 hroots.symm
    exact meets_pure ⟨[], [], h.turns, .nil h.sound, .nil⟩
  | cons p rest ihl =>
    obtain ⟨k, ids, rfl, hk, hids⟩ := List.map_eq_cons_iff.1 hroots.symm
    have hplug : t.Holds ((Hole.inside hole (.expr i) (.expr e) done rest).plug p) := h
    rw [List.forIn_cons]
    refine Meets.bind (R := fun r u => r = .yield ⟨⟩ ∧ ∃ p' replaced,
      t.Turns (hole.plug ⟨.expr i, .expr e, done ++ p :: rest⟩) u
        (hole.plug ⟨.expr i, .expr e, done ++ p' :: rest⟩) ∧
        f.Rewrites depth t [p] u replaced ∧ Folds (f.binding · depth) p p')
      ((ih p (by simp) _ hk.symm hplug).bind ?_) ?_
    · rintro r u ⟨p', replaced, hu, hrewrites, hp, -⟩
      exact meets_pure ⟨rfl, p', replaced, hu, hrewrites, hp⟩
    · rintro _ u ⟨rfl, p', replaced, hu, hrewrites, hp⟩
      have hnext : u.Holds (hole.plug ⟨.expr i, .expr e, (done ++ [p']) ++ rest⟩) := by
        rw [List.append_assoc]
        exact hu.holds
      refine (ihl hnext hids.symm fun q hq => ih q (by simp [hq])).imp ?_ fun _ _ => id
      rintro _ v ⟨rest', replaced', hv, hrewrites', hfolds⟩
      rw [List.append_assoc, List.append_assoc] at hv
      exact ⟨p' :: rest', _, hu.trans hv, hrewrites.cons hrewrites' (hrest h) (hrest hnext),
        .cons hp hfolds⟩

/-- The folded children are the last ones of a node. -/
theorem foldedChildren_spec (h : t.Holds (hole.plug ⟨.expr i, .expr e, parts⟩)) :
    (parts.drop e.kind.spared).map Branch.root = (foldedChildren t e.kind).map .expr := by
  have hchildren := h.plugged.root.children
  simp only [Tree.children] at hchildren
  cases hk : e.kind <;> rw [hk] at hchildren
  case assign op target value =>
    obtain ⟨p, q, rfl, -, hq⟩ := Tree.parts_two (e := e) (t := t) (by rw [hk]; exact hchildren)
      (by rw [hk]; rfl)
    simp [foldedChildren, ExprKind.spared, hq]
  case lambda type body =>
    obtain ⟨p, rfl, -⟩ := Tree.parts_one (e := e) (t := t) (by rw [hk]; exact hchildren)
      (by rw [hk]; rfl)
    simp [foldedChildren, ExprKind.spared]
  all_goals
    show (parts.drop 0).map Branch.root = _
    rw [List.drop_zero, ← hchildren]
    simp [foldedChildren, Tree.exprChildren, List.map_reverse]

/-- A node that stays, and whose parts are folded. -/
theorem foldParts (h : t.Holds (hole.plug ⟨.expr i, .expr e, parts⟩))
    (hlit : e.literal? = none)
    (hstays : ∀ v, ¬f.Yields depth t ⟨.expr i, .expr e, parts⟩ i e v)
    (ih : ∀ p ∈ parts, f.FoldsAt depth d p) :
    Meets (do
        for child in foldedChildren (← get) e.kind do
          let _ ← f.foldWithin depth d child
        return none : EStateM Fault Tree (Option Value)) t
      (fun r u => ∃ b' replaced, t.Turns (hole.plug ⟨.expr i, .expr e, parts⟩) u (hole.plug b') ∧
        f.Rewrites depth t [⟨.expr i, .expr e, parts⟩] u replaced ∧
        Folds (f.binding · depth) ⟨.expr i, .expr e, parts⟩ b' ∧ r = b'.literal?)
      fun _ _ => False := by
  refine meets_bind_of_ok (get_eq t) ?_
  have hnone (ps : List Branch) : none = Branch.literal? ⟨.expr i, .expr e, ps⟩ := by
    simp [Branch.literal?, expr?, hlit]
  have hsplit : parts.take e.kind.spared ++ parts.drop e.kind.spared = parts :=
    List.take_append_drop _ _
  have hheld : t.Holds (hole.plug
      ⟨.expr i, .expr e, parts.take e.kind.spared ++ parts.drop e.kind.spared⟩) := by
    rwa [hsplit]
  refine (foldAll hheld (foldedChildren_spec h) fun p hp =>
    ih p (List.mem_of_mem_drop hp)).bind ?_
  rintro _ u ⟨rest', replaced, hu, hrewrites, hfolds⟩
  rw [hsplit] at hu
  refine meets_pure ⟨_, replaced, hu, hrewrites.node h.plugged hstays, ?_, hnone _⟩
  by_cases hl : e.kind.isLambda = false
  · have hall : List.Forall₂ (Folds (f.binding · depth)) parts
        (parts.take e.kind.spared ++ rest') := by
      conv_lhs => rw [← hsplit]
      exact List.rel_append (List.forall₂_same.2 fun _ _ => .same) hfolds
    exact .node hl hall
  · have hchildren : foldedChildren t e.kind = [] := by
      cases hk : e.kind <;> rw [hk] at hl <;> first | rfl | exact absurd rfl hl
    have hdrop : parts.drop e.kind.spared = [] := by
      have := foldedChildren_spec h
      rwa [hchildren, List.map_nil, List.map_eq_nil_iff] at this
    rw [hdrop] at hfolds hsplit
    cases hfolds
    rw [hsplit]
    exact .same

theorem foldsAt_within (h : exprCount [b] ≤ d) : f.FoldsAt depth d b := by
  induction b using Branch.induct generalizing d with
  | mk root n parts ih =>
    intro hole t i hroot hholds
    obtain rfl : root = .expr i := hroot
    obtain ⟨e, -, rfl⟩ := Option.map_eq_some_iff.1 hholds.plugged.root.node
    rw [exprCount_expr] at h
    obtain ⟨d, rfl⟩ : ∃ k, d = k + 1 := ⟨d - 1, by omega⟩
    have hparts (p : Branch) (hp : p ∈ parts) : f.FoldsAt depth d p :=
      ih p hp (Nat.le_trans (exprCount_mem hp) (Nat.le_of_succ_le_succ h))
    have hexpr : (ofExcept (t.expr i) : EStateM Fault Tree Expr) t = .ok e t := by
      rw [hholds.plugged.expr]
      rfl
    refine meets_bind_of_ok (get_eq t) (meets_bind_of_ok hexpr ?_)
    dsimp only
    split
    next value hk =>
      have hlit : e.literal? = some value := by simp [Expr.literal?, hk]
      obtain rfl := Tree.parts_none hholds.plugged.root.children (by rw [hk]; rfl)
      refine meets_pure ⟨_, [], hholds.turns, ?_, .same, by simp [Branch.literal?, expr?, hlit]⟩
      refine .node (by simpa using .nil hholds.sound) hholds.plugged fun v hy => ?_
      cases hlit.symm.trans hy.new
    next hk =>
      have hlit : e.literal? = none := by
        unfold Expr.literal?
        split
        next value hv => exact absurd hv (hk value)
        next => rfl
      split
      next hflag =>
        refine meets_bind_of_ok (get_eq t) ?_
        have hevaluates := evaluates f depth hholds.plugged rfl
        generalize hresult : f.evaluate depth t i = result at hevaluates
        have hstays {err : Halt EvalError} (herr : result = .error err) (v : Value) :
            ¬f.Yields depth t ⟨.expr i, .expr e, parts⟩ i e v := fun hy => by
          cases herr.symm.trans (hresult.symm.trans hy.value)
        cases hevaluates with
        | notConstant | crowded => exact foldParts hholds hlit (hstays rfl) hparts
        | computed hc =>
          cases hv : Branch.value (f.binding · depth) ⟨.expr i, .expr e, parts⟩ with
          | error err => exact foldParts hholds hlit (hstays (by rw [hv]; rfl)) hparts
          | ok v =>
            obtain ⟨k, u, hrun, hu⟩ :=
              hholds.replace_plugged (Expr.ofValue v e.span) trivial rfl
            have hcounts (hcount : t.Comprises (roots (hole.plug ⟨.expr i, .expr e, parts⟩))) :=
              hcount.replace_plugged hholds (e := Expr.ofValue v e.span) trivial rfl hrun
            have hreplace : (ofExcept (t.replaceExpr i (Expr.ofValue v e.span)) :
                EStateM Fault Tree (Nat × Tree)) t = .ok (k, u) t := by
              rw [hrun]
              rfl
            have hyields : f.Yields depth t ⟨.expr i, .expr e, parts⟩ i e v :=
              ⟨rfl, rfl, hflag, hlit, hresult.trans (by rw [hv]; rfl)⟩
            have hl : e.kind.isLambda = false := by
              cases hkind : e.kind <;> first | rfl | skip
              simp [Branch.isConstant, hkind] at hc
            refine meets_bind_of_ok (get_eq t) (meets_bind_of_ok hreplace ?_)
            refine Meets.bind (R := fun _ w => w = u) (meets_set rfl) fun _ w hw => ?_
            subst hw
            exact meets_pure ⟨_, _, ⟨hu, hcounts⟩, .replace hholds.plugged hyields hrun,
              .value hl hc hv, rfl⟩
      next hflag =>
        exact foldParts hholds hlit (fun v hy => hflag hy.constant) hparts

/-- Folding an expression that stands somewhere in a forest, told by the tree itself. -/
theorem meets_fold_rewrites (f : Folder) (depth : Nat) (hole : Hole) (h : t.Holds (hole.plug b))
    (hb : b.root = .expr i) :
    Meets (f.fold depth i) t
      (fun r u => ∃ b' replaced, t.Turns (hole.plug b) u (hole.plug b') ∧
        f.Rewrites depth t [b] u replaced ∧ Folds (f.binding · depth) b b' ∧ r = b'.literal?)
      fun _ _ => False :=
  meets_bind_of_ok (get_eq t)
    (foldsAt_within (Nat.le_succ_of_le h.plugged.exprCount_le) hole hb h)

/-- Folding an expression that stands somewhere in a forest. -/
theorem meets_fold (hole : Hole) (h : t.Holds (hole.plug b)) (hb : b.root = .expr i) :
    Meets (f.fold depth i) t
      (fun r u => ∃ b', t.Turns (hole.plug b) u (hole.plug b') ∧
        Folds (f.binding · depth) b b' ∧ r = b'.literal?)
      fun _ _ => False :=
  (meets_fold_rewrites f depth hole h hb).imp
    (fun _ _ ⟨b', _, hu, _, hfolds, hr⟩ => ⟨b', hu, hfolds, hr⟩) fun _ _ => id

end Folder

end FrontEnd
