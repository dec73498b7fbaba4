import FrontEnd.Constant.Folder
import FrontEnd.Proofs.Syntax.Forest

/-! Values of expressions, read off their branches without code and without a machine. -/

namespace FrontEnd

namespace Expr

def literal? (e : Expr) : Option Value :=
  match e.kind with
  | .literal value => some value
  | _ => none

theorem literal?_eq_some {e : Expr} {v : Value} : e.literal? = some v ↔ e.kind = .literal v := by
  unfold literal?
  split
  next w hk => simp [hk]
  next hk => exact ⟨nofun, fun h => absurd h (hk v)⟩

def name? (e : Expr) : Option Name :=
  match e.kind with
  | .var name => some name
  | _ => none

end Expr

namespace Branch

def expr? : Branch → Option Expr
  | ⟨_, .expr e, _⟩ => some e
  | _ => none

/-- Values of the literals, from the left to the right. -/
def literals (b : Branch) : List Value := b.all.filterMap fun c => c.expr?.bind Expr.literal?

/-- All names that are referred to, from the left to the right. -/
def names (b : Branch) : List Name := b.all.filterMap fun c => c.expr?.bind Expr.name?

/-- Every leaf is a literal or the flagged name of a bound constant, and every inner node is a
group or an operator that modifies nothing. -/
def isConstant (isBound : Name → Bool) : Branch → Bool
  | ⟨_, .expr e, parts⟩ =>
    match e.kind, parts with
    | .literal _, [] => true
    | .var name, [] => e.isConstant && isBound name
    | .group _, [inner] => inner.isConstant isBound
    | .unary op _, [operand] => !op.mutates && operand.isConstant isBound
    | .binary .., [left, right] => left.isConstant isBound && right.isConstant isBound
    | _, _ => false
  | _ => false

/-- Value by recursion: operands from the left to the right, then their operator. -/
def value (bindings : Name → Option Value) : Branch → Except EvalError Value
  | ⟨_, .expr e, parts⟩ =>
    match e.kind, parts with
    | .literal value, [] => .ok value
    | .var name, [] => (bindings name).elim (.error .unbound) .ok
    | .group _, [inner] => inner.value bindings
    | .unary op _, [operand] => do
      let v ← operand.value bindings
      match Opcode.ofUnary? op with
      | some code => Machine.unary code v
      | none => return v
    | .binary op _ _, [left, right] => do
      let l ← left.value bindings
      let r ← right.value bindings
      Machine.binary (Opcode.ofBinary op) l r
    | _, _ => .error .notConstant
  | _ => .error .notConstant

variable {root : NodeId} {e : Expr} {parts : List Branch} {p left right : Branch}
  {isBound : Name → Bool} {bindings : Name → Option Value}

theorem literals_mk :
    literals ⟨root, .expr e, parts⟩ = e.literal?.toList ++ parts.flatMap literals := by
  have hin : ∀ bs : List Branch, (allIn bs).filterMap (fun c => c.expr?.bind Expr.literal?) =
      bs.flatMap literals := by
    intro bs
    induction bs with
    | nil => simp
    | cons b bs ih => simp [ih, literals]
  rw [literals, all_mk, List.filterMap_cons, hin]
  cases h : e.literal? <;> simp [expr?, h]

theorem names_mk :
    names ⟨root, .expr e, parts⟩ = e.name?.toList ++ parts.flatMap names := by
  have hin : ∀ bs : List Branch, (allIn bs).filterMap (fun c => c.expr?.bind Expr.name?) =
      bs.flatMap names := by
    intro bs
    induction bs with
    | nil => simp
    | cons b bs ih => simp [ih, names]
  rw [names, all_mk, List.filterMap_cons, hin]
  cases h : e.name? <;> simp [expr?, h]

theorem isConstant_group {i : ExprId} (hk : e.kind = .group i) :
    isConstant isBound ⟨root, .expr e, [p]⟩ = p.isConstant isBound := by
  obtain ⟨kind, _, _, _, _⟩ := e
  cases hk
  rfl

theorem value_group {i : ExprId} (hk : e.kind = .group i) :
    value bindings ⟨root, .expr e, [p]⟩ = p.value bindings := by
  obtain ⟨kind, _, _, _, _⟩ := e
  cases hk
  rfl

theorem isConstant_unary {op : UnaryOp} {i : ExprId} (hk : e.kind = .unary op i) :
    isConstant isBound ⟨root, .expr e, [p]⟩ = (!op.mutates && p.isConstant isBound) := by
  obtain ⟨kind, _, _, _, _⟩ := e
  cases hk
  rfl

theorem value_unary {op : UnaryOp} {i : ExprId} (hk : e.kind = .unary op i) :
    value bindings ⟨root, .expr e, [p]⟩ =
      p.value bindings >>= fun v => match Opcode.ofUnary? op with
        | some code => Machine.unary code v
        | none => .ok v := by
  obtain ⟨kind, _, _, _, _⟩ := e
  cases hk
  rfl

theorem isConstant_binary {op : BinaryOp} {i j : ExprId} (hk : e.kind = .binary op i j) :
    isConstant isBound ⟨root, .expr e, [left, right]⟩ =
      (left.isConstant isBound && right.isConstant isBound) := by
  obtain ⟨kind, _, _, _, _⟩ := e
  cases hk
  rfl

theorem value_binary {op : BinaryOp} {i j : ExprId} (hk : e.kind = .binary op i j) :
    value bindings ⟨root, .expr e, [left, right]⟩ =
      left.value bindings >>= fun l => right.value bindings >>= fun r =>
        Machine.binary (Opcode.ofBinary op) l r := by
  obtain ⟨kind, _, _, _, _⟩ := e
  cases hk
  rfl

/-- Induction over constant branches. -/
theorem constant_induct {P : ∀ b : Branch, b.isConstant isBound = true → Prop}
    (literal : ∀ root e v h, e.kind = .literal v → P ⟨root, .expr e, []⟩ h)
    (name : ∀ root e n h, e.kind = .var n → e.isConstant = true → isBound n = true →
      P ⟨root, .expr e, []⟩ h)
    (group : ∀ root e i p h hp, e.kind = .group i → P p hp → P ⟨root, .expr e, [p]⟩ h)
    (unary : ∀ root e op i p h hp, e.kind = .unary op i → op.mutates = false → P p hp →
      P ⟨root, .expr e, [p]⟩ h)
    (binary : ∀ root e op i j l r h hl hr, e.kind = .binary op i j → P l hl → P r hr →
      P ⟨root, .expr e, [l, r]⟩ h)
    (b : Branch) (h : b.isConstant isBound = true) : P b h := by
  induction b using induct with
  | mk root node parts ih =>
    cases node with
    | stmt s => simp [isConstant] at h
    | expr e =>
      have h' := h
      unfold isConstant at h'
      split at h'
      next v hk => exact literal root e v h hk
      next n hk =>
        rw [Bool.and_eq_true] at h'
        exact name root e n h hk h'.1 h'.2
      next i p hk => exact group root e i p h h' hk (ih p (by simp) h')
      next op i p hk =>
        simp only [Bool.and_eq_true, Bool.not_eq_eq_eq_not, Bool.not_true] at h'
        exact unary root e op i p h h'.2 hk h'.1 (ih p (by simp) h'.2)
      next op i j l r hk =>
        rw [Bool.and_eq_true] at h'
        exact binary root e op i j l r h h'.1 h'.2 hk (ih l (by simp) h'.1) (ih r (by simp) h'.2)
      next => cases h'

end Branch

namespace Tree

variable {t : Tree} {b p : Branch} {bs parts : List Branch} {id : ExprId} {e : Expr}

/-- What stands at the handle of an expression is an expression. -/
theorem Holds.expr_of_root (h : t.Holds (b :: bs)) (hb : b.root = .expr id) :
    ∃ e parts, b = ⟨.expr id, .expr e, parts⟩ ∧ t.expr id = .ok e ∧
      (t.exprChildren e.kind).reverse = parts.map Branch.root := by
  obtain ⟨root, node, parts⟩ := b
  obtain rfl : root = .expr id := hb
  have hn := h.root.node
  obtain ⟨e, -, rfl⟩ := Option.map_eq_some_iff.1 hn
  exact ⟨e, parts, rfl, h.expr, h.root.children⟩

theorem parts_none (hp : (t.exprChildren e.kind).reverse = parts.map Branch.root)
    (hk : t.exprChildren e.kind = []) : parts = [] := by
  rw [hk, List.reverse_nil] at hp
  exact List.map_eq_nil_iff.1 hp.symm

theorem parts_one {i : NodeId} (hp : (t.exprChildren e.kind).reverse = parts.map Branch.root)
    (hk : t.exprChildren e.kind = [i]) : ∃ p, parts = [p] ∧ p.root = i := by
  rw [hk, List.reverse_singleton] at hp
  obtain ⟨p, rfl, hi⟩ := List.map_eq_singleton_iff.1 hp.symm
  exact ⟨p, rfl, hi⟩

theorem parts_two {i j : NodeId} (hp : (t.exprChildren e.kind).reverse = parts.map Branch.root)
    (hk : t.exprChildren e.kind = [j, i]) :
    ∃ p q, parts = [p, q] ∧ p.root = i ∧ q.root = j := by
  rw [hk, List.reverse_cons, List.reverse_singleton, List.singleton_append] at hp
  obtain ⟨p, ps, rfl, hi, hps⟩ := List.map_eq_cons_iff.1 hp.symm
  obtain ⟨q, rfl, hj⟩ := List.map_eq_singleton_iff.1 hps
  exact ⟨p, q, rfl, hi, hj⟩

theorem Holds.part (h : t.Holds (⟨.expr id, .expr e, parts⟩ :: bs)) (hp : p ∈ parts) :
    t.Holds [p] :=
  h.opened.1.left.sublist (List.singleton_sublist.2 hp)

end Tree

end FrontEnd
