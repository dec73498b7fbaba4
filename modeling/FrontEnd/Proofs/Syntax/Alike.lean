import FrontEnd.Proofs.Syntax.Hole
import Mathlib.Data.List.Forall2

/-! Branches of two trees that say the same, whatever their handles are. -/

namespace FrontEnd

/-- Kinds that differ at most in the handles of their children. -/
inductive ExprKind.Matches : ExprKind → ExprKind → Prop
  | error : Matches .error .error
  | literal {value} : Matches (.literal value) (.literal value)
  | str {text} : Matches (.str text) (.str text)
  | unary {op i j} : Matches (.unary op i) (.unary op j)
  | binary {op i j k m} : Matches (.binary op i k) (.binary op j m)
  | assign {op i j k m} : Matches (.assign op i k) (.assign op j m)
  | var {name} : Matches (.var name) (.var name)
  | call {callee q r mangled} : Matches (.call callee q mangled) (.call callee r mangled)
  | member {i j field} : Matches (.member i field) (.member j field)
  | lambda {type i j} : Matches (.lambda type i) (.lambda type j)
  | group {i j} : Matches (.group i) (.group j)

theorem ExprKind.Matches.refl (k : ExprKind) : k.Matches k := by cases k <;> constructor

theorem ExprKind.Matches.var_iff {k m : ExprKind} {name : Name} (h : k.Matches m) :
    k = .var name ↔ m = .var name := by
  cases h <;> simp

/-- The kind without the link name of a call. -/
def ExprKind.unlinked : ExprKind → ExprKind
  | .call callee args _ => .call callee args none
  | k => k

def ExprKind.isLambda : ExprKind → Bool
  | .lambda .. => true
  | _ => false

theorem ExprKind.Matches.isLambda {k k' : ExprKind} (h : k.Matches k') :
    k'.isLambda = k.isLambda := by
  cases h <;> rfl

namespace Branch

variable {L M : TypeId → Branch → Branch → Prop} {b c d : Branch} {i j : ExprId}
  {bs cs : List Branch}

/-- Type of the root. -/
def type? : Branch → Option TypeId
  | ⟨_, .expr e, _⟩ => some e.type
  | _ => none

/-- Expressions with the same nodes; the bodies of lambdas of a type are related by `L`. What can
be assigned and what is constant is left open. -/
inductive Alike (L : TypeId → Branch → Branch → Prop) : Branch → Branch → Prop
  | expr {i j x y bs cs} : x.kind.Matches y.kind → x.kind.isLambda = false → x.type = y.type →
    x.span = y.span → List.Forall₂ (Alike L) bs cs →
    Alike L ⟨.expr i, .expr x, bs⟩ ⟨.expr j, .expr y, cs⟩
  | lambda {i j x y type k m b c} : x.kind = .lambda type k → y.kind = .lambda type m →
    x.type = y.type → x.span = y.span → L type b c →
    Alike L ⟨.expr i, .expr x, [b]⟩ ⟨.expr j, .expr y, [c]⟩

theorem Alike.type_eq (h : Alike L b c) : b.type? = c.type? := by
  cases h with
  | expr _ _ ht => exact congrArg some ht
  | lambda _ _ ht => exact congrArg some ht

theorem Alike.mono (h : Alike L b c) (hL : ∀ type b c, L type b c → M type b c) : Alike M b c := by
  induction b using induct generalizing c with
  | mk root node parts ih =>
    cases h with
    | expr hk hl ht hs hp =>
      refine .expr hk hl ht hs ?_
      exact ((List.forall₂_and_left _ _).2 ⟨fun _ hmem => hmem, hp⟩).imp fun p q hpq =>
        ih p hpq.1 hpq.2
    | lambda hx hy ht hs hbody => exact .lambda hx hy ht hs (hL _ _ _ hbody)

theorem Alike.nodes {x y : Expr}
    (h : Alike L ⟨.expr i, .expr x, bs⟩ ⟨.expr j, .expr y, cs⟩) :
    x.kind.Matches y.kind ∧ x.type = y.type ∧ x.span = y.span := by
  cases h with
  | expr hk _ ht hs => exact ⟨hk, ht, hs⟩
  | lambda hx hy ht hs => exact ⟨hx ▸ hy ▸ .lambda, ht, hs⟩

/-- Every expression in a tree is like itself. -/
theorem Alike.refl {t : Tree} (hL : ∀ type b, L type b b) (h : t.Holds [b])
    (hb : b.root = .expr i) :
    Alike L b b := by
  induction b using induct generalizing i with
  | mk root n parts ih =>
    obtain rfl : root = .expr i := hb
    obtain ⟨e, -, rfl⟩ := Option.map_eq_some_iff.1 h.root.node
    have hparts := h.root.children
    have hholds : ∀ p ∈ parts, t.Holds [p] := fun p hp => by
      have := h.opened.1
      rw [List.append_nil] at this
      exact this.sublist (List.singleton_sublist.2 hp)
    by_cases hk : ∃ type k, e.kind = .lambda type k
    · obtain ⟨type, k, hk⟩ := hk
      simp only [Tree.children, Tree.exprChildren, hk, List.reverse_singleton] at hparts
      obtain ⟨p, rfl, -⟩ := List.map_eq_singleton_iff.1 hparts.symm
      exact .lambda hk hk rfl rfl (hL type p)
    · have hchild : ∀ p ∈ parts, ∃ k, p.root = .expr k := by
        intro p hp
        have hmem : p.root ∈ t.children (.expr e) := hparts ▸ List.mem_map_of_mem hp
        cases hkind : e.kind <;>
          simp only [Tree.children, Tree.exprChildren, hkind, List.mem_reverse, List.mem_map,
            List.mem_cons, List.not_mem_nil, or_false] at hmem
        case lambda type k => exact absurd ⟨type, k, hkind⟩ hk
        all_goals grind
      refine .expr (.refl _) ?_ rfl rfl (List.forall₂_same.2 fun p hp => ?_)
      · cases hkind : e.kind <;> first | rfl | exact absurd ⟨_, _, hkind⟩ hk
      · obtain ⟨k, hroot⟩ := hchild p hp
        exact ih p hp (hholds p hp) hroot

/-- What checking changes in an expression: types, and link names of calls. -/
inductive Retyped : Branch → Branch → Prop
  | mk {i x y bs cs} : y.kind.unlinked = x.kind.unlinked → y.canAssign = x.canAssign →
    y.isConstant = x.isConstant → y.span = x.span →
    (x.kind.isLambda = true → cs = bs) →
    (x.kind.isLambda = false → List.Forall₂ Retyped bs cs) →
    Retyped ⟨.expr i, .expr x, bs⟩ ⟨.expr i, .expr y, cs⟩

theorem Retyped.root_eq (h : Retyped b c) : c.root = b.root := by
  cases h
  rfl

/-- The branch with another type at its root. -/
def retype (type : TypeId) : Branch → Branch
  | ⟨root, .expr e, parts⟩ => ⟨root, .expr { e with type }, parts⟩
  | b => b

theorem Alike.retype (h : Alike L b c) (type : TypeId) :
    Alike L (b.retype type) (c.retype type) := by
  cases h with
  | expr hk hl _ hs hp => exact .expr hk hl rfl hs hp
  | lambda hx hy _ hs hL => exact .lambda hx hy rfl hs hL

theorem Retyped.retype (h : Retyped b c) (type : TypeId) : Retyped b (c.retype type) := by
  cases h with
  | mk hk ha hc hs hl hp => exact .mk hk ha hc hs hl hp

end Branch

end FrontEnd
