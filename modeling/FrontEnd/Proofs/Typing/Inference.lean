import FrontEnd.Proofs.Syntax.Alike
import FrontEnd.Proofs.Types.BasicTypes
import FrontEnd.Proofs.Typing.BlindSteps

/-!
What inference does to the branch of an expression, told for two trees at once that hold branches
which are alike: both runs yield one type and report the same.
-/

namespace FrontEnd

/-- A variable with the bare name comes first. -/
theorem Env.resolveVar_of_resolve (env : Env) {name : Name} {type : TypeId} {depth : Nat}
    (h : VarTable.resolve env.symbols.vars name env.scope.depth = some (type, depth)) :
    env.resolveVar name = some type := by
  unfold resolveVar candidates
  rw [List.findSome?_cons, h]
  rfl

/-- What checking without a report tells of a node, given the types of its children. -/
inductive Typed (env : Env) (e : Expr) : List TypeId → Prop
  | error : e.kind = .error → Typed env e []
  | literal {value} : e.kind = .literal value → e.type = value.kind.type → Typed env e []
  | str {text} : e.kind = .str text → e.type = .cstring → Typed env e []
  | var {name} : e.kind = .var name → env.resolveVar name = some e.type → Typed env e []
  /-- The object of a member that is not the name of a variable. -/
  | typeName {name} : e.kind = .var name → env.resolveVar name = none →
    env.resolveType name = some e.type → Typed env e []
  | group {i} : e.kind = .group i → Typed env e [e.type]
  | unary {op i operand} : e.kind = .unary op i →
    checkUnary env.types op operand = .ok (.accepted e.type) → Typed env e [operand]
  | binary {op i j left right} : e.kind = .binary op i j →
    checkBinary env.types op left right = .ok (.accepted e.type) → Typed env e [left, right]
  | assign {op i j value stored} : e.kind = .assign op i j →
    op.Stores env.types e.type value stored → env.types.compatible stored e.type = .ok true →
    Typed env e [e.type, value]
  | call {callee list args resolved} : e.kind = .call callee list (some resolved.mangled) →
    env.resolveCall callee args = .ok (some resolved) → e.type = resolved.ret → Typed env e args
  | member {i field object} : e.kind = .member i field → Check.Member env object e.type →
    Typed env e [object]

namespace Typed

variable {env : Env} {e : Expr} {types : List TypeId} {i j : ExprId}

theorem of_literal {value : Value} (h : Typed env e types) (hk : e.kind = .literal value) :
    e.type = value.kind.type := by
  cases h <;> simp_all

theorem of_var {name : Name} {type : TypeId} (h : Typed env e types) (hk : e.kind = .var name)
    (hr : env.resolveVar name = some type) : e.type = type := by
  cases h <;> simp_all

theorem of_group (h : Typed env e types) (hk : e.kind = .group i) : types = [e.type] := by
  cases h <;> simp_all

theorem of_unary {op : UnaryOp} (h : Typed env e types) (hk : e.kind = .unary op i) :
    ∃ operand, types = [operand] ∧
      checkUnary env.types op operand = .ok (.accepted e.type) := by
  cases h <;> simp_all

theorem of_binary {op : BinaryOp} (h : Typed env e types) (hk : e.kind = .binary op i j) :
    ∃ left right, types = [left, right] ∧
      checkBinary env.types op left right = .ok (.accepted e.type) := by
  cases h <;> simp_all

end Typed

/-- Every node outside lambda bodies was checked without a report. -/
inductive Branch.Checked (env : Env) : Branch → Prop
  | node {i e parts types} : e.kind.isLambda = false → parts.map type? = types.map some →
    Typed env e types → (∀ p ∈ parts, Checked env p) → Checked env ⟨.expr i, .expr e, parts⟩
  | lambda {i e type body parts} : e.kind = .lambda type body → e.type = type →
    Checked env ⟨.expr i, .expr e, parts⟩

/-- The types of the parts of a node, where all of them have one. -/
theorem Branch.filterMap_type? {parts : List Branch} {types : List TypeId}
    (h : parts.map type? = types.map some) : parts.filterMap type? = types := by
  have hsome := congrArg (List.filterMap id) h
  simpa [List.filterMap_map] using hsome

theorem Branch.Checked.of_node {env : Env} {root : NodeId} {e : Expr} {parts : List Branch}
    (h : Branch.Checked env ⟨root, .expr e, parts⟩) (hl : e.kind.isLambda = false) :
    ∃ types, parts.map Branch.type? = types.map some ∧ Typed env e types ∧
      ∀ p ∈ parts, p.Checked env := by
  cases h with
  | node _ htypes htyped hparts => exact ⟨_, htypes, htyped, hparts⟩
  | lambda hk =>
    rw [hk] at hl
    cases hl

namespace Check

variable {E : Fault → Prop} {α β γ δ : Type} {p₁ : Check α} {p₂ : Check β} {f₁ : α → Check γ}
  {f₂ : β → Check δ}
  {s₁ s₂ : CheckState} {R R' : α → β → CheckState → CheckState → Prop}
  {S : γ → δ → CheckState → CheckState → Prop}

/-- Both runs yield results as `R` tells, or both stop with one fault, as `E` tells. -/
inductive Together (E : Fault → Prop) (p₁ : Check α) (p₂ : Check β) (s₁ s₂ : CheckState)
    (R : α → β → CheckState → CheckState → Prop) : Prop
  | ok {a b t₁ t₂} : p₁ s₁ = .ok a t₁ → p₂ s₂ = .ok b t₂ → R a b t₁ t₂ → Together E p₁ p₂ s₁ s₂ R
  | fault {e t₁ t₂} : E e → p₁ s₁ = .error e t₁ → p₂ s₂ = .error e t₂ → Together E p₁ p₂ s₁ s₂ R

theorem together_pure {a : α} {b : β} (h : R a b s₁ s₂) :
    Together E (pure a) (pure b) s₁ s₂ R :=
  .ok rfl rfl h

theorem Together.imp (h : Together E p₁ p₂ s₁ s₂ R)
    (hR : ∀ a b t₁ t₂, R a b t₁ t₂ → R' a b t₁ t₂) : Together E p₁ p₂ s₁ s₂ R' := by
  cases h with
  | ok h₁ h₂ h => exact .ok h₁ h₂ (hR _ _ _ _ h)
  | fault he h₁ h₂ => exact .fault he h₁ h₂

/-- One run taken twice. -/
theorem Together.of_ok {p : Check α} {R : α → α → CheckState → CheckState → Prop} {s t : CheckState}
    {a : α} (h : Together E p p s s R) (hrun : p s = .ok a t) : R a a t t := by
  cases h with
  | fault _ h₁ => cases hrun.symm.trans h₁
  | ok h₁ h₂ hR =>
    cases hrun.symm.trans h₁
    cases hrun.symm.trans h₂
    exact hR

theorem Together.bind (h : Together E p₁ p₂ s₁ s₂ R)
    (hf : ∀ a b t₁ t₂, R a b t₁ t₂ → Together E (f₁ a) (f₂ b) t₁ t₂ S) :
    Together E (p₁ >>= f₁) (p₂ >>= f₂) s₁ s₂ S := by
  cases h with
  | ok h₁ h₂ h =>
    cases hf _ _ _ _ h with
    | ok g₁ g₂ g => exact .ok ((bind_of_ok h₁).trans g₁) ((bind_of_ok h₂).trans g₂) g
    | fault he g₁ g₂ => exact .fault he ((bind_of_ok h₁).trans g₁) ((bind_of_ok h₂).trans g₂)
  | fault he h₁ h₂ => exact .fault he (bind_of_error h₁) (bind_of_error h₂)

theorem together_bind_of_ok {a : α} {b : β} {t₁ t₂ : CheckState} (h₁ : p₁ s₁ = .ok a t₁)
    (h₂ : p₂ s₂ = .ok b t₂) (h : Together E (f₁ a) (f₂ b) t₁ t₂ S) :
    Together E (p₁ >>= f₁) (p₂ >>= f₂) s₁ s₂ S :=
  Together.bind (R := fun x y u₁ u₂ => x = a ∧ y = b ∧ u₁ = t₁ ∧ u₂ = t₂)
    (.ok h₁ h₂ ⟨rfl, rfl, rfl, rfl⟩) fun _ _ _ _ => by
      rintro ⟨rfl, rfl, rfl, rfl⟩
      exact h

/-- A step that does not look at the trees goes the same way on both sides. -/
theorem Blind.together {p : Check α} {q : Queue} {R : α → Queue → Prop} (h : Blind E p q R)
    (t₁ t₂ : Tree) : Together E p p ⟨t₁, q⟩ ⟨t₂, q⟩ fun a b u₁ u₂ =>
      a = b ∧ ∃ r, u₁ = ⟨t₁, r⟩ ∧ u₂ = ⟨t₂, r⟩ ∧ R a r := by
  cases h with
  | ok hp h => exact .ok (hp t₁) (hp t₂) ⟨rfl, _, rfl, rfl, h⟩
  | fault he hp =>
    obtain ⟨u₁, h₁⟩ := hp t₁
    obtain ⟨u₂, h₂⟩ := hp t₂
    exact .fault he h₁ h₂

/-! ### Nodes -/

section

variable {env : Env} {L : TypeId → Branch → Branch → Prop} {hole hole₁ hole₂ : Hole}
  {t t₁ t₂ : Tree}
  {q r : Queue} {b c p p' : Branch} {ps qs done₁ done₂ rest₁ rest₂ : List Branch} {i j : ExprId}
  {x y e : Expr} {types : List TypeId} {type : TypeId} {d₁ d₂ : Nat}

theorem expr_plugged (h : t.Holds (hole.plug ⟨.expr i, .expr e, ps⟩)) (q : Queue) :
    Check.expr i ⟨t, q⟩ = .ok e ⟨t, q⟩ := by
  simp only [Check.expr, Bind.bind, EStateM.bind, get_eq, h.plugged.expr]
  rfl

/-- A node is overwritten by one that keeps the children. -/
theorem setExpr_plugged (e' : Expr) (h : t.Holds (hole.plug ⟨.expr i, .expr e, ps⟩))
    (hk : e'.kind.unlinked = e.kind.unlinked) (q : Queue) :
    ∃ u, Check.setExpr i e' ⟨t, q⟩ = .ok () ⟨u, q⟩ ∧
      u.Holds (hole.plug ⟨.expr i, .expr e', ps⟩) := by
  obtain ⟨u, hu, hp⟩ := h.plugged.places e'
  have hroot := h.plugged.root
  have hsame : (t.Covers (.expr e) → t.Covers (.expr e')) ∧
      t.children (.expr e') = t.children (.expr e) := by
    obtain ⟨kind, _⟩ := e
    obtain ⟨kind', _⟩ := e'
    cases kind <;> cases kind' <;> cases hk <;> exact ⟨id, rfl⟩
  refine ⟨u, ?_, h.overwrite hp (hsame.1 hroot.covers) (hsame.2.trans hroot.children)⟩
  simp only [Check.setExpr, Bind.bind, EStateM.bind, get_eq, hu]
  rfl

theorem record_plugged (h : t.Holds (hole.plug ⟨.expr i, .expr e, ps⟩)) (type : TypeId)
    (q : Queue) : ∃ u, Check.record i type ⟨t, q⟩ = .ok () ⟨u, q⟩ ∧
      u.Holds (hole.plug ⟨.expr i, .expr { e with type }, ps⟩) := by
  obtain ⟨u, hu, hholds⟩ := setExpr_plugged { e with type } h rfl q
  exact ⟨u, (bind_of_ok (expr_plugged h q)).trans hu, hholds⟩

/-- Branches that are alike start and end at the same places. -/
theorem spans_plugged {k m : ExprId} (hole₁ hole₂ : Hole) (h₁ : t₁.Holds (hole₁.plug b))
    (h₂ : t₂.Holds (hole₂.plug c))
    (hbc : b.Alike L c) (hb : b.root = .expr k) (hc : c.root = .expr m) (q : Queue) :
    ∃ place, Check.span k ⟨t₁, q⟩ = .ok place ⟨t₁, q⟩ ∧
      Check.span m ⟨t₂, q⟩ = .ok place ⟨t₂, q⟩ := by
  cases hbc with
  | expr _ _ _ hs | lambda _ _ _ hs =>
    cases hb
    cases hc
    exact ⟨_, bind_of_ok (expr_plugged h₁ q), (bind_of_ok (expr_plugged h₂ q)).trans
      (by rw [hs]; rfl)⟩

/-- The types of lambdas whose bodies are as `L` tells. -/
abbrev Bodied (L : TypeId → Branch → Branch → Prop) (type : TypeId) : Prop := ∃ b c, L type b c

/-- The types that inference can come to where the lambdas are as `L` tells. -/
abbrev Supplied (env : Env) (L : TypeId → Branch → Branch → Prop) : TypeId → Prop :=
  env.Supplies (Bodied L)

/-- The outcome for a node before its type is recorded. -/
def Found (env : Env) (L : TypeId → Branch → Branch → Prop) (hole₁ hole₂ : Hole) (b c : Branch)
    (q : Queue)
    (type type' : TypeId) (s₁ s₂ : CheckState) : Prop :=
  type = type' ∧ Supplied env L type ∧ s₁.reports = s₂.reports ∧ ∃ b' c',
    s₁.tree.Holds (hole₁.plug b') ∧ s₂.tree.Holds (hole₂.plug c') ∧ b'.Alike L c' ∧
    b.Retyped b' ∧ c.Retyped c' ∧ q.Leads s₁.reports ((b'.retype type).Checked env)

/-- The outcome for a branch. -/
def Inferred (env : Env) (L : TypeId → Branch → Branch → Prop) (hole₁ hole₂ : Hole) (b c : Branch)
    (q : Queue) (type type' : TypeId) (s₁ s₂ : CheckState) : Prop :=
  type = type' ∧ Supplied env L type ∧ s₁.reports = s₂.reports ∧ ∃ b' c',
    s₁.tree.Holds (hole₁.plug b') ∧ s₂.tree.Holds (hole₂.plug c') ∧ b'.Alike L c' ∧
    b.Retyped b' ∧ c.Retyped c' ∧ b'.type? = some type ∧ q.Leads s₁.reports (b'.Checked env)

/-- Inference goes the same way for both branches, wherever they stand. -/
def Infers (env : Env) (L : TypeId → Branch → Branch → Prop) (d₁ d₂ : Nat) (b c : Branch) : Prop :=
  ∀ hole₁ hole₂ {t₁ t₂ q i j}, b.root = .expr i → c.root = .expr j → t₁.Holds (hole₁.plug b) →
    t₂.Holds (hole₂.plug c) → q.Sound →
    Together (env.Fails (Bodied L)) (inferWithin env d₁ i) (inferWithin env d₂ j) ⟨t₁, q⟩ ⟨t₂, q⟩
      (Inferred env L hole₁ hole₂ b c q)

/-- Of the parts of two nodes, the first ones were inferred. -/
structure Walked (env : Env) (L : TypeId → Branch → Branch → Prop) (hole₁ hole₂ : Hole)
    (i j : ExprId)
    (x y : Expr) (q : Queue) (done₁ done₂ rest₁ rest₂ : List Branch) (types : List TypeId)
    (s₁ s₂ : CheckState) (ps qs : List Branch) : Prop where
  reports : s₁.reports = s₂.reports
  left : s₁.tree.Holds (hole₁.plug ⟨.expr i, .expr x, ps ++ rest₁⟩)
  right : s₂.tree.Holds (hole₂.plug ⟨.expr j, .expr y, qs ++ rest₂⟩)
  alike : List.Forall₂ (Branch.Alike L) ps qs
  retyped₁ : List.Forall₂ Branch.Retyped done₁ ps
  retyped₂ : List.Forall₂ Branch.Retyped done₂ qs
  supplied : ∀ type ∈ types, Supplied env L type
  types : ps.map Branch.type? = types.map some
  leads : q.Leads s₁.reports (∀ p ∈ ps, p.Checked env)

theorem walked_nil (env : Env) (L : TypeId → Branch → Branch → Prop) (hq : q.Sound)
    (h₁ : t₁.Holds (hole₁.plug ⟨.expr i, .expr x, rest₁⟩))
    (h₂ : t₂.Holds (hole₂.plug ⟨.expr j, .expr y, rest₂⟩)) :
    Walked env L hole₁ hole₂ i j x y q [] [] rest₁ rest₂ [] ⟨t₁, q⟩ ⟨t₂, q⟩ [] [] :=
  ⟨rfl, h₁, h₂, .nil, .nil, .nil, by simp, rfl, hq.leads (by simp)⟩

/-- The next part. -/
theorem Walked.next {s₁ s₂ : CheckState} {k m : ExprId} (hw : Walked env L hole₁ hole₂ i j x y q
    done₁ done₂ (p :: rest₁) (p' :: rest₂) types s₁ s₂ ps qs) (h : Infers env L d₁ d₂ p p')
    (hk : p.root = .expr k) (hm : p'.root = .expr m) :
    Together (env.Fails (Bodied L)) (inferWithin env d₁ k) (inferWithin env d₂ m) s₁ s₂ fun type
      type' u₁ u₂ =>
      type = type' ∧ ∃ ps qs, Walked env L hole₁ hole₂ i j x y q (done₁ ++ [p]) (done₂ ++ [p'])
        rest₁ rest₂ (types ++ [type]) u₁ u₂ ps qs := by
  obtain ⟨tree₁, r⟩ := s₁
  obtain ⟨tree₂, r'⟩ := s₂
  obtain rfl : r = r' := hw.reports
  refine (h (.inside hole₁ (.expr i) (.expr x) ps rest₁)
    (.inside hole₂ (.expr j) (.expr y) qs rest₂) hk hm hw.left hw.right hw.leads.sound).imp ?_
  rintro type _ u₁ u₂ ⟨rfl, hsup, hr, b', c', hb, hc, halike, hb', hc', htype, hleads⟩
  refine ⟨rfl, ps ++ [b'], qs ++ [c'], hr, ?_, ?_, List.rel_append hw.alike (.cons halike .nil),
    List.rel_append hw.retyped₁ (.cons hb' .nil), List.rel_append hw.retyped₂ (.cons hc' .nil),
    ?_, by simp [hw.types, htype], (hw.leads.trans hleads).imp ?_⟩
  · rw [List.append_assoc]
    exact hb
  · rw [List.append_assoc]
    exact hc
  · intro found hmem
    rcases List.mem_append.1 hmem with hmem | hmem
    · exact hw.supplied found hmem
    · rwa [List.mem_singleton.1 hmem]
  · rintro ⟨hps, hb'⟩ p hp
    rcases List.mem_append.1 hp with hp | hp
    · exact hps p hp
    · rwa [List.mem_singleton.1 hp]

/-- Reports were made, but the trees stay. -/
theorem Walked.later {P : Prop} (hw : Walked env L hole₁ hole₂ i j x y q done₁ done₂ rest₁ rest₂
    types ⟨t₁, r⟩ ⟨t₂, r⟩ ps qs) {r' : Queue} (hr : r.Leads r' P) :
    Walked env L hole₁ hole₂ i j x y q done₁ done₂ rest₁ rest₂ types ⟨t₁, r'⟩ ⟨t₂, r'⟩ ps qs :=
  { hw with reports := rfl, leads := (hw.leads.trans hr).imp And.left }

/-- All remaining parts, one after the other. -/
theorem Walked.all {ids₁ ids₂ : List ExprId} {s₁ s₂ : CheckState}
    (hw : Walked env L hole₁ hole₂ i j x y q done₁ done₂ rest₁ rest₂ types s₁ s₂ ps qs)
    (h₁ : rest₁.map Branch.root = ids₁.map .expr) (h₂ : rest₂.map Branch.root = ids₂.map .expr)
    (hrest : List.Forall₂ (Branch.Alike L) rest₁ rest₂)
    (ih : ∀ p ∈ rest₁, ∀ p' ∈ rest₂, p.Alike L p' → Infers env L d₁ d₂ p p') :
    Together (env.Fails (Bodied L)) (ids₁.mapM (inferWithin env d₁))
      (ids₂.mapM (inferWithin env d₂)) s₁ s₂
      fun args args' u₁ u₂ => args = args' ∧ ∃ ps qs, Walked env L hole₁ hole₂ i j x y q
        (done₁ ++ rest₁) (done₂ ++ rest₂) [] [] (types ++ args) u₁ u₂ ps qs := by
  induction hrest generalizing ids₁ ids₂ done₁ done₂ types s₁ s₂ ps qs with
  | nil =>
    obtain rfl := List.map_eq_nil_iff.1 h₁.symm
    obtain rfl := List.map_eq_nil_iff.1 h₂.symm
    exact together_pure ⟨rfl, ps, qs, by simpa using hw⟩
  | @cons p p' rest₁ rest₂ hpp hrest ihl =>
    obtain ⟨k, ids₁, rfl, hk, h₁⟩ := List.map_eq_cons_iff.1 h₁.symm
    obtain ⟨m, ids₂, rfl, hm, h₂⟩ := List.map_eq_cons_iff.1 h₂.symm
    rw [List.mapM_cons, List.mapM_cons]
    refine (hw.next (ih p (by simp) p' (by simp) hpp) hk.symm hm.symm).bind ?_
    rintro type _ u₁ u₂ ⟨rfl, ps, qs, hw⟩
    refine (ihl hw h₁.symm h₂.symm fun p hp p' hp' =>
      ih p (by simp [hp]) p' (by simp [hp'])).bind ?_
    rintro args _ v₁ v₂ ⟨rfl, ps, qs, hw⟩
    exact together_pure ⟨rfl, ps, qs, by simpa using hw⟩

/-- All parts were inferred, and the node is settled without a look at the trees, by what is known
already. -/
theorem Walked.settle_knowing {s₁ s₂ : CheckState} {step : Check TypeId} {P : TypeId → Prop}
    {Q : Prop} (hw : Walked env L hole₁ hole₂ i j x y q done₁ done₂ [] [] types s₁ s₂ ps qs)
    (hQ : q.Leads s₁.reports Q)
    (hxy : x.kind.Matches y.kind ∧ x.type = y.type ∧ x.span = y.span)
    (hl : x.kind.isLambda = false)
    (hstep : Blind (env.Fails (Bodied L)) step s₁.reports fun type r =>
      s₁.reports.Leads r (P type) ∧ Supplied env L type)
    (hP : ∀ type, Q → P type → Typed env { x with type } types) :
    Together (env.Fails (Bodied L)) step step s₁ s₂
      (Found env L hole₁ hole₂ ⟨.expr i, .expr x, done₁⟩
      ⟨.expr j, .expr y, done₂⟩ q) := by
  obtain ⟨tree₁, r⟩ := s₁
  obtain ⟨tree₂, r'⟩ := s₂
  obtain rfl : r = r' := hw.reports
  refine (hstep.together tree₁ tree₂).imp ?_
  rintro type _ _ _ ⟨rfl, r', rfl, rfl, hr, hsup⟩
  have hly : y.kind.isLambda = false := hxy.1.isLambda.trans hl
  refine ⟨rfl, hsup, rfl, ⟨.expr i, .expr x, ps⟩, ⟨.expr j, .expr y, qs⟩, by simpa using hw.left,
    by simpa using hw.right, .expr hxy.1 hl hxy.2.1 hxy.2.2 hw.alike,
    .mk rfl rfl rfl rfl (by simp [hl]) fun _ => hw.retyped₁,
    .mk rfl rfl rfl rfl (by simp [hly]) fun _ => hw.retyped₂, ((hw.leads.and hQ).trans hr).imp ?_⟩
  rintro ⟨⟨hps, hQ⟩, htype⟩
  exact .node hl hw.types (hP type hQ htype) hps

theorem Walked.settle {s₁ s₂ : CheckState} {step : Check TypeId} {P : TypeId → Prop}
    (hw : Walked env L hole₁ hole₂ i j x y q done₁ done₂ [] [] types s₁ s₂ ps qs)
    (hxy : x.kind.Matches y.kind ∧ x.type = y.type ∧ x.span = y.span)
    (hl : x.kind.isLambda = false)
    (hstep : Blind (env.Fails (Bodied L)) step s₁.reports fun type r =>
      s₁.reports.Leads r (P type) ∧ Supplied env L type)
    (hP : ∀ type, P type → Typed env { x with type } types) :
    Together (env.Fails (Bodied L)) step step s₁ s₂
      (Found env L hole₁ hole₂ ⟨.expr i, .expr x, done₁⟩
      ⟨.expr j, .expr y, done₂⟩ q) :=
  hw.settle_knowing hw.leads hxy hl hstep fun type _ => hP type

/-- The types of an assignment are compared after both sides were inferred. -/
theorem found_assignment {s₁ s₂ : CheckState} {op : AssignOp} {k m m' : ExprId}
    {l l' p p' : Branch} {target value : TypeId}
    (hw : Walked env L hole₁ hole₂ i j x y q [l, p] [l', p'] [] [] [target, value] s₁ s₂ ps qs)
    (hxy : x.kind.Matches y.kind ∧ x.type = y.type ∧ x.span = y.span)
    (hl : x.kind.isLambda = false) (hx : x.kind = .assign op k m)
    (hm : p.root = .expr m) (hm' : p'.root = .expr m') :
    Together (env.Fails (Bodied L)) (do
        let stored ← storedType env op target value x.span
        unless ← ofExcept (env.types.compatible stored target) do
          let message := "cannot assign " ++ (← quote env stored) ++ " to " ++ (← quote env target)
          report env .assignedType (← span m) message "assigned here"
        return target)
      (do
        let stored ← storedType env op target value x.span
        unless ← ofExcept (env.types.compatible stored target) do
          let message := "cannot assign " ++ (← quote env stored) ++ " to " ++ (← quote env target)
          report env .assignedType (← span m') message "assigned here"
        return target) s₁ s₂
      (Found env L hole₁ hole₂ ⟨.expr i, .expr x, [l, p]⟩ ⟨.expr j, .expr y, [l', p']⟩ q) := by
  obtain ⟨tree₁, r⟩ := s₁
  obtain ⟨tree₂, r'⟩ := s₂
  obtain rfl : r = r' := hw.reports
  have htarget := hw.supplied target (by simp)
  refine ((blind_storedType hw.leads.sound htarget (hw.supplied value (by simp)) op
    x.span).together tree₁ tree₂).bind ?_
  rintro stored _ _ _ ⟨rfl, r', rfl, rfl, hr', hstored⟩
  have hstores := (hw.leads.trans hr').imp And.right
  have hw := hw.later hr'
  cases hc : env.types.compatible stored target with
  | error f => exact .fault (faults_compatible hstored.faults htarget.faults f hc) rfl rfl
  | ok fits =>
    refine together_bind_of_ok (a := fits) (b := fits) rfl rfl ?_
    cases fits with
    | true =>
      refine hw.settle_knowing hstores hxy hl (blind_value hw.leads.sound htarget) ?_
      rintro _ hs rfl
      exact .assign hx hs hc
    | false =>
      simp only [Bool.false_eq_true, if_false]
      refine ((blind_quote hstored).together tree₁ tree₂).bind ?_
      rintro text _ _ _ ⟨rfl, _, rfl, rfl, rfl⟩
      refine ((blind_quote htarget).together tree₁ tree₂).bind ?_
      rintro text' _ _ _ ⟨rfl, _, rfl, rfl, rfl⟩
      have hlast {p l : Branch} {ps : List Branch} (h : List.Forall₂ Branch.Retyped [l, p] ps) :
          ∃ left right, ps = [left, right] ∧ right.root = p.root := by
        cases h with
        | cons _ h => cases h with
          | cons h h' =>
            cases h'
            exact ⟨_, _, rfl, h.root_eq⟩
      obtain ⟨left, right, rfl, hroot⟩ := hlast hw.retyped₁
      obtain ⟨left', right', rfl, hroot'⟩ := hlast hw.retyped₂
      have halike : right.Alike L right' := by
        cases hw.alike with
        | cons _ h => cases h with
          | cons h _ => exact h
      obtain ⟨place, h₁, h₂⟩ := spans_plugged
        (.inside hole₁ (.expr i) (.expr x) [left] []) (.inside hole₂ (.expr j) (.expr y) [left'] [])
        hw.left hw.right halike
        (hroot.trans hm) (hroot'.trans hm') _
      refine together_bind_of_ok h₁ h₂ ?_
      exact hw.settle (P := fun _ => False) hxy hl (blind_reported hw.leads.sound htarget ..)
        fun _ => False.elim

/-- The type that a member access names by its object alone. -/
theorem typeNamed?_eq_some {object : Expr} (h : typeNamed? env object = some type) :
    ∃ name, object.kind = .var name ∧ env.resolveVar name = none ∧
      env.resolveType name = some type := by
  unfold typeNamed? at h
  split at h
  next name hk =>
    split at h
    next hnone => exact ⟨name, hk, Option.isNone_iff_eq_none.1 hnone, h⟩
    next => cases h
  next => cases h

theorem typeNamed?_congr {object object' : Expr} (h : object.kind.Matches object'.kind) :
    typeNamed? env object = typeNamed? env object' := by
  obtain ⟨kind, _⟩ := object
  obtain ⟨kind', _⟩ := object'
  cases h <;> rfl

/-- A call is linked to the overload that was found. -/
theorem found_call {s₁ s₂ : CheckState} {callee : Name} {a a' : ListRange} {mangled : Option Name}
    (hw : Walked env L hole₁ hole₂ i j x y q done₁ done₂ [] [] types s₁ s₂ ps qs)
    (hx : x.kind = .call callee a mangled) (hy : y.kind = .call callee a' mangled)
    (ht : x.type = y.type) (hs : x.span = y.span) :
    Together (env.Fails (Bodied L)) (inferCall env i callee types x.span)
      (inferCall env j callee types x.span) s₁ s₂
      (Found env L hole₁ hole₂ ⟨.expr i, .expr x, done₁⟩ ⟨.expr j, .expr y, done₂⟩ q) := by
  unfold inferCall
  cases hc : env.resolveCall callee types with
  | error f =>
    refine .fault (faults_resolveCall (fun key o ho type ht => ?_) (fun type ht => ?_) f hc) rfl rfl
    · exact Env.Supplies.faults (.param ho ht)
    · exact (hw.supplied type ht).faults
  | ok found =>
    refine together_bind_of_ok (a := found) (b := found) rfl rfl ?_
    cases found with
    | none =>
      refine hw.settle (P := fun _ => False) ⟨hx ▸ hy ▸ .call, ht, hs⟩ (by rw [hx]; rfl) ?_
        fun _ hfalse => hfalse.elim
      dsimp only
      split
      · refine (blind_quotes hw.supplied).bind fun _ r hr => ?_
        subst hr
        exact blind_reported hw.leads.sound (.basic .invalid) ..
      · exact blind_reported hw.leads.sound (.basic .invalid) ..
    | some resolved =>
      obtain ⟨tree₁, r⟩ := s₁
      obtain ⟨tree₂, r'⟩ := s₂
      obtain rfl : r = r' := hw.reports
      have hleft := hw.left
      have hright := hw.right
      rw [List.append_nil] at hleft hright
      refine together_bind_of_ok (expr_plugged hleft r) (expr_plugged hright r) ?_
      simp only [hx, hy]
      obtain ⟨u₁, hu₁, hholds₁⟩ := setExpr_plugged
        { x with kind := .call callee a (some resolved.mangled) } hleft (by rw [hx]; rfl) r
      obtain ⟨u₂, hu₂, hholds₂⟩ := setExpr_plugged
        { y with kind := .call callee a' (some resolved.mangled) } hright (by rw [hy]; rfl) r
      refine together_bind_of_ok hu₁ hu₂ (together_pure ⟨rfl, .ret hc, rfl, _, _, hholds₁, hholds₂,
        .expr .call rfl ht hs hw.alike,
        .mk (by rw [hx]; rfl) rfl rfl rfl (by simp [hx, ExprKind.isLambda]) fun _ => hw.retyped₁,
        .mk (by rw [hy]; rfl) rfl rfl rfl (by simp [hy, ExprKind.isLambda]) fun _ => hw.retyped₂,
        hw.leads.imp fun hps => ?_⟩)
      exact .node rfl hw.types (.call rfl hc rfl) hps

/-- The parts of two nodes with one child each. -/
theorem one_part {k m : ExprId} (hk : ps.map Branch.root = [.expr k])
    (hm : qs.map Branch.root = [.expr m]) (h : List.Forall₂ (Branch.Alike L) ps qs) :
    ∃ p p', ps = [p] ∧ qs = [p'] ∧ p.root = .expr k ∧ p'.root = .expr m ∧ p.Alike L p' := by
  obtain ⟨p, rfl, hp⟩ := List.map_eq_singleton_iff.1 hk
  obtain ⟨p', rfl, hp'⟩ := List.map_eq_singleton_iff.1 hm
  cases h with
  | cons hpp => exact ⟨p, p', rfl, rfl, hp, hp', hpp⟩

/-- The parts of two nodes with two children each. -/
theorem two_parts {k m k' m' : ExprId} (hk : ps.map Branch.root = [.expr k, .expr k'])
    (hm : qs.map Branch.root = [.expr m, .expr m']) (h : List.Forall₂ (Branch.Alike L) ps qs) :
    ∃ l r l' r', ps = [l, r] ∧ qs = [l', r'] ∧ l.root = .expr k ∧ r.root = .expr k' ∧
      l'.root = .expr m ∧ r'.root = .expr m' ∧ l.Alike L l' ∧ r.Alike L r' := by
  obtain ⟨l, rs, rfl, hl, hrs⟩ := List.map_eq_cons_iff.1 hk
  obtain ⟨l', rs', rfl, hl', hrs'⟩ := List.map_eq_cons_iff.1 hm
  cases h with
  | cons hll hrest =>
    obtain ⟨r, r', rfl, rfl, hr, hr', hrr⟩ := one_part hrs hrs' hrest
    exact ⟨l, r, l', r', rfl, rfl, hl, hr, hl', hr', hll, hrr⟩

/-- A variable has no parts, so any type may be recorded in it. -/
theorem retyped_of_var {t : Tree} {hole : Hole} {o : Expr} {os : List Branch} {k : ExprId}
    {name : Name} (h : t.Holds (hole.plug ⟨.expr k, .expr o, os⟩)) (ho : o.kind = .var name)
    (type : TypeId) :
    os = [] ∧ Branch.Retyped ⟨.expr k, .expr o, os⟩ ⟨.expr k, .expr { o with type }, os⟩ := by
  have hos := h.plugged.root.children
  simp only [Tree.children, ho, Tree.exprChildren, List.reverse_nil] at hos
  obtain rfl := List.map_eq_nil_iff.1 hos.symm
  exact ⟨rfl, .mk rfl rfl rfl rfl (fun _ => rfl) fun _ => .nil⟩

/-- An object that names a type has that type recorded, on either side. -/
theorem walked_named {k m : ExprId} {o o' : Expr} {os os' : List Branch} {type : TypeId}
    (hq : q.Sound) (h₁ : t₁.Holds (hole₁.plug ⟨.expr i, .expr x, [⟨.expr k, .expr o, os⟩]⟩))
    (h₂ : t₂.Holds (hole₂.plug ⟨.expr j, .expr y, [⟨.expr m, .expr o', os'⟩]⟩))
    (hoo : Branch.Alike L ⟨.expr k, .expr o, os⟩ ⟨.expr m, .expr o', os'⟩)
    (hnamed : typeNamed? env o = some type) :
    ∃ u₁ u₂ ps qs, record k type ⟨t₁, q⟩ = .ok () ⟨u₁, q⟩ ∧
      record m type ⟨t₂, q⟩ = .ok () ⟨u₂, q⟩ ∧
      Walked env L hole₁ hole₂ i j x y q [⟨.expr k, .expr o, os⟩] [⟨.expr m, .expr o', os'⟩] [] []
        [type] ⟨u₁, q⟩ ⟨u₂, q⟩ ps qs := by
  obtain ⟨name, hvar, hnovar, htype⟩ := typeNamed?_eq_some hnamed
  have hvar' : o'.kind = .var name := by
    have := hoo.nodes.1
    rw [hvar] at this
    generalize o'.kind = kind at this
    cases this
    rfl
  have h₁ : t₁.Holds ((Hole.inside hole₁ (.expr i) (.expr x) [] []).plug _) := h₁
  have h₂ : t₂.Holds ((Hole.inside hole₂ (.expr j) (.expr y) [] []).plug _) := h₂
  obtain ⟨u₁, hu₁, hholds₁⟩ := record_plugged h₁ type q
  obtain ⟨u₂, hu₂, hholds₂⟩ := record_plugged h₂ type q
  obtain ⟨rfl, hretyped₁⟩ := retyped_of_var h₁ hvar type
  obtain ⟨rfl, hretyped₂⟩ := retyped_of_var h₂ hvar' type
  refine ⟨u₁, u₂, [⟨.expr k, .expr { o with type }, []⟩], [⟨.expr m, .expr { o' with type }, []⟩],
    hu₁, hu₂, rfl, hholds₁, hholds₂, .cons (hoo.retype type) .nil, .cons hretyped₁ .nil,
    .cons hretyped₂ .nil,
    fun found hmem => List.mem_singleton.1 hmem ▸ .named htype, rfl, hq.leads fun p hp => ?_⟩
  obtain rfl := List.mem_singleton.1 hp
  exact .node (by rw [hvar]; rfl) rfl (.typeName hvar hnovar htype) (by simp)

/-- A member access looks at its object, which may name a type, before the object is inferred. -/
theorem found_member {k m : ExprId} {field : Name} {p p' : Branch} (hq : q.Sound)
    (h₁ : t₁.Holds (hole₁.plug ⟨.expr i, .expr x, [p]⟩))
    (h₂ : t₂.Holds (hole₂.plug ⟨.expr j, .expr y, [p']⟩))
    (hxy : x.kind.Matches y.kind ∧ x.type = y.type ∧ x.span = y.span)
    (hx : x.kind = .member k field) (hp : p.root = .expr k) (hp' : p'.root = .expr m)
    (hpp : p.Alike L p') (ih : Infers env L d₁ d₂ p p') :
    Together (env.Fails (Bodied L)) (do
        match typeNamed? env (← expr k) with
        | some type =>
          record k type
          variantType env type field x.span
        | none => memberType env (← inferWithin env d₁ k) field x.span)
      (do
        match typeNamed? env (← expr m) with
        | some type =>
          record m type
          variantType env type field x.span
        | none => memberType env (← inferWithin env d₂ m) field x.span) ⟨t₁, q⟩ ⟨t₂, q⟩
      (Found env L hole₁ hole₂ ⟨.expr i, .expr x, [p]⟩ ⟨.expr j, .expr y, [p']⟩ q) := by
  have hlx : x.kind.isLambda = false := by rw [hx]; rfl
  obtain ⟨o, o', os, os', rfl, rfl⟩ : ∃ o o' os os', p = ⟨.expr k, .expr o, os⟩ ∧
      p' = ⟨.expr m, .expr o', os'⟩ := by
    cases hpp <;> cases hp <;> cases hp' <;> exact ⟨_, _, _, _, rfl, rfl⟩
  have hobject₁ : t₁.Holds ((Hole.inside hole₁ (.expr i) (.expr x) [] []).plug _) := h₁
  have hobject₂ : t₂.Holds ((Hole.inside hole₂ (.expr j) (.expr y) [] []).plug _) := h₂
  refine together_bind_of_ok (expr_plugged hobject₁ q) (expr_plugged hobject₂ q) ?_
  rw [← typeNamed?_congr hpp.nodes.1]
  cases hnamed : typeNamed? env o with
  | none =>
    refine ((walked_nil env L hq h₁ h₂).next ih hp hp').bind ?_
    rintro type _ u₁ u₂ ⟨rfl, ps, qs, hw⟩
    exact hw.settle hxy hlx (blind_memberType hw.leads.sound (hw.supplied type (by simp)) ..)
      fun _ h => .member hx h
  | some type =>
    obtain ⟨u₁, u₂, ps, qs, hu₁, hu₂, hw⟩ := walked_named hq h₁ h₂ hpp hnamed
    refine together_bind_of_ok hu₁ hu₂ ?_
    refine hw.settle hxy hlx (blind_variantType hq (hw.supplied type (by simp)) ..) ?_
    rintro _ rfl
    exact .member hx .variant

/-- One node, given the inference of its parts. -/
theorem infers_node (hq : q.Sound) (h₁ : t₁.Holds (hole₁.plug ⟨.expr i, .expr x, ps⟩))
    (h₂ : t₂.Holds (hole₂.plug ⟨.expr j, .expr y, qs⟩))
    (hxy : Branch.Alike L ⟨.expr i, .expr x, ps⟩ ⟨.expr j, .expr y, qs⟩)
    (ih : ∀ p ∈ ps, ∀ p' ∈ qs, p.Alike L p' → Infers env L d₁ d₂ p p') :
    Together (env.Fails (Bodied L)) (inferNode env (inferWithin env d₁) i)
      (inferNode env (inferWithin env d₂) j)
      ⟨t₁, q⟩ ⟨t₂, q⟩
      (Found env L hole₁ hole₂ ⟨.expr i, .expr x, ps⟩ ⟨.expr j, .expr y, qs⟩ q) := by
  refine together_bind_of_ok (expr_plugged h₁ q) (expr_plugged h₂ q) ?_
  cases hxy with
  | lambda hx hy ht hs hL =>
    simp only [hx, hy]
    refine together_pure ⟨rfl, .lambda ⟨_, _, hL⟩, rfl, _, _, h₁, h₂, .lambda hx hy ht hs hL,
      .mk rfl rfl rfl rfl (fun _ => rfl) (by simp [hx, ExprKind.isLambda]),
      .mk rfl rfl rfl rfl (fun _ => rfl) (by simp [hy, ExprKind.isLambda]), hq.leads ?_⟩
    exact .lambda hx rfl
  | expr hk hl ht hs hparts =>
    have hw := walked_nil env L hq h₁ h₂
    have hchildren₁ := h₁.plugged.root.children
    have hchildren₂ := h₂.plugged.root.children
    have hnone (hx : ps.map Branch.root = []) : ps = [] ∧ qs = [] := by
      obtain rfl := List.map_eq_nil_iff.1 hx
      cases hparts
      exact ⟨rfl, rfl⟩
    simp only [Tree.children] at hchildren₁ hchildren₂
    generalize hkx : x.kind = kx at hk hl hchildren₁
    generalize hky : y.kind = ky at hk hchildren₂
    have hxy : x.kind.Matches y.kind := by rwa [hkx, hky]
    have hlx : x.kind.isLambda = false := by rwa [hkx]
    cases hk with
    | error =>
      obtain ⟨rfl, rfl⟩ := hnone hchildren₁.symm
      exact hw.settle ⟨hxy, ht, hs⟩ hlx (blind_value hq (.basic .invalid)) fun _ _ => .error hkx
    | literal =>
      obtain ⟨rfl, rfl⟩ := hnone hchildren₁.symm
      rename_i value
      exact hw.settle ⟨hxy, ht, hs⟩ hlx (blind_value hq (value.kind.id_basic ▸ .basic _)) fun _ h =>
        .literal hkx h
    | str =>
      obtain ⟨rfl, rfl⟩ := hnone hchildren₁.symm
      exact hw.settle ⟨hxy, ht, hs⟩ hlx (blind_value hq (.basic .cstring)) fun _ h => .str hkx h
    | var =>
      obtain ⟨rfl, rfl⟩ := hnone hchildren₁.symm
      rw [← hs]
      exact hw.settle ⟨hxy, ht, hs⟩ hlx (blind_inferVar hq ..) fun type h => .var hkx h
    | group =>
      obtain ⟨p, p', rfl, rfl, hp, hp', hpp⟩ := one_part hchildren₁.symm hchildren₂.symm hparts
      dsimp only
      rw [← bind_pure (inferWithin env d₁ _), ← bind_pure (inferWithin env d₂ _)]
      refine (hw.next (ih p (by simp) p' (by simp) hpp) hp hp').bind ?_
      rintro type _ u₁ u₂ ⟨rfl, ps, qs, hw⟩
      refine hw.settle ⟨hxy, ht, hs⟩ hlx
        (blind_value hw.leads.sound (hw.supplied type (by simp))) ?_
      rintro _ rfl
      exact .group hkx
    | unary =>
      obtain ⟨p, p', rfl, rfl, hp, hp', hpp⟩ := one_part hchildren₁.symm hchildren₂.symm hparts
      refine (hw.next (ih p (by simp) p' (by simp) hpp) hp hp').bind ?_
      rintro type _ u₁ u₂ ⟨rfl, ps, qs, hw⟩
      rw [← hs]
      exact hw.settle ⟨hxy, ht, hs⟩ hlx (blind_applyUnary hw.leads.sound
        (hw.supplied type (by simp)) ..) fun _ h => .unary hkx h
    | binary =>
      obtain ⟨l, r, l', r', rfl, rfl, hl, hr, hl', hr', hll, hrr⟩ :=
        two_parts hchildren₁.symm hchildren₂.symm hparts
      refine (hw.next (ih l (by simp) l' (by simp) hll) hl hl').bind ?_
      rintro left _ u₁ u₂ ⟨rfl, ps, qs, hw⟩
      refine (hw.next (ih r (by simp) r' (by simp) hrr) hr hr').bind ?_
      rintro right _ u₁ u₂ ⟨rfl, ps, qs, hw⟩
      rw [← hs]
      exact hw.settle ⟨hxy, ht, hs⟩ hlx (blind_applyBinary hw.leads.sound
        (hw.supplied left (by simp)) (hw.supplied right (by simp)) ..) fun _ h => .binary hkx h
    | assign =>
      obtain ⟨l, r, l', r', rfl, rfl, hl, hr, hl', hr', hll, hrr⟩ :=
        two_parts hchildren₁.symm hchildren₂.symm hparts
      refine (hw.next (ih l (by simp) l' (by simp) hll) hl hl').bind ?_
      rintro target _ u₁ u₂ ⟨rfl, ps, qs, hw⟩
      refine (hw.next (ih r (by simp) r' (by simp) hrr) hr hr').bind ?_
      rintro value _ u₁ u₂ ⟨rfl, ps, qs, hw⟩
      rw [← hs]
      exact found_assignment hw ⟨hxy, ht, hs⟩ hlx hkx hr hr'
    | call =>
      rename_i callee a a' mangled
      refine together_bind_of_ok (get_eq _) (get_eq _) ?_
      have h₁ : ps.map Branch.root = (t₁.exprList a).map .expr := by
        rw [← hchildren₁, Tree.exprChildren, List.map_reverse, List.reverse_reverse]
      have h₂ : qs.map Branch.root = (t₂.exprList a').map .expr := by
        rw [← hchildren₂, Tree.exprChildren, List.map_reverse, List.reverse_reverse]
      refine (hw.all h₁ h₂ hparts ih).bind ?_
      rintro args _ u₁ u₂ ⟨rfl, ps, qs, hw⟩
      rw [← hs]
      exact found_call hw hkx hky ht hs
    | member =>
      obtain ⟨p, p', rfl, rfl, hp, hp', hpp⟩ := one_part hchildren₁.symm hchildren₂.symm hparts
      rw [← hs]
      exact found_member hq h₁ h₂ ⟨hxy, ht, hs⟩ hkx hp hp' hpp (ih _ (by simp) _ (by simp) hpp)
    | lambda => cases hl

/-- The type that was found is recorded. -/
theorem infers_of_node (h : ∀ hole₁ hole₂ {t₁ t₂ q i j}, b.root = .expr i → c.root = .expr j →
    t₁.Holds (hole₁.plug b) → t₂.Holds (hole₂.plug c) → q.Sound →
    Together (env.Fails (Bodied L)) (inferNode env (inferWithin env d₁) i)
      (inferNode env (inferWithin env d₂) j)
      ⟨t₁, q⟩ ⟨t₂, q⟩ (Found env L hole₁ hole₂ b c q)) :
    Infers env L (d₁ + 1) (d₂ + 1) b c := by
  intro hole₁ hole₂ t₁ t₂ q i j hb hc h₁ h₂ hq
  refine (h _ _ hb hc h₁ h₂ hq).bind ?_
  rintro type _ ⟨u₁, r⟩ ⟨u₂, r'⟩ ⟨rfl, hsup, hr, b', c', hholds₁, hholds₂, halike, hb', hc', hleads⟩
  obtain rfl : r = r' := hr
  obtain ⟨k, m, x, y, ps, qs, rfl, rfl⟩ : ∃ k m x y ps qs, b' = ⟨.expr k, .expr x, ps⟩ ∧
      c' = ⟨.expr m, .expr y, qs⟩ := by
    cases halike <;> exact ⟨_, _, _, _, _, _, rfl, rfl⟩
  obtain rfl : k = i := NodeId.expr.inj (hb'.root_eq.trans hb)
  obtain rfl : m = j := NodeId.expr.inj (hc'.root_eq.trans hc)
  obtain ⟨v₁, hv₁, hholds₁⟩ := record_plugged hholds₁ type r
  obtain ⟨v₂, hv₂, hholds₂⟩ := record_plugged hholds₂ type r
  refine together_bind_of_ok hv₁ hv₂ (together_pure ?_)
  exact ⟨rfl, hsup, rfl, _, _, hholds₁, hholds₂, halike.retype type, hb'.retype type,
    hc'.retype type, rfl, hleads⟩

theorem infers_within (h₁ : Branch.exprCount [b] ≤ d₁) (h₂ : Branch.exprCount [c] ≤ d₂)
    (hbc : b.Alike L c) : Infers env L d₁ d₂ b c := by
  induction b using Branch.induct generalizing c d₁ d₂ with
  | mk root n parts ih =>
    obtain ⟨i, j, x, y, qs, rfl, rfl, rfl⟩ : ∃ i j x y qs, root = .expr i ∧ n = .expr x ∧
        c = ⟨.expr j, .expr y, qs⟩ := by
      cases hbc <;> exact ⟨_, _, _, _, _, rfl, rfl, rfl⟩
    rw [Branch.exprCount_expr] at h₁ h₂
    obtain ⟨d₁, rfl⟩ : ∃ d, d₁ = d + 1 := ⟨d₁ - 1, by omega⟩
    obtain ⟨d₂, rfl⟩ : ∃ d, d₂ = d + 1 := ⟨d₂ - 1, by omega⟩
    refine infers_of_node fun hole₁ hole₂ {t₁ t₂ q k m} hb hc hholds₁ hholds₂ hq => ?_
    cases hb
    cases hc
    refine infers_node hq hholds₁ hholds₂ hbc fun p hp p' hp' hpp => ?_
    exact ih p hp (Nat.le_trans (Branch.exprCount_mem hp) (Nat.le_of_succ_le_succ h₁))
      (Nat.le_trans (Branch.exprCount_mem hp') (Nat.le_of_succ_le_succ h₂)) hpp

end

variable {env : Env} {L : TypeId → Branch → Branch → Prop} {hole hole₁ hole₂ : Hole}
  {t t₁ t₂ : Tree}
  {q : Queue} {b c : Branch} {i j : ExprId} {type : TypeId} {s : CheckState}

/-- Inference of two expressions that are alike. -/
theorem together_infer (env : Env) (h₁ : t₁.Holds (hole₁.plug b)) (h₂ : t₂.Holds (hole₂.plug c))
    (hbc : b.Alike L c) (hb : b.root = .expr i) (hc : c.root = .expr j) (hq : q.Sound) :
    Together (env.Fails (Bodied L)) (infer env i) (infer env j) ⟨t₁, q⟩ ⟨t₂, q⟩
      (Inferred env L hole₁ hole₂ b c q) :=
  together_bind_of_ok (get_eq _) (get_eq _)
    (infers_within (Nat.le_succ_of_le h₁.plugged.exprCount_le)
      (Nat.le_succ_of_le h₂.plugged.exprCount_le) hbc _ _ hb hc h₁ h₂ hq)

/-- Inference of one expression. -/
theorem infer_ok (hole : Hole) (h : t.Holds (hole.plug b)) (hb : b.root = .expr i) (hq : q.Sound)
    (hrun : infer env i ⟨t, q⟩ = .ok type s) : ∃ b', s.tree.Holds (hole.plug b') ∧ b.Retyped b' ∧
      b'.type? = some type ∧ q.Leads s.reports (b'.Checked env) := by
  have hlike : b.Alike (fun _ _ _ => True) b := .refl (fun _ _ => trivial) h.plugged hb
  obtain ⟨-, -, -, b', -, hholds, -, -, hretyped, -, htype, hleads⟩ :=
    (together_infer env h h hlike hb hb hq).of_ok hrun
  exact ⟨b', hholds, hretyped, htype, hleads⟩

end Check

end FrontEnd
