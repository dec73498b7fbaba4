import FrontEnd.Proofs.Program.Runs

/-! Steps of two runs that make an expression out of what they have read. -/

namespace FrontEnd

namespace Pass

open Parse Link

variable {P : Pass} {s₁ s₂ : ParseState} {es es' : List Entry} {Γ : Sight} {os : List Overload}
  {bs cs bs' cs' xs ys : List Branch} {b c : Branch} {i j : ExprId} {e e' x y : Expr}
    {start stop w : Window}
  {v : View}

/-! ### Nodes -/

theorem Read.nodes (h : P.Read v Γ i j start stop b c) : ∃ x y xs ys, b = ⟨.expr i, .expr x, xs⟩ ∧
    c = ⟨.expr j, .expr y, ys⟩ ∧ x.kind.Matches y.kind ∧ x.span = y.span := by
  obtain ⟨hb, hc, halike, -, -⟩ := h
  cases halike with
  | expr hk _ _ hs =>
    cases hb
    cases hc
    exact ⟨_, _, _, _, rfl, rfl, hk, hs⟩
  | lambda hx hy _ hs =>
    cases hb
    cases hc
    exact ⟨_, _, _, _, rfl, rfl, hx ▸ hy ▸ .lambda, hs⟩

/-- A node over expressions that were read. -/
theorem read_node (i j : ExprId) (hk : e.kind.Matches e'.kind) (hl : e.kind.isLambda = false)
    (ht : e.type = e'.type) (hs : e.span = e'.span)
    (hp : List.Forall₂ (Branch.Alike (P.Body v Γ)) xs ys)
    (ha : e.canAssign = e'.canAssign ∨ Window.ConstantPath P.text start stop)
    (hproper : v.quiet → Branch.Proper Γ ⟨.expr j, .expr e', ys⟩) :
    P.Read v Γ i j start stop ⟨.expr i, .expr e, xs⟩ ⟨.expr j, .expr e', ys⟩ where
  left := rfl
  right := rfl
  alike := .expr hk hl ht hs hp
  target := by
    rintro _ _ ⟨⟩ ⟨⟩
    exact ha
  proper := hproper

/-- A node that is no name is proper with its parts. -/
theorem proper_node (j : ExprId) (he : e.kind ≠ .error) (hn : ∀ name, e.kind ≠ .var name)
    (hp : ∀ p ∈ ys, p.Proper Γ) : Branch.Proper Γ ⟨.expr j, .expr e, ys⟩ :=
  .mk he (fun name hk => absurd hk (hn name)) fun _ => hp

theorem Accounted.raise {o : Overload} (h : Accounted (es' ++ es) cs o)
    (hes : ∀ mangled type, Entry.function mangled type ∉ es')
    (hcs : Branch.stmts cs ⊆ Branch.stmts (ys ++ cs')) (x : Entry) (j : ExprId) :
    Accounted (x :: es) (⟨.expr j, .expr e, ys⟩ :: cs') o := by
  rcases h with hmem | ⟨s, hs, hd⟩
  · exact .inl (List.mem_cons_of_mem _ ((List.mem_append.1 hmem).resolve_left (hes _ _)))
  · refine .inr ⟨s, ?_, hd⟩
    rw [Branch.stmts_cons, Branch.stmts_expr, ← Branch.stmts_append]
    exact hcs hs

/-- A new expression over what was read last. -/
theorem firm_node (es' : List Entry) (xs ys : List Branch) (start : Window) (hb : P.Base s₁ s₂)
    (h : P.Stands (es' ++ es) Γ os bs cs s₁ s₂)
    (hes : ∀ mangled type, Entry.function mangled type ∉ es') (hret : P.returns es' = [])
    (hbs : bs.Perm (xs ++ bs')) (hcs : cs.Perm (ys ++ cs'))
    (hp : Pieces P (P.view s₁ os) Γ es bs' cs')
    (hc₁ : s₁.tree.Covers (.expr e)) (hch₁ : s₁.tree.children (.expr e) = xs.map Branch.root)
    (hc₂ : s₂.tree.Covers (.expr e')) (hch₂ : s₂.tree.children (.expr e') = ys.map Branch.root)
    (hread : ∀ i j, P.Read (P.view s₁ os) Γ i j start s₁.window ⟨.expr i, .expr e, xs⟩
      ⟨.expr j, .expr e', ys⟩) :
    P.link.Firm es (addNode e) (addNode e') s₁ s₂ fun i j t₁ t₂ =>
      P.link.rel (.raw i j start t₁.window :: es) t₁ t₂ := by
  have howns : s₁.tree.Owns (es.flatMap Entry.left) ∧ s₂.tree.Owns (es.flatMap Entry.right) := by
    obtain ⟨hl, hr⟩ := hp.roots_eq
    exact ⟨hl ▸ (h.left.perm hbs).right.owns, hr ▸ (h.right.perm hcs).right.owns⟩
  refine firm_get_bind ?_
  cases h₁ : s₁.tree.addExpr e with
  | error cause => exact .first rfl howns.1
  | ok r₁ =>
    cases h₂ : s₂.tree.addExpr e' with
    | error cause => exact .second rfl howns.2
    | ok r₂ =>
      obtain ⟨i, t⟩ := r₁
      obtain ⟨j, u⟩ := r₂
      refine .ok rfl rfl ⟨hb.trees, Γ, os, _, _, h.trees ((h.left.perm hbs).addExpr h₁ hc₁ hch₁)
        ((h.right.perm hcs).addExpr h₂ hc₂ hch₂) (hp.cons (.raw (hread i j))) (fun _ o ho => ?_)
        (fun hq => ?_) fun _ => ?_⟩
      · exact ho.raise hes (Branch.stmts_perm hcs).subset _ j
      · rw [Tree.roots_mk_cons]
        exact ((h.counts hq).perm ((Branch.allIn_perm hbs).map _)).addExpr h₁
      · rw [returns_append, hret]
        rfl

/-- An expression that was given up after a report. -/
theorem firm_errorExpr (start : Window) (span : Span) (hb : P.Base s₁ s₂)
    (h : P.Stands es Γ os bs cs s₁ s₂) (hpos : 0 < s₁.reports.reports.size) :
    P.link.Firm es (errorExpr span) (errorExpr span) s₁ s₂ fun i j t₁ t₂ =>
      P.link.rel (.raw i j start t₁.window :: es) t₁ t₂ :=
  firm_node [] [] [] start hb h (by simp) rfl (.refl _) (.refl _)
    h.pieces trivial rfl trivial rfl fun i j => read_node i j .error rfl rfl rfl .nil
      (.inl rfl) fun hq => absurd hq (not_quiet hpos)

/-! ### Operands -/

/-- A new expression without parts. -/
theorem firm_leaf (start : Window) (h : P.link.Rel es s₁ s₂) (hk : e.kind.Matches e'.kind)
    (hl : e.kind.isLambda = false) (ht : e.type = e'.type) (hs : e.span = e'.span)
    (ha : e.canAssign = e'.canAssign ∨ Window.ConstantPath P.text start s₁.window)
    (hcov : ∀ t : Tree, t.Covers (.expr e) ∧ t.Covers (.expr e') ∧ t.children (.expr e) = [] ∧
      t.children (.expr e') = [])
    (hproper : P.Quiet s₁ → ∀ Γ, Sight.Agrees s₂.symbols.vars s₂.folder Γ →
      Γ.length = s₂.scope.depth + 1 → ∀ j, Branch.Proper Γ ⟨.expr j, .expr e', []⟩) :
    P.link.Firm es (addNode e) (addNode e') s₁ s₂ fun i j t₁ t₂ =>
      P.link.rel (.raw i j start t₁.window :: es) t₁ t₂ := by
  obtain ⟨hb, Γ, os, bs, cs, hst⟩ := h.rel
  exact firm_node [] [] [] start hb hst (by simp) rfl (.refl _) (.refl _)
    hst.pieces (hcov _).1 (hcov _).2.2.1 (hcov _).2.1 (hcov _).2.2.2
    fun i j => read_node i j hk hl ht hs .nil ha fun hq =>
      hproper hq Γ (hst.sight hq).1 (hst.sight hq).2 j

theorem firm_literal (h : P.link.Rel es s₁ s₂) :
    P.link.Firm es (literal s₁.window.current) (literal s₁.window.current) s₁ s₂ fun i j t₁ t₂ =>
      P.link.rel (.raw i j s₁.window t₁.window :: es) t₁ t₂ := by
  refine firm_get_bind ?_
  rw [← h.same.window]
  refine (firm_advance h).bind ?_
  rintro _ _ t₁ t₂ ⟨-, -, ht⟩
  cases literalValue? s₁.window.current.kind (s₁.window.lexeme s₁.window.current) with
  | some value =>
    exact firm_leaf s₁.window ht.rel .literal rfl rfl rfl (.inl rfl)
      (fun _ => ⟨trivial, trivial, rfl, rfl⟩)
      fun _ Γ _ _ j => proper_node j (by simp [Expr.new]) (by simp [Expr.new]) (by simp)
  | none =>
    refine (firm_report ht.rel (by decide) ..).bind ?_
    rintro _ _ u₁ u₂ ⟨hu, hpos⟩
    obtain ⟨hb, Γ, os, bs, cs, hst⟩ := hu.rel.rel
    exact firm_errorExpr s₁.window s₁.window.current.span hb hst hpos

theorem firm_stringLiteral (h : P.link.Rel es s₁ s₂) :
    P.link.Firm es (stringLiteral s₁.window.current) (stringLiteral s₁.window.current) s₁ s₂
      fun i j t₁ t₂ => P.link.rel (.raw i j s₁.window t₁.window :: es) t₁ t₂ := by
  refine firm_get_bind ?_
  rw [← h.same.window]
  refine (firm_advance h).bind ?_
  rintro _ _ t₁ t₂ ⟨-, -, ht⟩
  refine (firm_intern ht.rel _).bind ?_
  rintro text _ u₁ u₂ ⟨rfl, hu, -⟩
  exact firm_leaf s₁.window hu.rel .str rfl rfl rfl (.inl rfl)
    (fun _ => ⟨trivial, trivial, rfl, rfl⟩)
    fun _ Γ _ _ j => proper_node j (by simp [Expr.new]) (by simp [Expr.new]) (by simp)

/-- The node of a name. -/
def nameNode (name : Name) (span : Span) (isConst : Bool) : Expr :=
  { Expr.new (.var name) span with canAssign := !isConst, isConstant := isConst }

theorem nameExpr_eq : nameExpr = (do
    let (name, span) ← expectName
    addNode (nameNode name span (← isConstantName name))) := by
  have hnode (name : Name) (span : Span) : (do
      if ← isConstantName name then addConstant (.var name) span true
      else addTarget (.var name) span true) =
      (do addNode (nameNode name span (← isConstantName name)) : Parse ExprId) := by
    refine bind_congr fun isConst => ?_
    cases isConst <;> rfl
  exact bind_congr fun r => hnode r.1 r.2

/-- The text of a name that has a value was declared after `const`. -/
theorem Named.constantName {s : ParseState} {name : Name} {depth : Nat} {v : Value}
    (h : P.Named s) (hv : s.folder.bindingAt ⟨name, depth⟩ = some v) (hw : w.In P.text)
    (hk : w.current.kind = .ident) (hn : s.names.Has name (w.lexeme w.current)) :
    Window.ConstantName P.text (w.lexeme w.current) := by
  obtain ⟨text, hhas, htext⟩ := h _ _ hv
  have hsame : text = w.lexeme w.current := by rw [← Interner.Has.lookup hhas, hn.lookup]
  rcases htext with hc | ⟨outer, inner, hq⟩
  · exact hsame ▸ hc
  · exact absurd (hsame.symm.trans hq) (hw.reads.not_qualified hk outer inner)

theorem firm_nameExpr (h : P.link.Rel es s₁ s₂) :
    P.link.Firm es nameExpr nameExpr s₁ s₂ fun i j t₁ t₂ =>
      P.link.rel (.raw i j s₁.window t₁.window :: es) t₁ t₂ := by
  rw [nameExpr_eq]
  refine (firm_expectName h).bind ?_
  rintro ⟨name, span⟩ _ t₁ t₂ ⟨rfl, ht, hident, hhas⟩
  refine (firm_of_ok (R := fun a b u₁ u₂ => t₁.constants name = a ∧ t₂.constants name = b ∧
    t₁ = u₁ ∧ t₂ = u₂) (isConstantName_run name t₁) (isConstantName_run name t₂)
    ⟨rfl, rfl, rfl, rfl⟩).bind ?_
  rintro isConst₁ isConst₂ _ _ ⟨hc₁, hc₂, rfl, rfl⟩
  have hbase := ht.rel.rel.1
  have hin := h.rel.1.window
  refine firm_leaf s₁.window ht.rel .var rfl rfl rfl ?_ (fun _ => ⟨trivial, trivial, rfl, rfl⟩) ?_
  · by_cases heq : isConst₁ = isConst₂
    · exact .inl (congrArg (!·) heq)
    · refine .inr ?_
      rw [ht.window]
      refine .name hin hident ?_
      cases isConst₁ with
      | true =>
        obtain ⟨type, depth, v, -, hv⟩ := ParseState.constants_eq_true hc₁
        exact hbase.named₁.constantName hv hin hident hhas
      | false =>
        obtain ⟨type, depth, v, -, hv⟩ := ParseState.constants_eq_true
          (hc₂.trans (by simpa using heq))
        exact hbase.named₂.constantName hv hin hident (ht.rel.same.names ▸ hhas)
  · intro _ Γ hagrees hlen j
    refine .mk (by simp [nameNode, Expr.new]) (fun n hn hflag => ?_) (by simp)
    obtain rfl : name = n := by simpa [nameNode, Expr.new] using hn
    obtain ⟨type, depth, v, hresolve, hv⟩ := ParseState.constants_eq_true (hc₂.trans hflag)
    have hfind := hagrees.resolve hlen name
    rw [hresolve] at hfind
    obtain ⟨d, hd, -, hvalue⟩ := hfind
    exact ⟨v, by rw [Sight.constant?, hd, Option.bind_some, ← hvalue, hv]⟩

/-! ### Expressions over others -/

/-- What the last expression that was read is. -/
theorem raw_on_top (h : Pieces P v Γ (.raw i j start stop :: es) bs cs) :
    ∃ x y xs ys bs' cs', bs = ⟨.expr i, .expr x, xs⟩ :: bs' ∧ cs = ⟨.expr j, .expr y, ys⟩ :: cs' ∧
      Pieces P v Γ es bs' cs' ∧ x.span = y.span ∧
      P.Read v Γ i j start stop ⟨.expr i, .expr x, xs⟩ ⟨.expr j, .expr y, ys⟩ := by
  cases h with
  | cons hp hx =>
    cases hx with
    | raw hread =>
      obtain ⟨x, y, xs, ys, rfl, rfl, -, hspan⟩ := hread.nodes
      exact ⟨x, y, xs, ys, _, _, rfl, rfl, hp, hspan, hread⟩

/-- Both runs look at a node of theirs. -/
theorem firm_expr {t₁ t₂ : List Branch} (h₁ : s₁.tree.Holds (⟨.expr i, .expr x, xs⟩ :: t₁))
    (h₂ : s₂.tree.Holds (⟨.expr j, .expr y, ys⟩ :: t₂)) :
    P.link.Firm es (Parse.expr i) (Parse.expr j) s₁ s₂ fun a b u₁ u₂ =>
      x = a ∧ y = b ∧ s₁ = u₁ ∧ s₂ = u₂ :=
  .ok (expr_eq h₁) (expr_eq h₂) ⟨rfl, rfl, rfl, rfl⟩

theorem firm_groupEnd {a b : Window} (start : Window) (span : Span)
    (h : P.link.Rel (.raw i j a b :: es) s₁ s₂) :
    P.link.Firm es (groupEnd i span) (groupEnd j span) s₁ s₂ fun i' j' t₁ t₂ =>
      P.link.rel (.raw i' j' start t₁.window :: es) t₁ t₂ := by
  obtain ⟨hb, Γ, os, bs, cs, hst⟩ := h.rel
  obtain ⟨x, y, xs, ys, bs, cs, rfl, rfl, hp, -, hread⟩ := raw_on_top hst.pieces
  refine (firm_expr hst.left hst.right).bind ?_
  rintro _ _ _ _ ⟨rfl, rfl, rfl, rfl⟩
  exact firm_node [.raw i j a b] [⟨.expr i, .expr x, xs⟩]
    [⟨.expr j, .expr y, ys⟩] start hb hst (by simp) rfl (.refl _) (.refl _) hp trivial rfl
    trivial rfl fun i' j' => read_node i' j' .group rfl rfl rfl (.cons hread.alike .nil) (.inl rfl)
      fun hq => proper_node j' (by simp [Expr.new]) (by simp [Expr.new])
        (by simpa using hread.proper hq)

theorem firm_lambda {m n : StmtId} {type : TypeId} (start : Window) (span : Span)
    (h : P.link.Rel (.bodyStmt type m n :: es) s₁ s₂) (hk : P.link.knows type s₁) :
    P.link.Firm es (addExpr (.lambda type m) span) (addExpr (.lambda type n) span) s₁ s₂
      fun i j t₁ t₂ => P.link.rel (.raw i j start t₁.window :: es) t₁ t₂ := by
  obtain ⟨hb, Γ, os, bs, cs, hst⟩ := h.rel
  obtain ⟨hl, hr, hp, hs, hkn, hacc, hcount, hret⟩ := hst
  cases hp with
  | cons hp hx =>
    cases hx with
    | bodyStmt he =>
      rename_i b c
      have hchild {t : Tree} {k : StmtId} {b : Branch} (hroot : b.root = .stmt k) :
          t.children (.expr (Expr.new (.lambda type k) span)) = [b].map Branch.root := by
        simp [Tree.children, Tree.exprChildren, Expr.new, hroot]
      refine firm_node [.bodyStmt type m n] [b] [c] start hb
        ⟨hl, hr, hp.cons (.bodyStmt he), hs, hkn, hacc, hcount, hret⟩ (by simp) rfl (.refl _)
          (.refl _) hp trivial
        (hchild he.left) trivial (hchild he.right) fun i j => ⟨rfl, rfl, ?_, ?_, fun _ => ?_⟩
      · exact .lambda rfl rfl rfl rfl ⟨hk.uses, he.settled, he.folded⟩
      · rintro _ _ ⟨⟩ ⟨⟩
        exact .inl rfl
      · exact .mk (by simp [Expr.new]) (by simp [Expr.new]) (by simp [Expr.new, ExprKind.isLambda])

theorem firm_binaryEnd {k m : ExprId} {a b a' b' : Window} (op : BinaryOp)
    (h : P.link.Rel (.raw k m a' b' :: .raw i j a b :: es) s₁ s₂) :
    P.link.Firm es (binaryEnd op i k) (binaryEnd op j m) s₁ s₂ fun i' j' t₁ t₂ =>
      P.link.rel (.raw i' j' a t₁.window :: es) t₁ t₂ := by
  obtain ⟨hb, Γ, os, bs, cs, hst⟩ := h.rel
  obtain ⟨x', y', xs', ys', bs, cs, rfl, rfl, hp, hspan', hread'⟩ := raw_on_top hst.pieces
  obtain ⟨x, y, xs, ys, bs, cs, rfl, rfl, hp, hspan, hread⟩ := raw_on_top hp
  refine (firm_expr hst.left.swap hst.right.swap).bind ?_
  rintro _ _ _ _ ⟨rfl, rfl, rfl, rfl⟩
  refine (firm_expr hst.left hst.right).bind ?_
  rintro _ _ _ _ ⟨rfl, rfl, rfl, rfl⟩
  exact firm_node [.raw k m a' b', .raw i j a b]
    [⟨.expr i, .expr x, xs⟩, ⟨.expr k, .expr x', xs'⟩]
    [⟨.expr j, .expr y, ys⟩, ⟨.expr m, .expr y', ys'⟩] a hb hst (by simp) rfl (.swap ..)
    (.swap ..) hp trivial rfl trivial rfl fun i' j' => read_node i' j' .binary rfl rfl
      (by simp only [Expr.new, hspan, hspan'])
      (.cons hread.alike (.cons hread'.alike .nil)) (.inl rfl) fun hq =>
      proper_node j' (by simp [Expr.new]) (by simp [Expr.new])
        (by simpa using ⟨hread.proper hq, hread'.proper hq⟩)

/-! ### Assignments -/

/-- Expressions are released one after the other. -/
theorem releases_eq {s : ParseState} {ids : List ExprId} (h : s.tree.Holds (xs ++ bs))
    (hx : xs.map Branch.root = ids.map .expr) :
    ∃ u, ids.forM release s = .ok ⟨⟩ { s with tree := u } ∧ u.Holds bs := by
  induction xs generalizing s ids with
  | nil =>
    obtain rfl := List.map_eq_nil_iff.1 hx.symm
    exact ⟨s.tree, rfl, h⟩
  | cons b xs ih =>
    obtain ⟨id, ids, rfl, hid, hids⟩ := List.map_eq_cons_iff.1 hx.symm
    have hrest : (s.tree.release (.expr id)).2.Holds (xs ++ bs) := hid ▸ Tree.Holds.release h
    obtain ⟨u, hu, hholds⟩ := ih (s := { s with tree := (s.tree.release (.expr id)).2 }) hrest
      hids.symm
    exact ⟨u, hu, hholds⟩

/-- After a report expressions are given up. -/
theorem firm_giveUp {ids ids' : List ExprId} {β : Type} {f g : Parse β}
    {R : β → β → ParseState → ParseState → Prop} (es' : List Entry) (xs ys : List Branch)
    (hb : P.Base s₁ s₂)
    (h : P.Stands (es' ++ es) Γ os bs cs s₁ s₂) (hpos : 0 < s₁.reports.reports.size)
    (hbs : bs.Perm (xs ++ bs')) (hcs : cs.Perm (ys ++ cs'))
    (hp : Pieces P (P.view s₁ os) Γ es bs' cs') (hxs : xs.map Branch.root = ids.map .expr)
    (hys : ys.map Branch.root = ids'.map .expr)
    (next : ∀ t₁ t₂, P.Base t₁ t₂ → P.Stands es Γ os bs' cs' t₁ t₂ →
      0 < t₁.reports.reports.size → P.link.Firm es f g t₁ t₂ R) :
    P.link.Firm es (do ids.forM release; f) (do ids'.forM release; g) s₁ s₂ R := by
  obtain ⟨t, ht, htree⟩ := releases_eq (h.left.perm hbs) hxs
  obtain ⟨u, hu, hutree⟩ := releases_eq (h.right.perm hcs) hys
  have hst := h.trees htree hutree hp (fun hq => absurd hq (not_quiet hpos))
    (fun hq => absurd hq (not_quiet hpos)) fun hq => absurd hq (not_quiet hpos)
  refine (firm_of_ok (R := fun _ _ t₁ t₂ => { s₁ with tree := t } = t₁ ∧ { s₂ with tree := u } = t₂)
    ht hu ⟨rfl, rfl⟩).bind ?_
  rintro _ _ _ _ ⟨rfl, rfl⟩
  exact next _ _ hb.trees hst hpos

theorem giveUp_raw {a b : Window} (span : Span) (h : P.link.Rel (.raw i j a b :: es) s₁ s₂)
    (hpos : 0 < s₁.reports.reports.size) :
    P.link.Firm es (do release i; errorExpr span) (do release j; errorExpr span) s₁ s₂
      fun i' j' t₁ t₂ => P.link.rel (.raw i' j' w t₁.window :: es) t₁ t₂ := by
  have hone (id : ExprId) :
      (do [id].forM release; errorExpr span) = (do release id; errorExpr span) := by
    simp only [List.forM_eq_forM, List.forM_cons, List.forM_nil, bind_assoc, pure_bind]
  obtain ⟨hb, Γ, os, bs, cs, hst⟩ := h.rel
  obtain ⟨x, y, xs, ys, bs, cs, rfl, rfl, hp, -, -⟩ := raw_on_top hst.pieces
  rw [← hone, ← hone]
  exact firm_giveUp [.raw i j a b] [⟨.expr i, .expr x, xs⟩]
    [⟨.expr j, .expr y, ys⟩] hb hst hpos (.refl _) (.refl _) hp rfl rfl
    fun _ _ hb hst hpos => firm_errorExpr w span hb hst hpos

theorem giveUp_raws {k m : ExprId} {a b a' b' : Window} (span : Span)
    (h : P.link.Rel (.raw k m a' b' :: .raw i j a b :: es) s₁ s₂)
    (hpos : 0 < s₁.reports.reports.size) :
    P.link.Firm es (do release i; release k; errorExpr span)
      (do release j; release m; errorExpr span) s₁ s₂
      fun i' j' t₁ t₂ => P.link.rel (.raw i' j' w t₁.window :: es) t₁ t₂ := by
  have htwo (id id' : ExprId) : (do [id, id'].forM release; errorExpr span) =
      (do release id; release id'; errorExpr span) := by
    simp only [List.forM_eq_forM, List.forM_cons, List.forM_nil, bind_assoc, pure_bind]
  obtain ⟨hb, Γ, os, bs, cs, hst⟩ := h.rel
  obtain ⟨x', y', xs', ys', bs, cs, rfl, rfl, hp, -⟩ := raw_on_top hst.pieces
  obtain ⟨x, y, xs, ys, bs, cs, rfl, rfl, hp, -⟩ := raw_on_top hp
  rw [← htwo, ← htwo]
  exact firm_giveUp [.raw k m a' b', .raw i j a b]
    [⟨.expr i, .expr x, xs⟩, ⟨.expr k, .expr x', xs'⟩]
    [⟨.expr j, .expr y, ys⟩, ⟨.expr m, .expr y', ys'⟩] hb hst hpos (.swap ..) (.swap ..) hp rfl rfl
    fun _ _ hb hst hpos => firm_errorExpr w span hb hst hpos

theorem pair_unaryEnd {op : UnaryOp} {b : Window} (span : Span)
    (h : P.link.Rel (.raw i j w.after b :: es) s₁ s₂) (hw : P.link.Sees w)
    (hop : UnaryOp.ofToken? w.current.kind = some op)
    (htwin : P.first = P.second → s₁ = s₂ ∧ i = j) :
    P.link.Pair es (unaryEnd op span i) (unaryEnd op span j) s₁ s₂ fun i' j' t₁ t₂ =>
      P.link.rel (.raw i' j' w t₁.window :: es) t₁ t₂ := by
  obtain ⟨hb, Γ, os, bs, cs, hst⟩ := h.rel
  obtain ⟨x, y, xs, ys, bs, cs, rfl, rfl, hp, hspan, hread⟩ := raw_on_top hst.pieces
  refine (firm_expr hst.left hst.right).bind_pair ?_
  rintro _ _ _ _ ⟨rfl, rfl, rfl, rfl⟩
  dsimp only
  rw [← hspan]
  have hdone : P.link.Firm es
      (addConstant (.unary op i) (span.merge x.span) (x.isConstant && !op.mutates))
      (addConstant (.unary op j) (span.merge x.span) (y.isConstant && !op.mutates)) s₁ s₂
      fun i' j' t₁ t₂ => P.link.rel (.raw i' j' w t₁.window :: es) t₁ t₂ :=
    firm_node [.raw i j w.after b] [⟨.expr i, .expr x, xs⟩]
      [⟨.expr j, .expr y, ys⟩] w hb hst (by simp) rfl (.refl _) (.refl _) hp trivial rfl trivial
      rfl fun i' j' => read_node i' j' .unary rfl rfl rfl (.cons hread.alike .nil) (.inl rfl)
        fun hq => proper_node j' (by simp [Expr.new]) (by simp [Expr.new])
          (by simpa using hread.proper hq)
  have hrest (id : ExprId) (u : Unit) : Loud 0 (do
      release id
      errorExpr (span.merge x.span)) :=
    (loud_release id).bind fun _ => (steady_errorExpr _).loud
  have hparts (hm : op.mutates = true) (hne : x.canAssign ≠ y.canAssign) : P.link.parts := by
    obtain ⟨es₀, t₁, t₂, ht, rfl⟩ := hw
    refine ⟨fun he => hne ?_, ?_⟩
    · obtain ⟨rfl, rfl⟩ := htwin he
      rw [Except.ok.inj (hst.left.expr.symm.trans hst.right.expr)]
    exact .unary ht.rel.1.window hop hm ((hread.target x y rfl rfl).resolve_left hne)
  cases hm : op.mutates with
  | false => simpa [hm] using Pair.firm hdone
  | true =>
    cases hx : x.canAssign with
    | true =>
      cases hy : y.canAssign with
      | true => simpa [hm] using Pair.firm hdone
      | false =>
        exact parts_second _ _ _ _ (hparts hm (by simp [hx, hy])) h.sound₁ h.sound₂ (hrest j)
          (steady_addConstant ..) (by decide)
    | false =>
      cases hy : y.canAssign with
      | true =>
        exact parts_first _ _ _ _ (hparts hm (by simp [hx, hy])) h.sound₁ h.sound₂ (hrest i)
          (steady_addConstant ..) (by decide)
      | false =>
        refine .firm ((firm_report h (by decide) ..).shed.bind ?_)
        rintro _ _ t₁ t₂ ⟨ht, hpos⟩
        exact giveUp_raw _ ht.rel hpos

theorem pair_assignmentEnd {k m : ExprId} {a b a' b' : Window} {op : AssignOp}
    (h : P.link.Rel (.raw k m a' b' :: .raw i j a b :: es) s₁ s₂)
    (hop : AssignOp.ofToken? b.current.kind = some op)
    (htwin : P.first = P.second → s₁ = s₂ ∧ i = j) :
    P.link.Pair es (assignmentEnd op i k) (assignmentEnd op j m) s₁ s₂ fun i' j' t₁ t₂ =>
      P.link.rel (.raw i' j' a t₁.window :: es) t₁ t₂ := by
  obtain ⟨hb, Γ, os, bs, cs, hst⟩ := h.rel
  obtain ⟨x', y', xs', ys', bs, cs, rfl, rfl, hp, hspan', hread'⟩ := raw_on_top hst.pieces
  obtain ⟨x, y, xs, ys, bs, cs, rfl, rfl, hp, hspan, hread⟩ := raw_on_top hp
  refine (firm_expr hst.left.swap hst.right.swap).bind_pair ?_
  rintro _ _ _ _ ⟨rfl, rfl, rfl, rfl⟩
  refine (firm_expr hst.left hst.right).bind_pair ?_
  rintro _ _ _ _ ⟨rfl, rfl, rfl, rfl⟩
  dsimp only
  rw [← hspan, ← hspan']
  have hdone : P.link.Firm es (addExpr (.assign op i k) (x.span.merge x'.span))
      (addExpr (.assign op j m) (x.span.merge x'.span)) s₁ s₂
      fun i' j' t₁ t₂ => P.link.rel (.raw i' j' a t₁.window :: es) t₁ t₂ :=
    firm_node [.raw k m a' b', .raw i j a b]
      [⟨.expr i, .expr x, xs⟩, ⟨.expr k, .expr x', xs'⟩]
      [⟨.expr j, .expr y, ys⟩, ⟨.expr m, .expr y', ys'⟩] a hb hst (by simp) rfl (.swap ..)
      (.swap ..) hp trivial rfl trivial rfl fun i' j' => read_node i' j' .assign rfl rfl rfl
        (.cons hread.alike (.cons hread'.alike .nil)) (.inl rfl) fun hq =>
        proper_node j' (by simp [Expr.new]) (by simp [Expr.new])
          (by simpa using ⟨hread.proper hq, hread'.proper hq⟩)
  have hrest (target value : ExprId) (u : Unit) : Loud 0 (do
      release target
      release value
      errorExpr (x.span.merge x'.span)) :=
    (loud_release target).bind fun _ => (loud_release value).bind fun _ => (steady_errorExpr _).loud
  have hparts (hne : x.canAssign ≠ y.canAssign) : P.link.parts := by
    refine ⟨fun he => hne ?_, .assign ((hread.target x y rfl rfl).resolve_left hne) hop⟩
    obtain ⟨rfl, rfl⟩ := htwin he
    rw [Except.ok.inj (hst.left.swap.expr.symm.trans hst.right.swap.expr)]
  cases hx : x.canAssign with
  | true =>
    cases hy : y.canAssign with
    | true => exact .firm hdone
    | false =>
      exact parts_second _ _ _ _ (hparts (by simp [hx, hy])) h.sound₁ h.sound₂ (hrest j m)
        (steady_addExpr ..) (by decide)
  | false =>
    cases hy : y.canAssign with
    | true =>
      exact parts_first _ _ _ _ (hparts (by simp [hx, hy])) h.sound₁ h.sound₂ (hrest i k)
        (steady_addExpr ..) (by decide)
    | false =>
      refine .firm ((firm_report h (by decide) ..).shed.shed.bind ?_)
      rintro _ _ t₁ t₂ ⟨ht, hpos⟩
      exact giveUp_raws _ ht.rel hpos

end Pass

end FrontEnd
