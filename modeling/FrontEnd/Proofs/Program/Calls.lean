import FrontEnd.Proofs.Program.Expressions

/-! Steps of two runs that look into an expression: members and calls. -/

namespace FrontEnd

namespace Pass

open Parse Link

variable {P : Pass} {s₁ s₂ : ParseState} {es es' : List Entry} {Γ : Sight} {os : List Overload}
  {bs cs xs ys : List Branch} {i j : ExprId} {x y : Expr} {a b : Window} {is js : List ExprId}

theorem firm_object (h : P.link.Rel (.raw i j a b :: es) s₁ s₂) :
    P.link.Firm es (Parse.expr i) (Parse.expr j) s₁ s₂ fun x y t₁ t₂ =>
      s₁ = t₁ ∧ s₂ = t₂ ∧ P.link.rel (.object i j x y a b :: es) t₁ t₂ := by
  obtain ⟨hb, Γ, os, bs, cs, hst⟩ := h.rel
  obtain ⟨x, y, xs, ys, bs, cs, rfl, rfl, hp, -, hread⟩ := raw_on_top hst.pieces
  refine (firm_expr hst.left hst.right).imp ?_
  rintro _ _ _ _ ⟨rfl, rfl, rfl, rfl⟩
  refine ⟨rfl, rfl, hb, Γ, os, _, _, hst.left, hst.right, hp.cons (.object hread), hst.sight,
    hst.known, fun hq o ho => ?_, hst.counts, hst.returns⟩
  obtain ⟨hsigned, hacc⟩ := hst.accounted hq o ho
  exact ⟨hsigned, hacc.imp_left fun hmem => by simpa using hmem⟩

/-- What is known of an expression that was looked at. -/
theorem object_on_top (h : Pieces P (P.view s₁ os) Γ (.object i j x y a b :: es) bs cs) :
    ∃ xs ys bs' cs', bs = ⟨.expr i, .expr x, xs⟩ :: bs' ∧ cs = ⟨.expr j, .expr y, ys⟩ :: cs' ∧
      Pieces P (P.view s₁ os) Γ es bs' cs' ∧ x.kind.Matches y.kind ∧ x.span = y.span ∧
      P.Read (P.view s₁ os) Γ i j a b ⟨.expr i, .expr x, xs⟩ ⟨.expr j, .expr y, ys⟩ := by
  cases h with
  | cons hp hx =>
    cases hx with
    | object hread =>
      obtain ⟨hk, -, hs⟩ := hread.alike.nodes
      exact ⟨_, _, _, _, rfl, rfl, hp, hk, hs, hread⟩

theorem span_of_object (h : P.link.rel (.object i j x y a b :: es) s₁ s₂) : x.span = y.span := by
  obtain ⟨-, Γ, os, bs, cs, hst⟩ := h
  obtain ⟨xs, ys, bs, cs, -, -, -, -, hspan, -⟩ := object_on_top hst.pieces
  exact hspan

theorem firm_member (h : P.link.Rel (.object i j x y a b :: es) s₁ s₂)
    (hdot : b.current.kind = .dot) (hw : s₁.window = b.after) :
    P.link.Firm es (member i x) (member j y) s₁ s₂ fun i' j' t₁ t₂ =>
      P.link.rel (.raw i' j' a t₁.window :: es) t₁ t₂ := by
  refine (firm_expectName h).shed.bind ?_
  rintro ⟨field, span⟩ _ t₁ t₂ ⟨rfl, ht, hident, -⟩
  obtain ⟨hb, Γ, os, bs, cs, hst⟩ := ht.rel.rel
  obtain ⟨xs, ys, bs, cs, rfl, rfl, hp, -, hspan, hread⟩ := object_on_top hst.pieces
  dsimp only
  rw [← hspan]
  refine firm_node [.object i j x y a b] [⟨.expr i, .expr x, xs⟩] [⟨.expr j, .expr y, ys⟩] a hb hst
    (by simp) rfl (.refl _) (.refl _) hp trivial rfl trivial rfl fun i' j' =>
    read_node i' j' .member rfl rfl rfl (.cons hread.alike .nil) ?_ fun hq =>
      proper_node j' (by simp [Expr.new]) (by simp [Expr.new]) (by simpa using hread.proper hq)
  refine (hread.target x y rfl rfl).imp_right fun hpath => ?_
  rw [ht.window, hw]
  exact .member hpath hdot (hw ▸ hident)

/-! ### Calls -/

/-- What is known of the arguments of a call and the expression before them. -/
theorem args_on_top (hes : Entry.Raws es' is js)
    (h : Pieces P (P.view s₁ os) Γ (es' ++ .object i j x y a b :: es) bs cs) :
    ∃ vs ws xs ys bs' cs', bs = vs.reverse ++ ⟨.expr i, .expr x, xs⟩ :: bs' ∧
      cs = ws.reverse ++ ⟨.expr j, .expr y, ys⟩ :: cs' ∧ Pieces P (P.view s₁ os) Γ es bs' cs' ∧
      x.kind.Matches y.kind ∧ x.span = y.span ∧ vs.map Branch.root = is.map .expr ∧
      ws.map Branch.root = js.map .expr ∧
      List.Forall₂ (Branch.Alike (P.Body (P.view s₁ os) Γ)) vs ws ∧
      (P.Quiet s₁ → ∀ c ∈ ws, c.Proper Γ) := by
  obtain ⟨vs, ws, bs, cs, rfl, rfl, hp, hvs, hws, hall, hproper⟩ := h.raws hes
  obtain ⟨xs, ys, bs, cs, rfl, rfl, hp, hk, hspan, -⟩ := object_on_top hp
  exact ⟨vs, ws, xs, ys, bs, cs, rfl, rfl, hp, hk, hspan, hvs, hws, hall, hproper⟩

theorem raws_not_function (hes : Entry.Raws es' is js) (mangled : Name) (type : TypeId) :
    Entry.function mangled type ∉ es' := by
  induction hes with
  | nil => simp
  | snoc _ ih => simpa using ih

/-- The node of a name becomes that of a call, and takes the arguments. -/
theorem call_tree {t : Tree} {callee : Name} {bs : List Branch} (hx : x.kind = .var callee)
    (h : t.Holds (xs.reverse ++ ⟨.expr i, .expr x, ys⟩ :: bs))
    (hxs : xs.map Branch.root = is.map .expr) (span : Span) :
    ys = [] ∧ ∃ u, (t.addExprList is).2.setExpr i
        (Expr.new (.call callee (t.addExprList is).1 none) span) = .ok u ∧
      u.Holds
        (⟨.expr i, .expr (Expr.new (.call callee (t.addExprList is).1 none) span), xs⟩ :: bs) ∧
      (t.Comprises (Branch.roots (xs.reverse ++ ⟨.expr i, .expr x, ys⟩ :: bs)) →
        u.Comprises (Branch.roots
          (⟨.expr i, .expr (Expr.new (.call callee (t.addExprList is).1 none) span), xs⟩ ::
            bs))) := by
  have hlist := (h.addExprList is).perm List.perm_middle
  obtain rfl : ys = [] := by
    simpa [Tree.children, Tree.exprChildren, hx] using hlist.root.children.symm
  obtain ⟨u, hset, hp⟩ := hlist.places (Expr.new (.call callee (t.addExprList is).1 none) span)
  have hrest : ([] ++ (xs.reverse ++ bs)).Perm (xs ++ bs) :=
    (List.reverse_perm xs).append_right bs
  refine ⟨rfl, u, hset, hlist.rewritten hrest hp ?_ ?_, fun hcount => ?_⟩
  · show t.exprLists.size + is.length ≤ (t.exprLists ++ is).size
    rw [← Array.length_toList, ← Array.length_toList, Array.toList_appendList, List.length_append]
  · simp [Tree.children, Expr.new, Tree.exprChildren, Tree.exprList_addExprList, hxs]
  · have hsame : (t.addExprList is).2.Comprises
        (Branch.roots (xs.reverse ++ ⟨.expr i, .expr x, []⟩ :: bs)) := hcount.congr rfl rfl
    refine (hsame.setExpr hset).perm ?_
    have hmiddle : (xs.reverse ++ ⟨.expr i, .expr x, []⟩ :: bs).Perm
        (⟨.expr i, .expr x, []⟩ :: (xs.reverse ++ bs)) := List.perm_middle
    refine ((Branch.allIn_perm hmiddle).map Branch.root).trans ?_
    rw [← Branch.roots, Tree.roots_mk_cons, Tree.roots_mk_cons, List.nil_append]
    exact .cons _ ((Branch.allIn_perm ((List.reverse_perm xs).append_right bs)).map _)

theorem callEnd_eq {s : ParseState} {t : Tree} {callee : Name} {span : Span}
    (hx : x.kind = .var callee) (ht : (s.tree.addExprList is).2.setExpr i
      (Expr.new (.call callee (s.tree.addExprList is).1 none) span) = .ok t) :
    callEnd i x is span s = .ok i { s with tree := t } := by
  rw [callEnd_of_var hx]
  exact makeCall_eq ht

theorem firm_callEnd (span : Span) (h : P.link.Rel (es' ++ .object i j x y a b :: es) s₁ s₂)
    (hes : Entry.Raws es' is js) :
    P.link.Firm es (callEnd i x is span) (callEnd j y js span) s₁ s₂ fun i' j' t₁ t₂ =>
      P.link.rel (.raw i' j' a t₁.window :: es) t₁ t₂ := by
  obtain ⟨hb, Γ, os, bs, cs, hst⟩ := h.rel
  obtain ⟨vs, ws, xs, ys, bs, cs, rfl, rfl, hp, hk, hspan, hvs, hws, hall, hproper⟩ :=
    args_on_top hes hst.pieces
  by_cases hvar : ∃ callee, x.kind = .var callee
  · obtain ⟨callee, hx⟩ := hvar
    have hy : y.kind = .var callee := hk.var_iff.1 hx
    obtain ⟨rfl, t, ht, htree, hcounts⟩ := call_tree hx hst.left hvs span
    obtain ⟨rfl, u, hu, hutree, -⟩ := call_tree hy hst.right hws span
    have hread : P.Read (P.view s₁ os) Γ i j a s₁.window
        ⟨.expr i, .expr (Expr.new (.call callee (s₁.tree.addExprList is).1 none) span), vs⟩
        ⟨.expr j, .expr (Expr.new (.call callee (s₂.tree.addExprList js).1 none) span), ws⟩ :=
      read_node i j .call rfl rfl rfl hall (.inl rfl) fun hq =>
        proper_node j (by simp [Expr.new]) (by simp [Expr.new]) (hproper hq)
    refine .ok (callEnd_eq hx ht) (callEnd_eq hy hu) ⟨hb.trees, Γ, os, _, _, hst.trees htree hutree
      (hp.cons (.raw hread)) (fun _ o ho => ?_) (fun hq => hcounts (hst.counts hq)) fun _ => by
        rw [returns_append, returns_raws hes]
        rfl⟩
    have hacc : Accounted ((es' ++ [.object i j x y a b]) ++ es)
        (ws.reverse ++ ⟨.expr j, .expr y, []⟩ :: cs) o := by rwa [List.append_assoc]
    refine hacc.raise (by simp [raws_not_function hes]) ?_ _ j
    rw [Branch.stmts_append, Branch.stmts_cons, Branch.stmts_expr, Branch.stmts_nil,
      List.nil_append, ← Branch.stmts_append]
    exact (Branch.stmts_perm ((List.reverse_perm ws).append_right cs)).subset
  · have hx (callee : Name) : x.kind ≠ .var callee := fun he => hvar ⟨callee, he⟩
    have hy (callee : Name) : y.kind ≠ .var callee := fun he => hx callee (hk.var_iff.2 he)
    rw [callEnd_of_other hx, callEnd_of_other hy, hspan]
    refine (firm_report h (by decide) ..).sheds.shed.bind ?_
    rintro _ _ t₁ t₂ ⟨ht, hpos⟩
    obtain ⟨hb, Γ, os, bs, cs, hst⟩ := ht.rel.rel
    obtain ⟨vs, ws, xs, ys, bs, cs, rfl, rfl, hp, -, -, hvs, hws, -⟩ :=
      args_on_top hes hst.pieces
    have hperm (v : Branch) (vs bs : List Branch) :
        (vs.reverse ++ v :: bs).Perm ((v :: vs) ++ bs) :=
      List.perm_middle.trans (.cons _ ((List.reverse_perm vs).append_right bs))
    refine firm_giveUp (es' ++ [.object i j x y a b]) (⟨.expr i, .expr x, xs⟩ :: vs)
      (⟨.expr j, .expr y, ys⟩ :: ws) hb (by rwa [List.append_assoc]) hpos (hperm _ _ _)
      (hperm _ _ _) hp (by simp [hvs]) (by simp [hws]) fun _ _ hb hst hpos =>
      firm_errorExpr a span hb hst hpos

end Pass

end FrontEnd
