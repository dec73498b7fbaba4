import FrontEnd.Proofs.Syntax.Forest

/-! One branch of a forest is changed where it stands; the forest around it stays. -/

namespace FrontEnd

/-- A forest with a hole. -/
inductive Hole
  | top (before after : List Branch)
  /-- The hole is among the parts of a node. -/
  | inside (outer : Hole) (root : NodeId) (node : Node) (before after : List Branch)

namespace Hole

/-- The forest with a branch in the hole. -/
def plug : Hole → Branch → List Branch
  | top before after, b => before ++ b :: after
  | inside outer root node before after, b => outer.plug ⟨root, node, before ++ b :: after⟩

end Hole

namespace Tree

variable {t u v : Tree} {b c : Branch} {bs xs ys : List Branch} {id : NodeId} {n m : Node}
  {hole : Hole} {roots : List NodeId}

/-- Nothing but the nodes at these handles was touched. -/
structure Within (t : Tree) (roots : List NodeId) (u : Tree) : Prop where
  sound : u.Sound
  elsewhere : ∀ j, j ∉ roots → u.node? j = t.node? j
  exprLists : u.exprLists = t.exprLists
  stmtLists : u.stmtLists = t.stmtLists

theorem Within.refl (h : t.Sound) : t.Within roots t := ⟨h, fun _ _ => rfl, rfl, rfl⟩

theorem Within.trans (h : t.Within roots u) (h' : u.Within roots v) : t.Within roots v :=
  ⟨h'.sound, fun j hj => (h'.elsewhere j hj).trans (h.elsewhere j hj),
    h'.exprLists.trans h.exprLists, h'.stmtLists.trans h.stmtLists⟩

theorem Within.mono {roots' : List NodeId} (h : t.Within roots u) (hs : roots ⊆ roots') :
    t.Within roots' u :=
  ⟨h.sound, fun j hj => h.elsewhere j fun hm => hj (hs hm), h.exprLists, h.stmtLists⟩

theorem Places.within {content : Option Node} (h : t.Places id content u) (hid : id ∈ roots) :
    t.Within roots u :=
  ⟨h.sound, fun j hj => h.elsewhere j fun he => hj (he ▸ hid), h.exprLists, h.stmtLists⟩

theorem Within.stores (h : t.Within roots u) (hb : t.Stores b) (hr : b.root ∉ roots) :
    u.Stores b :=
  hb.congr (h.elsewhere _ hr) ⟨#[], by simp [h.exprLists]⟩ ⟨#[], by simp [h.stmtLists]⟩

/-- What was touched nowhere is the same forest. -/
theorem Within.holds (h : t.Within [] u) (hb : t.Holds bs) : u.Holds bs :=
  ⟨h.sound, fun b hmem => h.stores (hb.stores b hmem) (by simp), hb.apart⟩

theorem Holds.plugged (h : t.Holds (hole.plug b)) : t.Holds [b] := by
  induction hole generalizing b with
  | top before after => exact h.right.sublist (by simp)
  | inside outer root node before after ih =>
    exact (ih h).opened.1.sublist (by simp)

theorem roots_append : Branch.roots (xs ++ ys) = Branch.roots xs ++ Branch.roots ys := by
  simp [Branch.roots]

theorem roots_cons : Branch.roots (b :: bs) = Branch.roots [b] ++ Branch.roots bs := by
  simp [Branch.roots]

theorem roots_mk : Branch.roots [⟨id, n, xs⟩] = id :: Branch.roots xs := by
  simp [Branch.roots, Branch.all_mk]

theorem roots_mk_cons : Branch.roots (⟨id, n, xs⟩ :: bs) = id :: Branch.roots (xs ++ bs) := by
  simp [Branch.roots, Branch.all_mk]

theorem root_mem_roots (h : b ∈ Branch.allIn bs) : b.root ∈ Branch.roots bs :=
  List.mem_map_of_mem h

/-- A branch gives way to another with the same root, which has no handles of others. -/
theorem Holds.replaced (h : t.Holds (xs ++ b :: ys)) (hw : t.Within (Branch.roots [b]) u)
    (hc : u.Holds [c]) (hr : (Branch.roots [c]).Sublist (Branch.roots [b])) :
    u.Holds (xs ++ c :: ys) := by
  have hnd := h.apart
  rw [roots_append, roots_cons] at hnd
  have hkept {x : Branch} (hx : x ∈ Branch.allIn xs ∨ x ∈ Branch.allIn ys) : u.Stores x := by
    have hmem : x ∈ Branch.allIn (xs ++ b :: ys) := by
      rcases hx with hx | hx <;> simp [hx]
    refine hw.stores (h.stores x hmem) fun hroot => ?_
    rcases hx with hx | hx
    · exact (List.nodup_append.1 hnd).2.2 _ (root_mem_roots hx) _
        (List.mem_append_left _ hroot) rfl
    · exact (List.nodup_append.1 (List.nodup_append.1 hnd).2.1).2.2 _ hroot _
        (root_mem_roots hx) rfl
  refine ⟨hw.sound, fun x hx => ?_, ?_⟩
  · rw [Branch.allIn_append, Branch.allIn_cons, List.mem_append, List.mem_append] at hx
    rcases hx with hx | hx | hx
    · exact hkept (.inl hx)
    · exact hc.stores x (by simpa using hx)
    · exact hkept (.inr hx)
  · rw [roots_append, roots_cons]
    exact hnd.sublist ((List.Sublist.refl _).append (hr.append_right _))

/-- The same with the branch anywhere inside a forest. -/
theorem Holds.replug (h : t.Holds (hole.plug b)) (hw : t.Within (Branch.roots [b]) u)
    (hc : u.Holds [c]) (hroot : c.root = b.root)
    (hr : (Branch.roots [c]).Sublist (Branch.roots [b])) : u.Holds (hole.plug c) := by
  induction hole generalizing b c with
  | top before after => exact h.replaced hw hc hr
  | inside outer root node before after ih =>
    have houter : t.Holds (outer.plug ⟨root, node, before ++ b :: after⟩) := h
    have hnode := houter.plugged
    have hparts := hnode.opened
    rw [List.append_nil] at hparts
    have hsub : (Branch.roots (before ++ c :: after)).Sublist
        (Branch.roots (before ++ b :: after)) := by
      rw [roots_append, roots_cons, roots_append, roots_cons (b := b)]
      exact (List.Sublist.refl _).append (hr.append_right _)
    have hin : Branch.roots [b] ⊆ Branch.roots (before ++ b :: after) := by
      rw [roots_append, show Branch.roots (b :: after) = _ from roots_cons]
      exact List.Subset.trans (List.subset_append_left _ _) (List.subset_append_right _ _)
    have hnew := hparts.1.replaced hw hc hr
    refine ih h (hw.mono fun j hj => ?_) ⟨hw.sound, fun x hx => ?_, ?_⟩ rfl ?_
    · rw [roots_mk]
      exact List.mem_cons_of_mem _ (hin hj)
    · rw [Branch.allIn_cons, Branch.all_mk, Branch.allIn_nil, List.append_nil, List.mem_cons] at hx
      rcases hx with rfl | hx
      · have hs := hw.stores hnode.root fun hm => hparts.2 (hin hm)
        refine ⟨hs.node, hs.covers, hs.children.trans ?_⟩
        simp [hroot]
      · exact hnew.stores x hx
    · rw [roots_mk, List.nodup_cons]
      exact ⟨fun hm => hparts.2 (hsub.subset hm), hnew.apart⟩
    · rw [roots_mk, roots_mk]
      exact hsub.cons_cons _

/-- These nodes were freed, and nothing else was touched. -/
structure Frees (t : Tree) (ids : List NodeId) (u : Tree) : Prop extends t.Within ids u where
  freed : ∀ id ∈ ids, u.node? id = none

theorem Frees.refl (h : t.Sound) : t.Frees [] t := ⟨.refl h, by simp⟩

theorem Places.frees (h : t.Places id none u) : t.Frees [id] u :=
  ⟨h.within (by simp), by simp [h.here]⟩

theorem Frees.trans {ids ids' : List NodeId} (h : t.Frees ids u) (h' : u.Frees ids' v) :
    t.Frees (ids ++ ids') v := by
  refine ⟨(h.toWithin.mono (by simp)).trans (h'.toWithin.mono (by simp)), fun id hid => ?_⟩
  by_cases hid' : id ∈ ids'
  · exact h'.freed id hid'
  · exact (h'.elsewhere id hid').trans
      (h.freed id ((List.mem_append.1 hid).resolve_right hid'))

theorem Frees.perm {ids ids' : List NodeId} (h : t.Frees ids u) (hp : ids.Perm ids') :
    t.Frees ids' u :=
  ⟨h.toWithin.mono hp.subset, fun id hid => h.freed id (hp.mem_iff.2 hid)⟩

theorem roots_reverse_append :
    (Branch.roots (xs.reverse ++ ys)).Perm (Branch.roots (xs ++ ys)) := by
  rw [roots_append, roots_append]
  exact ((Branch.allIn_perm (List.reverse_perm xs)).map _).append_right _

/-- Releasing branches frees their nodes. -/
theorem Holds.frees_releaseAll (h : t.Holds (xs ++ bs)) (k : Nat) :
    t.Frees (Branch.roots xs) (t.releaseAll k (xs.map Branch.root)).2 := by
  refine h.releaseAll_induct (P := fun t xs u => t.Frees (Branch.roots xs) u)
    (fun t h => .refl h.sound) (fun t u v id n parts xs _ _ _ hp _ ih => ?_) k
  rw [roots_mk_cons]
  exact (hp.frees.trans ih).perm (roots_reverse_append.cons id)

/-- An expression takes the place of a branch: it is written over the root, and what was below is
released. -/
theorem Holds.replaceExpr_eq {id : ExprId} {old : Expr}
    (h : t.Holds [⟨.expr id, .expr old, xs⟩]) (e : Expr) (hc : t.Covers (.expr e))
    (hch : t.children (.expr e) = []) :
    ∃ v, t.setExpr id e = .ok v ∧ t.Places (.expr id) (some (.expr e)) v ∧
      v.Holds (xs.reverse ++ [⟨.expr id, .expr e, []⟩]) ∧
      t.replaceExpr id e = .ok (v.releaseAll 0 (xs.reverse.map Branch.root)) := by
  obtain ⟨v, hv, hp⟩ := h.places e
  have hrest : v.Holds (⟨.expr id, .expr e, []⟩ :: (xs ++ [])) :=
    h.rewritten (.refl _) hp hc (by simpa using hch)
  have hold : v.exprChildren old.kind = xs.reverse.map Branch.root := by
    have := (hp.same_lists (.expr old)).2.trans h.root.children
    simpa [children, List.map_reverse] using congrArg List.reverse this
  refine ⟨v, hv, hp, ?_, ?_⟩
  · rw [List.append_nil] at hrest
    exact hrest.perm ((List.perm_append_singleton _ _).symm.trans
      ((List.reverse_perm xs).symm.append_right _))
  · simp only [Tree.replaceExpr, h.expr, hv, hold, Bind.bind, Except.bind, Pure.pure, Except.pure]

/-- What replacing a branch by one node leaves. -/
theorem Holds.replaceExpr {id : ExprId} {old : Expr} (h : t.Holds [⟨.expr id, .expr old, xs⟩])
    (e : Expr) (hc : t.Covers (.expr e)) (hch : t.children (.expr e) = []) :
    ∃ k u, t.replaceExpr id e = .ok (k, u) ∧ u.Holds [⟨.expr id, .expr e, []⟩] ∧
      t.Within (Branch.roots [⟨.expr id, .expr old, xs⟩]) u ∧
      ∀ x ∈ Branch.allIn xs, u.node? x.root = none := by
  obtain ⟨v, -, hp, hlast, hrun⟩ := h.replaceExpr_eq e hc hch
  have hfrees := (hlast.frees_releaseAll 0).perm
    ((Branch.allIn_perm (List.reverse_perm xs)).map Branch.root)
  refine ⟨_, _, hrun, hlast.releaseAll 0, ?_, fun x hx => hfrees.freed _ (root_mem_roots hx)⟩
  rw [roots_mk]
  exact (hp.within (by simp)).trans (hfrees.toWithin.mono (List.subset_cons_self _ _))

/-- A branch inside a forest is replaced by one node. -/
theorem Holds.replace_plugged {id : ExprId} {old : Expr}
    (h : t.Holds (hole.plug ⟨.expr id, .expr old, xs⟩)) (e : Expr) (hc : t.Covers (.expr e))
    (hch : t.children (.expr e) = []) :
    ∃ k u, t.replaceExpr id e = .ok (k, u) ∧ u.Holds (hole.plug ⟨.expr id, .expr e, []⟩) := by
  obtain ⟨k, u, hrun, hu, hwithin, -⟩ := h.plugged.replaceExpr e hc hch
  refine ⟨k, u, hrun, h.replug hwithin hu rfl ?_⟩
  rw [roots_mk, roots_mk]
  exact List.Sublist.cons_cons _ (List.nil_sublist _)

/-- A node is overwritten by one that keeps the children. -/
theorem Holds.overwrite (h : t.Holds (hole.plug ⟨id, n, xs⟩)) (hp : t.Places id (some m) u)
    (hc : t.Covers m) (hch : t.children m = xs.map Branch.root) :
    u.Holds (hole.plug ⟨id, m, xs⟩) :=
  h.replug (hp.within (by simp [roots_mk])) (h.plugged.rewritten (.refl _) hp hc hch) rfl
    (by simp only [roots_mk, List.Sublist.refl])

end Tree

end FrontEnd
