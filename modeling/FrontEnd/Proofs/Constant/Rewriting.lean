import FrontEnd.Proofs.Constant.LoweredCode
import FrontEnd.Constant.Folder
import FrontEnd.Proofs.Syntax.NodeCount

/-!
What folding may do to the storage of a tree. Some constants give way to their values where they
stand, what was below them is freed, and no other node is touched; and no constant is passed over
but those that folding does not reach.
-/

namespace FrontEnd

/-- How many of the first parts of an expression folding passes over: the body of a lambda, and the
target of an assignment. -/
def ExprKind.spared : ExprKind → Nat
  | .lambda .. | .assign .. => 1
  | _ => 0

namespace Branch

variable {isBound : Name → Bool} {skips : ExprKind → Nat} {b c x : Branch} {root : NodeId}
  {e : Expr} {parts : List Branch}

/-- The second branch is reached from the first one, where some first parts are passed over. -/
inductive Reached (skips : ExprKind → Nat) : Branch → Branch → Prop
  | here {b : Branch} : Reached skips b b
  | part {root : NodeId} {e : Expr} {parts : List Branch} {p x : Branch} :
    p ∈ parts.drop (skips e.kind) → Reached skips p x →
    Reached skips ⟨root, .expr e, parts⟩ x

theorem Reached.mem_all (h : b.Reached skips x) : x ∈ b.all := by
  induction h with
  | here => exact mem_all_self _
  | part hp _ ih =>
    rw [all_mk]
    exact List.mem_cons_of_mem _ (mem_allIn.2 ⟨_, List.mem_of_mem_drop hp, ih⟩)

/-- A constant is made of expressions, and folding passes over none of them. -/
theorem spared_constant (hc : b.isConstant isBound = true) (hx : x ∈ b.all) :
    ∃ e, x.node = .expr e ∧ e.kind.spared = 0 := by
  induction b, hc using constant_induct with
  | literal root e v hc hk | name root e n hc hk =>
    obtain rfl : x = ⟨root, .expr e, []⟩ := by simpa [all_mk] using hx
    exact ⟨e, rfl, by rw [hk]; rfl⟩
  | group root e i p hc hp hk ih | unary root e op i p hc hp hk hm ih =>
    rw [all_mk] at hx
    rcases List.mem_cons.1 hx with rfl | hx
    · exact ⟨e, rfl, by rw [hk]; rfl⟩
    · exact ih (by simpa using hx)
  | binary root e op i j l r hc hl hr hk ihl ihr =>
    rw [all_mk] at hx
    rcases List.mem_cons.1 hx with rfl | hx
    · exact ⟨e, rfl, by rw [hk]; rfl⟩
    · rcases (by simpa using hx : x ∈ l.all ∨ x ∈ r.all) with hx | hx
      · exact ihl hx
      · exact ihr hx

end Branch

namespace Tree

variable {t : Tree} {b : Branch} {id : ExprId} {e : Expr} {parts : List Branch}
  {isBound : Name → Bool}

/-- All that is below the root of a constant are expressions. -/
theorem Holds.exprCount_constant (h : t.Holds [⟨.expr id, .expr e, parts⟩])
    (hc : Branch.isConstant isBound ⟨.expr id, .expr e, parts⟩ = true) :
    Branch.exprCount parts = (Branch.allIn parts).length := by
  refine List.countP_eq_length.2 fun x hx => ?_
  have hin : x ∈ Branch.all ⟨.expr id, .expr e, parts⟩ := by
    rw [Branch.all_mk]
    exact List.mem_cons_of_mem _ hx
  obtain ⟨y, hy, -⟩ := Branch.spared_constant hc hin
  have hnode := (h.stores x (by simpa using hin)).node
  cases hroot : x.root with
  | expr i => rfl
  | stmt i =>
    rw [hroot, hy] at hnode
    obtain ⟨s, -, hs⟩ := Option.map_eq_some_iff.1 hnode
    cases hs

end Tree

namespace Folder

variable {f : Folder} {depth : Nat} {t u v : Tree} {b p : Branch} {bs ps parts xs ys : List Branch}
  {i : ExprId} {e : Expr} {value : Value}

/-- An expression evaluates if it is a constant that fits into the tables, and has a value. -/
theorem evaluate_eq_ok_iff (h : t.Holds [b]) (hb : b.root = .expr i) :
    f.evaluate depth t i = .ok value ↔
      b.isConstant (Lowering.bound (f.binding · depth)) = true ∧
      b.literals.length ≤ tableLimit ∧ b.names.dedup.length ≤ tableLimit ∧
      b.value (f.binding · depth) = .ok value := by
  have hmeets := Lowering.lowers_expr h hb (f.binding · depth)
  have hlower : f.lower depth t i =
    Lowering.expr t (Lowering.bound (f.binding · depth)) i .empty := rfl
  unfold evaluate
  rw [hlower]
  cases hrun : Lowering.expr t (Lowering.bound (f.binding · depth)) i .empty with
  | ok _ chunk =>
    have hlow := hmeets.of_ok hrun
    obtain ⟨hl, hn, hvalue⟩ := hlow.of_empty
    dsimp only
    rw [hvalue]
    cases hv : b.value (f.binding · depth) <;> simp [hlow.constant, hl, hn, Halt.liftCause]
  | error err chunk =>
    refine ⟨fun he => (by cases he), fun ⟨hc, hl, hn, _⟩ => ?_⟩
    cases hmeets.of_error hrun with
    | notConstant hnot => simp [hc] at hnot
    | crowded hcrowd => rcases hcrowd.of_empty with hcrowd | hcrowd <;> omega

/-- Evaluation sees nothing but the branch. -/
theorem evaluate_congr (h : t.Holds [b]) (h' : u.Holds [b]) (hb : b.root = .expr i) :
    f.evaluate depth t i = .ok value ↔ f.evaluate depth u i = .ok value := by
  rw [evaluate_eq_ok_iff h hb, evaluate_eq_ok_iff h' hb]

/-- An expression that folding replaces when it comes to it. -/
structure Yields (f : Folder) (depth : Nat) (t : Tree) (b : Branch) (i : ExprId) (e : Expr)
    (value : Value) : Prop where
  root : b.root = .expr i
  node : b.node = .expr e
  constant : e.isConstant = true
  new : e.literal? = none
  value : f.evaluate depth t i = .ok value

theorem Yields.congr (h : f.Yields depth t b i e value) (ht : t.Holds [b]) (hu : u.Holds [b]) :
    f.Yields depth u b i e value :=
  { h with value := (evaluate_congr ht hu h.root).1 h.value }

/-- From `t` to `u`, these branches of a forest gave way to their values, and nothing else
happened. -/
structure Rewrites (f : Folder) (depth : Nat) (t : Tree) (bs : List Branch) (u : Tree)
    (replaced : List Branch) : Prop extends t.Within (Branch.roots replaced) u where
  /-- They are branches of the forest, and none stands inside another one. -/
  inside : (Branch.allIn replaced).Sublist (Branch.allIn bs)
  reached : ∀ x ∈ replaced, ∃ b ∈ bs, b.Reached ExprKind.spared x
  value : ∀ x ∈ replaced, ∃ i e v, f.Yields depth t x i e v ∧
    u.node? x.root = some (.expr (Expr.ofValue v e.span))
  released : ∀ x ∈ replaced, ∀ y ∈ Branch.allIn x.parts, u.node? y.root = none
  spared : ∀ x ∈ Branch.allIn bs, ∀ e, x.node = .expr e →
    ∀ y ∈ Branch.allIn (x.parts.take e.kind.spared), y.root ∉ Branch.roots replaced
  complete : ∀ b ∈ bs, ∀ x, b.Reached ExprKind.spared x → ∀ i e v, f.Yields depth t x i e v →
    x.root ∈ Branch.roots replaced
  count : t.Loses (replaced.flatMap fun x => Branch.allIn x.parts).length u

namespace Rewrites

theorem nil (h : t.Sound) : f.Rewrites depth t [] t [] where
  toWithin := .refl h
  inside := .refl _
  reached := by simp
  value := by simp
  released := by simp
  spared := by simp
  complete := by simp
  count := .refl t

theorem roots_subset (h : f.Rewrites depth t bs u xs) : Branch.roots xs ⊆ Branch.roots bs :=
  (h.inside.map _).subset

/-- One branch, and then those behind it. -/
theorem cons (hp : f.Rewrites depth t [p] u xs) (hps : f.Rewrites depth u ps v ys)
    (ht : t.Holds (p :: ps)) (hu : u.Holds ps) : f.Rewrites depth t (p :: ps) v (xs ++ ys) := by
  have hapart : (Branch.roots [p] ++ Branch.roots ps).Nodup := Tree.roots_cons ▸ ht.apart
  have hfirst {id : NodeId} (hid : id ∈ Branch.roots [p]) : id ∉ Branch.roots ys := fun hy =>
    (List.nodup_append.1 hapart).2.2 id hid id (hps.roots_subset hy) rfl
  have hsecond {id : NodeId} (hid : id ∈ Branch.roots ps) : id ∉ Branch.roots xs := fun hx =>
    (List.nodup_append.1 hapart).2.2 id (hp.roots_subset hx) id hid rfl
  have hheld {x : Branch} (hx : x ∈ Branch.allIn ps) : t.Holds [x] ∧ u.Holds [x] :=
    ⟨ht.tail.inner hx, hu.inner hx⟩
  -- What became of the first branch is not touched any more.
  have hkept {id : NodeId} (hid : id ∈ Branch.roots xs) : v.node? id = u.node? id :=
    hps.elsewhere id (hfirst (hp.roots_subset hid))
  refine ⟨?_, ?_, ?_, ?_, ?_, ?_, ?_, ?_⟩
  · rw [Tree.roots_append]
    exact (hp.toWithin.mono (by simp)).trans (hps.toWithin.mono (by simp))
  · rw [Branch.allIn_append, Branch.allIn_cons]
    have hp := hp.inside
    rw [Branch.allIn_cons, Branch.allIn_nil, List.append_nil] at hp
    exact hp.append hps.inside
  · intro x hx
    rcases List.mem_append.1 hx with hx | hx
    · obtain ⟨b, hb, hr⟩ := hp.reached x hx
      exact ⟨b, by simp_all, hr⟩
    · obtain ⟨b, hb, hr⟩ := hps.reached x hx
      exact ⟨b, by simp [hb], hr⟩
  · intro x hx
    rcases List.mem_append.1 hx with hx | hx
    · obtain ⟨i, e, value, hy, hn⟩ := hp.value x hx
      have hroot : x.root ∈ Branch.roots xs :=
        Tree.root_mem_roots (Branch.mem_allIn.2 ⟨x, hx, x.mem_all_self⟩)
      exact ⟨i, e, value, hy, (hkept hroot).trans hn⟩
    · obtain ⟨i, e, value, hy, hn⟩ := hps.value x hx
      have hin := hps.inside.subset (Branch.mem_allIn.2 ⟨x, hx, x.mem_all_self⟩)
      exact ⟨i, e, value, hy.congr (hheld hin).2 (hheld hin).1, hn⟩
  · intro x hx y hy
    rcases List.mem_append.1 hx with hx | hx
    · have hroot : y.root ∈ Branch.roots xs := Tree.root_mem_roots <| Branch.mem_allIn.2
        ⟨x, hx, by rw [Branch.all_eq]; exact List.mem_cons_of_mem _ hy⟩
      exact (hkept hroot).trans (hp.released x hx y hy)
    · exact hps.released x hx y hy
  · intro x hx e he y hy
    have hsub : y ∈ x.all := by
      rw [Branch.all_eq]
      exact List.mem_cons_of_mem _ ((Branch.allIn_sublist (List.take_sublist _ _)).subset hy)
    rw [Tree.roots_append, List.mem_append, not_or]
    rw [Branch.allIn_cons, List.mem_append] at hx
    rcases hx with hx | hx
    · have hin : x ∈ Branch.allIn [p] := by simpa using hx
      exact ⟨hp.spared x hin e he y hy,
        hfirst (Tree.root_mem_roots (by simpa using Branch.all_trans hx hsub))⟩
    · obtain ⟨q, hq, hxq⟩ := Branch.mem_allIn.1 hx
      exact ⟨hsecond (Tree.root_mem_roots (Branch.mem_allIn.2 ⟨q, hq, Branch.all_trans hxq hsub⟩)),
        hps.spared x hx e he y hy⟩
  · intro b hb x hr i e value hy
    rw [Tree.roots_append, List.mem_append]
    rcases List.mem_cons.1 hb with rfl | hb
    · exact .inl (hp.complete b (by simp) x hr i e value hy)
    · have hin : x ∈ Branch.allIn ps := Branch.mem_allIn.2 ⟨b, hb, hr.mem_all⟩
      exact .inr (hps.complete b hb x hr i e value (hy.congr (hheld hin).1 (hheld hin).2))
  · rw [List.flatMap_append, List.length_append]
    exact hp.count.trans hps.count

/-- A node that stays, after its parts. -/
theorem node (h : f.Rewrites depth t (parts.drop e.kind.spared) u xs)
    (ht : t.Holds [⟨.expr i, .expr e, parts⟩])
    (hstays : ∀ v, ¬f.Yields depth t ⟨.expr i, .expr e, parts⟩ i e v) :
    f.Rewrites depth t [⟨.expr i, .expr e, parts⟩] u xs := by
  have hall : Branch.allIn [⟨.expr i, .expr e, parts⟩] =
      ⟨.expr i, .expr e, parts⟩ :: Branch.allIn parts := by
    simp [Branch.all_mk]
  have hparts := (ht.opened.1).left
  have hapart : (Branch.roots (parts.take e.kind.spared) ++
      Branch.roots (parts.drop e.kind.spared)).Nodup := by
    rw [← Tree.roots_append, List.take_append_drop]
    exact hparts.apart
  have hfirst {id : NodeId} (hid : id ∈ Branch.roots (parts.take e.kind.spared)) :
      id ∉ Branch.roots xs := fun hx =>
    (List.nodup_append.1 hapart).2.2 id hid id (h.roots_subset hx) rfl
  refine ⟨h.toWithin, ?_, ?_, h.value, h.released, ?_, ?_, h.count⟩
  · rw [hall]
    exact (h.inside.trans (Branch.allIn_sublist (List.drop_sublist _ _))).cons _
  · intro x hx
    obtain ⟨p, hp, hr⟩ := h.reached x hx
    exact ⟨_, List.mem_singleton_self _, .part hp hr⟩
  · intro x hx e' he y hy
    rw [hall] at hx
    rcases List.mem_cons.1 hx with rfl | hx
    · cases he
      exact hfirst (Tree.root_mem_roots hy)
    · rw [← List.take_append_drop e.kind.spared parts, Branch.allIn_append, List.mem_append] at hx
      rcases hx with hx | hx
      · refine hfirst (Tree.root_mem_roots ?_)
        obtain ⟨q, hq, hxq⟩ := Branch.mem_allIn.1 hx
        refine Branch.mem_allIn.2 ⟨q, hq, Branch.all_trans hxq ?_⟩
        rw [Branch.all_eq]
        exact List.mem_cons_of_mem _ ((Branch.allIn_sublist (List.take_sublist _ _)).subset hy)
      · exact h.spared x hx e' he y hy
  · intro b hb x hr j e' v hy
    obtain rfl := List.mem_singleton.1 hb
    cases hr with
    | here =>
      cases hy.root
      cases hy.node
      exact absurd hy (hstays v)
    | part hp hr => exact h.complete _ hp x hr j e' v hy

/-- A branch that gives way to its value. -/
theorem replace {k : Nat} (ht : t.Holds [⟨.expr i, .expr e, parts⟩])
    (hy : f.Yields depth t ⟨.expr i, .expr e, parts⟩ i e value)
    (hrun : t.replaceExpr i (Expr.ofValue value e.span) = .ok (k, u)) :
    f.Rewrites depth t [⟨.expr i, .expr e, parts⟩] u [⟨.expr i, .expr e, parts⟩] := by
  obtain ⟨k', u', hrun', hu, hwithin, hreleased⟩ :=
    ht.replaceExpr (Expr.ofValue value e.span) trivial rfl
  obtain ⟨rfl, rfl⟩ : k' = k ∧ u' = u := by
    rw [hrun] at hrun'
    cases hrun'
    exact ⟨rfl, rfl⟩
  have hc := ((evaluate_eq_ok_iff ht rfl).1 hy.value).1
  refine ⟨hwithin, .refl _, fun x hx => ⟨x, hx, .here⟩, ?_, ?_, ?_, ?_, ?_⟩
  · rintro x hx
    obtain rfl := List.mem_singleton.1 hx
    exact ⟨i, e, value, hy, hu.root.node⟩
  · rintro x hx
    obtain rfl := List.mem_singleton.1 hx
    exact hreleased
  · intro x hx e' he y hy
    obtain ⟨e'', he', hs⟩ := Branch.spared_constant hc (by simpa using hx)
    cases he.symm.trans he'
    simp [hs] at hy
  · intro b hb x hr _ _ _ _
    obtain rfl := List.mem_singleton.1 hb
    exact Tree.root_mem_roots (by simpa using hr.mem_all)
  · rw [List.flatMap_cons, List.flatMap_nil, List.append_nil, ← ht.exprCount_constant hc]
    exact ht.loses_replaceExpr (e := Expr.ofValue value e.span) trivial rfl hrun

end Rewrites

end Folder

end FrontEnd
