import FrontEnd.Proofs.Syntax.Paths
import FrontEnd.Proofs.Typing.Footprint
import FrontEnd.Proofs.Typing.Inference

/-!
Checking an expression as a whole: which nodes it touches, that every one of them carries its type
afterwards, and that checking again changes nothing.
-/

namespace FrontEnd

namespace Tree

variable {t : Tree} {b p p' : Branch} {id k c : ExprId} {e : Expr} {ps : List Branch}

/-! ### Nodes outside lambda bodies -/

theorem Holds.child_iff (h : t.Holds [⟨.expr id, .expr e, ps⟩]) :
    t.Child id c ↔ ∃ p ∈ ps, p.root = .expr c := by
  have hparts : (t.exprChildren e.kind).reverse = ps.map Branch.root := h.root.children
  rw [Check.child_iff h.expr, ← List.mem_reverse, hparts, List.mem_map]

theorem mem_roots_part {i : NodeId} (hp : p ∈ ps) (hi : i ∈ Branch.roots [p]) :
    i ∈ Branch.roots ps :=
  ((Branch.allIn_sublist (List.singleton_sublist.2 hp)).map _).subset hi

/-- What is below a node is that node itself, or below one of its parts. -/
theorem Holds.below_cases (h : t.Holds [⟨.expr id, .expr e, ps⟩]) (hk : t.Below id k) :
    k = id ∨ ∃ p ∈ ps, t.Holds [p] ∧ ∃ c, p.root = .expr c ∧ t.Child id c ∧ t.Below c k := by
  rcases hk.cases_head with rfl | ⟨c, hc, hk⟩
  · exact .inl rfl
  · obtain ⟨p, hp, hroot⟩ := h.child_iff.1 hc
    exact .inr ⟨p, hp, h.opened.1.left.sublist (List.singleton_sublist.2 hp), c, hroot, hc, hk⟩

theorem Holds.mem_of_below (h : t.Holds [b]) (hb : b.root = .expr id) (hk : t.Below id k) :
    .expr k ∈ Branch.roots [b] := by
  induction b using Branch.induct generalizing id with
  | mk root node ps ih =>
    obtain rfl : root = .expr id := hb
    obtain ⟨e, -, rfl⟩ := Option.map_eq_some_iff.1 h.root.node
    rw [roots_mk]
    rcases h.below_cases hk with rfl | ⟨p, hp, hheld, c, hroot, -, hk⟩
    · exact List.mem_cons_self
    · exact List.mem_cons_of_mem _ (mem_roots_part hp (ih p hp hheld hroot hk))

/-- No node is below two parts, nor above itself. -/
theorem Holds.part_unique (h : t.Holds [⟨.expr id, .expr e, ps⟩]) {i : NodeId} (hp : p ∈ ps)
    (hi : i ∈ Branch.roots [p]) : i ≠ .expr id ∧ ∀ p' ∈ ps, i ∈ Branch.roots [p'] → p' = p := by
  have hopened := h.opened
  rw [List.append_nil] at hopened
  refine ⟨fun hid => hopened.2 (hid ▸ mem_roots_part hp hi), fun p' hp' hi' => ?_⟩
  obtain ⟨m, hm⟩ := List.mem_iff_getElem?.1 hp
  obtain ⟨m', hm'⟩ := List.mem_iff_getElem?.1 hp'
  have hsame := eq_of_mem_roots hopened.1.apart hm hm' hi hi'
  exact Option.some.inj (hm'.symm.trans (hsame ▸ hm))

/-- Nothing in the body of a lambda is outside lambda bodies. -/
theorem Holds.not_below_body (h : t.Holds [b]) (hb : b.root = .expr id) {x y : Branch}
    (hx : x ∈ b.all) (hnode : x.node = .expr e) (hl : e.kind.isLambda = true)
    (hy : y ∈ Branch.allIn x.parts) (hk : y.root = .expr k) : ¬t.Below id k := by
  induction b using Branch.induct generalizing id with
  | mk root node ps ih =>
    intro hbelow
    obtain rfl : root = .expr id := hb
    obtain ⟨e', -, rfl⟩ := Option.map_eq_some_iff.1 h.root.node
    have hin : .expr k ∈ Branch.roots x.parts := hk ▸ root_mem_roots hy
    rw [Branch.all_mk] at hx
    rcases List.mem_cons.1 hx with rfl | hx
    · obtain rfl : e' = e := Node.expr.inj hnode
      rcases h.below_cases hbelow with rfl | ⟨p, hp, -, c, hroot, hc, -⟩
      · exact (h.opened.2) (by simpa using hin)
      · rw [Check.child_iff h.expr] at hc
        cases hkind : e'.kind <;> simp [hkind, ExprKind.isLambda, Tree.exprChildren] at hl hc
    · obtain ⟨p, hp, hxp⟩ := Branch.mem_allIn.1 hx
      have hyp : .expr k ∈ Branch.roots [p] := by
        have hyx : y ∈ x.all := by
          rw [Branch.all_eq]
          exact List.mem_cons_of_mem _ hy
        exact hk ▸ root_mem_roots (by simpa using Branch.all_trans hxp hyx)
      obtain ⟨hne, hunique⟩ := h.part_unique hp hyp
      rcases h.below_cases hbelow with rfl | ⟨p', hp', hheld, c, hroot, -, hbelow⟩
      · exact hne rfl
      · obtain rfl := hunique p' hp' (hheld.mem_of_below hroot hbelow)
        exact ih p' hp' hheld hroot hxp hbelow

end Tree

namespace Check

variable {env : Env} {t u : Tree} {b : Branch} {id k p : ExprId} {type : TypeId}

/-- In a tree a name of a type is not inferred as well. -/
theorem not_visits_of_names (h : t.Holds [b]) (hb : b.root = .expr id) (hp : Visits env t id p)
    (hn : Names env t p k type) : ¬Visits env t id k := by
  induction b using Branch.induct generalizing id with
  | mk root node ps ih =>
    intro hk
    obtain rfl : root = .expr id := hb
    obtain ⟨e, -, rfl⟩ := Option.map_eq_some_iff.1 h.root.node
    have hheld {q : Branch} (hq : q ∈ ps) : t.Holds [q] :=
      h.opened.1.left.sublist (List.singleton_sublist.2 hq)
    have hchild : t.Below p k := .single hn.child
    -- the part in which the name stands
    obtain ⟨q, hq, c, hroot, hc, hbelow⟩ : ∃ q ∈ ps, ∃ c, q.root = .expr c ∧
        (p = id ∧ c = k ∨ (∀ type, ¬Names env t id c type) ∧ Visits env t c p) ∧ t.Below c k := by
      rcases hp.cases_head with rfl | ⟨c, hc, hp⟩
      · obtain ⟨q, hq, hroot⟩ := h.child_iff.1 hn.child
        exact ⟨q, hq, k, hroot, .inl ⟨rfl, rfl⟩, .refl⟩
      · obtain ⟨q, hq, hroot⟩ := h.child_iff.1 hc.1
        exact ⟨q, hq, c, hroot, .inr ⟨hc.2, hp⟩,
          Relation.ReflTransGen.trans (Visits.below hp) hchild⟩
    obtain ⟨hne, hunique⟩ := h.part_unique hq ((hheld hq).mem_of_below hroot hbelow)
    rcases hk.cases_head with rfl | ⟨c', hc', hk⟩
    · exact hne rfl
    · obtain ⟨q', hq', hroot'⟩ := h.child_iff.1 hc'.1
      obtain rfl := hunique q' hq' ((hheld hq').mem_of_below hroot' (Visits.below hk))
      obtain rfl : c' = c := NodeId.expr.inj (hroot'.symm.trans hroot)
      rcases hc with ⟨rfl, rfl⟩ | ⟨-, hp⟩
      · exact hc'.2 type hn
      · exact ih q' hq' (hheld hq') hroot hp hk

/-! ### The whole -/

/-- The type that inference finds for an expression, whatever was reported before. -/
def HasType (env : Env) (t : Tree) (id : ExprId) (type : TypeId) : Prop :=
  ∀ q, ∃ s, infer env id ⟨t, q⟩ = .ok type s

/-- The types of the lambdas in a branch. -/
def Lambdas (b : Branch) (type : TypeId) : Prop :=
  ∃ x ∈ b.all, ∃ e body, x.node = .expr e ∧ e.kind = .lambda type body

/-- Checking an expression of the tree `t` ends with `r` and leaves the tree `u`. -/
structure Footprint (env : Env) (t : Tree) (id : ExprId) (r : Except Fault TypeId) (u : Tree) :
    Prop where
  /-- Neither the reports in the queue nor its settings have a say in it. -/
  ends : ∀ q, ∃ q', infer env id ⟨t, q⟩ = ended r ⟨u, q'⟩
  /-- Only types of expressions and link names of calls are written, -/
  bare : u.bare = t.bare
  /-- and only into nodes of the expression outside lambda bodies. -/
  outside : ∀ k, ¬t.Below id k → u.expr k = t.expr k
  /-- Each of them carries the type that is inferred for it. The name of a type that stands in front
  of a member carries that type. -/
  carried : ∀ type, r = .ok type → ∀ k, t.Below id k → ∃ e, u.expr k = .ok e ∧
    (Visits env t id k ∧ HasType env t k e.type ∨ ∃ p, Visits env t id p ∧ Names env t p k e.type)
  returned : ∀ type, r = .ok type → ∃ e, u.expr id = .ok e ∧ e.type = type
  /-- Checking again finds the same and writes nothing new. -/
  again : ∀ type, r = .ok type → ∀ q, ∃ q', infer env id ⟨u, q⟩ = .ok type ⟨u, q'⟩

/-- What else holds if the nodes make up a tree. -/
structure InTree (env : Env) (t : Tree) (id : ExprId) (b : Branch) (r : Except Fault TypeId) :
    Prop where
  /-- The body of a lambda is not among the nodes that are written into. -/
  body : ∀ x ∈ b.all, ∀ e, x.node = .expr e → e.kind.isLambda = true →
    ∀ y ∈ Branch.allIn x.parts, ∀ k, y.root = .expr k → ¬t.Below id k
  /-- The name of a type is not inferred as well. -/
  named : ∀ p k type, Visits env t id p → Names env t p k type → ¬Visits env t id k
  /-- A type is found if all types are known that inference may come to, unless a report is in a
  column that is too great. -/
  returns : (∀ type, env.Supplies (Lambdas b) type → ∃ d, env.types.desc type = .ok d) →
    (∃ type, r = .ok type) ∨ ∃ verb, r = .error (.overflow verb)

theorem alike_lambdas {c : Branch} {L : TypeId → Branch → Branch → Prop} (h : b.Alike L c) :
    b.Alike (fun type _ _ => Lambdas b type) c := by
  induction b using Branch.induct generalizing c with
  | mk root node parts ih =>
    cases h with
    | expr hk hl ht hs hparts =>
      refine .expr hk hl ht hs (((List.forall₂_and_left _ _).2 ⟨fun _ hp => hp, hparts⟩).imp ?_)
      rintro p q ⟨hp, hpq⟩
      refine (ih p hp hpq).mono ?_
      rintro type - - ⟨x, hx, hlambda⟩
      refine ⟨x, ?_, hlambda⟩
      rw [Branch.all_mk]
      exact List.mem_cons_of_mem _ (Branch.mem_allIn.2 ⟨p, hp, hx⟩)
    | lambda hx hy ht hs hbody =>
      exact .lambda hx hy ht hs ⟨_, Branch.mem_all_self _, _, _, rfl, hx⟩

theorem infer_returns {r : Except Fault TypeId} (h : t.Holds [b]) (hb : b.root = .expr id)
    (hends : ∀ q, ∃ q', infer env id ⟨t, q⟩ = ended r ⟨u, q'⟩)
    (hknown : ∀ type, env.Supplies (Lambdas b) type → ∃ d, env.types.desc type = .ok d) :
    (∃ type, r = .ok type) ∨ ∃ verb, r = .error (.overflow verb) := by
  have halike := alike_lambdas (.refl (L := fun _ _ _ => True) (fun _ _ => trivial) h hb)
  have hbodied : Bodied (fun type _ _ => Lambdas b type) = Lambdas b :=
    funext fun type => propext ⟨fun ⟨_, _, hl⟩ => hl, fun hl => ⟨b, b, hl⟩⟩
  have hplug : t.Holds ((Hole.top [] []).plug b) := h
  have htogether := together_infer env hplug hplug halike hb hb (Queue.sound_withConfig .standard)
  obtain ⟨q, hrun⟩ := hends (.withConfig .standard)
  cases htogether with
  | ok hok _ _ =>
    rw [hrun] at hok
    cases r with
    | ok type => exact .inl ⟨type, rfl⟩
    | error fault => cases hok
  | fault hfails herror _ =>
    rw [hrun] at herror
    cases r with
    | ok type => cases herror
    | error fault =>
      cases herror
      rw [hbodied] at hfails
      cases hfails with
      | overflow verb => exact .inr ⟨verb, rfl⟩
      | missing hs hdesc =>
        obtain ⟨d, hd⟩ := hknown _ hs
        rw [hd] at hdesc
        cases hdesc

/-- Checking an expression writes into its own nodes alone, whatever was reported before; each of
them carries its type then, and checking again changes nothing. -/
theorem infer_footprint (env : Env) (t : Tree) (id : ExprId) : ∃ r u, Footprint env t id r u ∧
    ∀ b, t.Holds [b] → b.root = .expr id → InTree env t id b r := by
  obtain ⟨r, ms, hwithin, hdue, htyping⟩ := marked_within env t (t.exprs.capacity + 1) id
  have hplays : Plays (infer env id) t r ms := fun v hv q => by
    rw [infer, bind_of_ok (get_eq _), Tree.capacity_of_bare hv]
    exact hwithin v hv q
  have hends (q : Queue) := hplays t rfl q
  have htype {k : ExprId} {type : TypeId} (hm : (k, .typed type) ∈ ms) :
      (∃ e, t.expr k = .ok e) ∧ (Visits env t id k ∧ HasType env t k type ∨
        ∃ p, Visits env t id p ∧ Names env t p k type) := by
    rcases hdue _ hm with ⟨hk, d', hd, ms', hfinds⟩ | ⟨p, hp, hn⟩
    · refine ⟨hfinds.exists_expr, .inl ⟨hk, fun q => ?_⟩⟩
      obtain ⟨q', hrun⟩ := hfinds t rfl q
      exact ⟨_, (bind_of_ok (get_eq _)).trans (extends_within hd k _ _ _ hrun)⟩
    · obtain ⟨o, -, ho, -⟩ := hn.var
      exact ⟨⟨o, ho⟩, .inr ⟨p, hp, hn⟩⟩
  have hcarried (type : TypeId) (hr : r = .ok type) (k : ExprId) (hk : t.Below id k) :
      ∃ e, (t.marks ms).expr k = .ok e ∧ (Visits env t id k ∧ HasType env t k e.type ∨
        ∃ p, Visits env t id p ∧ Names env t p k e.type) := by
    obtain ⟨found, hfound⟩ := htyping type hr k hk
    obtain ⟨e, he⟩ := (htype hfound).1
    exact ⟨_, Tree.expr_marks he,
      (htype (Tree.mem_marksAt.1 (Mark.type_stamp (Tree.mem_marksAt.2 hfound)))).2⟩
  refine ⟨r, t.marks ms, ⟨hends, Tree.bare_marks, fun k hk => ?_, hcarried, ?_, ?_⟩, ?_⟩
  · exact Tree.expr_marks_of_ne fun m hm he => hk (he ▸ (hdue m hm).below)
  · rintro type rfl
    obtain ⟨e, he, ⟨-, hfinds⟩ | ⟨p, hp, hn⟩⟩ := hcarried type rfl id .refl
    · obtain ⟨q, hrun⟩ := hends (.withConfig .standard)
      obtain ⟨s, hagain⟩ := hfinds (.withConfig .standard)
      rw [hrun] at hagain
      cases hagain
      exact ⟨e, he, rfl⟩
    · -- a name has no children, so it is not above the member access
      exact absurd (hn.below hp.below) hn.ne
  · rintro type rfl q
    obtain ⟨q', hrun⟩ := hplays (t.marks ms) Tree.bare_marks q
    exact ⟨q', by rw [hrun, Tree.marks_marks]; rfl⟩
  · exact fun b hheld hb =>
      ⟨fun x hx e hnode hl y hy k hk => hheld.not_below_body hb hx hnode hl hy hk,
        fun p k type hp hn => not_visits_of_names hheld hb hp hn, infer_returns hheld hb hends⟩

/-- In `(2)` the group and the literal are integers. -/
theorem footprint_of_group :
    let tree := Tree.ofExprs [Expr.new (.literal (.int 2)) ⟨1, 2⟩, Expr.new (.group ⟨0⟩) ⟨0, 3⟩]
    let env : Env := ⟨.ofBasics, Interner.withReserve 0, .empty, .top, Lines.ofText "(2)", 0⟩
    ∃ u, Footprint env tree ⟨1⟩ (.ok .integer) u ∧
      ∀ k, tree.Below ⟨1⟩ k → ∃ e, u.expr k = .ok e ∧ e.type = .integer := by
  intro tree env
  obtain ⟨r, u, h, htree⟩ := infer_footprint env tree ⟨1⟩
  let leaf : Branch := ⟨.expr ⟨0⟩, .expr (Expr.new (.literal (.int 2)) ⟨1, 2⟩), []⟩
  let b : Branch := ⟨.expr ⟨1⟩, .expr (Expr.new (.group ⟨0⟩) ⟨0, 3⟩), [leaf]⟩
  have hall : b.all = [b, leaf] := by simp [b, leaf, Branch.all_mk]
  have hb : tree.Holds [b] := by
    refine ⟨Tree.sound_ofExprs _, ?_, ?_⟩
    · simp only [Branch.allIn_cons, Branch.allIn_nil, List.append_nil, hall, List.forall_mem_cons]
      exact ⟨⟨rfl, trivial, rfl⟩, ⟨rfl, trivial, rfl⟩, by simp⟩
    · simp only [Branch.roots, Branch.allIn_cons, Branch.allIn_nil, List.append_nil, hall]
      decide
  have hbelow (k : ExprId) (hk : tree.Below ⟨1⟩ k) : k = ⟨1⟩ ∨ k = ⟨0⟩ := by
    have hmem := hb.mem_of_below rfl hk
    simp only [Branch.roots, Branch.allIn_cons, Branch.allIn_nil, List.append_nil, hall] at hmem
    simpa [b, leaf] using hmem
  obtain ⟨q, hends⟩ := h.ends (.withConfig .standard)
  obtain rfl : r = .ok .integer := by
    have hrun : ∃ s, infer env ⟨1⟩ ⟨tree, .withConfig .standard⟩ = .ok .integer s := ⟨_, rfl⟩
    obtain ⟨s, hrun⟩ := hrun
    rw [hends] at hrun
    cases r <;> cases hrun
    rfl
  refine ⟨u, h, fun k hk => ?_⟩
  obtain ⟨e, he, ⟨-, htype⟩ | ⟨p, hp, ⟨e', field, -, he', hkind, -⟩⟩⟩ := h.carried _ rfl k hk
  · obtain ⟨s, hrun⟩ := htype (.withConfig .standard)
    have hfound : ∃ s', infer env k ⟨tree, .withConfig .standard⟩ = .ok .integer s' := by
      rcases hbelow k hk with rfl | rfl <;> exact ⟨_, rfl⟩
    obtain ⟨s', hrun'⟩ := hfound
    rw [hrun] at hrun'
    injection hrun' with hsame
    exact ⟨e, he, hsame⟩
  · rcases hbelow p hp.below with rfl | rfl <;> cases he' <;> cases hkind

end Check

end FrontEnd
