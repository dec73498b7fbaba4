import FrontEnd.Proofs.Program.Expressions

/-!
Steps of two runs that make a statement out of what they have read, and those that open a block and
leave it.
-/

namespace FrontEnd

namespace Entry.Forms

variable {ret : Option TypeId} {es : List Entry} {j k : StmtKind} {mangled : Name} {type : TypeId}

/-- A function that was declared is that of the statement. -/
theorem declares (h : Forms ret es j k) (hf : function mangled type ∈ es) :
    ∃ name body isNative, k = .funcDecl name mangled type body isNative := by
  cases h <;> simp at hf <;> obtain ⟨rfl, rfl⟩ := hf <;> exact ⟨_, _, _, rfl⟩

theorem ne_error (h : Forms ret es j k) : k ≠ .error := by
  cases h <;> nofun

theorem returns_eq {P : Pass} (h : Forms ret es j k) : P.returns es = [] := by
  cases h <;> rfl

end Entry.Forms

theorem Entry.Stmts.not_function {es : List Entry} {is js : List StmtId} (h : Entry.Stmts es is js)
    (mangled : Name) (type : TypeId) : Entry.function mangled type ∉ es := by
  induction h with
  | nil => simp
  | snoc _ ih => simpa using ih

namespace Pass

open Parse Link Entry

/-- Branches become the parts of a statement, in both runs. -/
structure Formed (P : Pass) (v : View) (Γ' : Sight) (es : List Entry) (bs cs : List Branch)
    (j k : StmtKind) (span : Span) (Γ : Sight) (ds : List Decl) (xs ys bs' cs' : List Branch) :
    Prop where
  sight : Γ' = Γ.extend ds
  left : bs.Perm (xs ++ bs')
  right : cs.Perm (ys ++ cs')
  rest : Pieces P v Γ es bs' cs'
  children₁ : ∀ t : Tree, t.Covers (.stmt ⟨j, span⟩) ∧
    t.children (.stmt ⟨j, span⟩) = xs.map Branch.root
  children₂ : ∀ t : Tree, t.Covers (.stmt ⟨k, span⟩) ∧
    t.children (.stmt ⟨k, span⟩) = ys.map Branch.root
  settled : v.quiet → ∀ c ∈ ys, P.Settled v (k.wants P.types (P.returns es).head?) c
  flows : v.quiet →
    Stmt.Flows P.types (P.returns es).head? ⟨k, span⟩ (ys.filterMap Branch.type?)
  follows : v.quiet → P.first = false → ∀ m n, Follows P.types Γ
    ⟨.stmt m, .stmt ⟨j, span⟩, xs⟩ ⟨.stmt n, .stmt ⟨k, span⟩, ys⟩ ds

variable {P : Pass} {s₁ s₂ : ParseState} {es es' : List Entry} {Γ Γ' : Sight}
  {os : List Overload} {bs cs bs' cs' xs ys : List Branch} {j k : StmtKind} {v : View}

/-- A statement settles with its parts, if its own flows were compared. -/
theorem settled_stmt {s : Stmt} {root : NodeId} {wanted : Option TypeId} (hs : s.kind ≠ .error)
    (hf : s.Flows P.types wanted (xs.filterMap Branch.type?))
    (h : ∀ p ∈ xs, P.Settled v (s.kind.wants P.types wanted) p) :
    P.Settled v wanted ⟨root, .stmt s, xs⟩ :=
  ⟨Branch.settled_stmt hs fun p hp => (h p hp).fits, .stmt hf fun p hp => (h p hp).guarded⟩

/-- A new statement over what was read last. -/
theorem firm_put {es₀ : List Entry} {x : StmtId → StmtId → Entry} {span : Span}
    (hb : P.Base s₁ s₂) (h : P.Stands es₀ Γ' os bs cs s₁ s₂) (hbs : bs.Perm (xs ++ bs'))
    (hcs : cs.Perm (ys ++ cs')) (hp : Pieces P (P.view s₁ os) Γ es bs' cs')
    (h₁ : s₁.tree.Covers (.stmt ⟨j, span⟩) ∧
      s₁.tree.children (.stmt ⟨j, span⟩) = xs.map Branch.root)
    (h₂ : s₂.tree.Covers (.stmt ⟨k, span⟩) ∧
      s₂.tree.children (.stmt ⟨k, span⟩) = ys.map Branch.root)
    (hx : ∀ m n, Piece P (P.view s₁ os) (P.returns es).head? Γ (x m n)
      [⟨.stmt m, .stmt ⟨j, span⟩, xs⟩] [⟨.stmt n, .stmt ⟨k, span⟩, ys⟩] Γ')
    (hf : ∀ mangled type, .function mangled type ∈ es₀ → .function mangled type ∈ es ∨
      ∃ name body isNative, k = .funcDecl name mangled type body isNative)
    (hret : ∀ m n, P.returns (x m n :: es) = P.returns es₀) :
    P.link.Firm es (addStmt j span) (addStmt k span) s₁ s₂ fun m n t₁ t₂ =>
      P.link.rel (x m n :: es) t₁ t₂ := by
  have howns : s₁.tree.Owns (es.flatMap left) ∧ s₂.tree.Owns (es.flatMap right) := by
    obtain ⟨hl, hr⟩ := hp.roots_eq
    exact ⟨hl ▸ (h.left.perm hbs).right.owns, hr ▸ (h.right.perm hcs).right.owns⟩
  refine firm_get_bind ?_
  cases ha₁ : s₁.tree.addStmt ⟨j, span⟩ with
  | error cause => exact .first rfl howns.1
  | ok r₁ =>
    cases ha₂ : s₂.tree.addStmt ⟨k, span⟩ with
    | error cause => exact .second rfl howns.2
    | ok r₂ =>
      obtain ⟨m, t⟩ := r₁
      obtain ⟨n, u⟩ := r₂
      refine .ok rfl rfl ⟨hb.trees, Γ', os, _, _, h.trees
        ((h.left.perm hbs).addStmt ha₁ h₁.1 h₁.2) ((h.right.perm hcs).addStmt ha₂ h₂.1 h₂.2)
        (hp.cons (hx m n)) (fun _ o ho => ?_) (fun hq => ?_) fun _ => hret m n⟩
      · rcases ho with hmem | ⟨s, hs, hd⟩
        · rcases hf _ _ hmem with hmem | ⟨name, body, isNative, rfl⟩
          · exact .inl (List.mem_cons_of_mem _ hmem)
          · refine .inr ⟨⟨.funcDecl name o.mangled o.type body isNative, span⟩, ?_,
              name, body, isNative, rfl⟩
            rw [Branch.stmts_cons, Branch.stmts_stmt]
            simp
        · refine .inr ⟨s, ?_, hd⟩
          rw [Branch.stmts_cons, Branch.stmts_stmt, List.cons_append, ← Branch.stmts_append]
          exact List.mem_cons_of_mem _ ((Branch.stmts_perm hcs).mem_iff.1 hs)
      · rw [Tree.roots_mk_cons]
        exact ((h.counts hq).perm ((Branch.allIn_perm hbs).map _)).addStmt ha₁

/-! ### Statements of every form -/

section

variable {span : Span} {i i' : ExprId} {value value' : Option Value} {purpose : Purpose}

/-- A statement without parts that declares nothing. -/
theorem formed_leaf (h : Pieces P v Γ es bs cs)
    (hj : ∀ t : Tree, t.Covers (.stmt ⟨j, span⟩) ∧ t.children (.stmt ⟨j, span⟩) = [])
    (hk : ∀ t : Tree, t.Covers (.stmt ⟨k, span⟩) ∧ t.children (.stmt ⟨k, span⟩) = [])
    (hflows : Stmt.Flows P.types (P.returns es).head? ⟨k, span⟩ [])
    (hfollows : ∀ m n, Follows P.types Γ ⟨.stmt m, .stmt ⟨j, span⟩, []⟩
      ⟨.stmt n, .stmt ⟨k, span⟩, []⟩ []) :
    Formed P v Γ es bs cs j k span Γ [] [] [] bs cs where
  sight := Sight.eq_extend_nil h.ne_nil
  left := .refl _
  right := .refl _
  rest := h
  children₁ := hj
  children₂ := hk
  settled := by simp
  flows _ := hflows
  follows _ _ := hfollows

/-- A statement with one expression that declares nothing. -/
theorem formed_expr (h : Pieces P v Γ (.folded i i' value value' purpose :: es) bs cs)
    (hj : ∀ t : Tree, t.Covers (.stmt ⟨j, span⟩) ∧ t.children (.stmt ⟨j, span⟩) = [.expr i])
    (hk : ∀ t : Tree, t.Covers (.stmt ⟨k, span⟩) ∧ t.children (.stmt ⟨k, span⟩) = [.expr i'])
    (hflows : v.quiet → ∀ tys, (∀ t ∈ tys, P.types.Takes purpose.wanted t) →
      Stmt.Flows P.types (P.returns es).head? ⟨k, span⟩ tys)
    (hfollows : ∀ b c m n, Folded P.types Γ b c → Follows P.types Γ
      ⟨.stmt m, .stmt ⟨j, span⟩, [b]⟩ ⟨.stmt n, .stmt ⟨k, span⟩, [c]⟩ []) :
    ∃ xs ys bs' cs', Formed P v Γ es bs cs j k span Γ [] xs ys bs' cs' := by
  obtain ⟨b, c, bs, cs, rfl, rfl, hp, hfin⟩ := h.folded
  exact ⟨[b], [c], _, _, {
    sight := Sight.eq_extend_nil hp.ne_nil
    left := .refl _
    right := .refl _
    rest := hp
    children₁ := fun t => by rw [List.map_singleton, hfin.left]; exact hj t
    children₂ := fun t => by rw [List.map_singleton, hfin.right]; exact hk t
    settled := fun hq => by simpa using hfin.settled hq _
    flows := fun hq => hflows hq _ (hfin.takes_part hq)
    follows := fun hq hf m n => hfollows b c m n (hfin.folded hq hf) }⟩

/-- A statement with a function body. -/
theorem formed_body {ty : TypeId} {m n : StmtId}
    (h : Pieces P v Γ (.bodyStmt ty m n :: es) bs cs)
    (hj : ∀ t : Tree, t.Covers (.stmt ⟨j, span⟩) ∧ t.children (.stmt ⟨j, span⟩) = [.stmt m])
    (hk : ∀ t : Tree, t.Covers (.stmt ⟨k, span⟩) ∧ t.children (.stmt ⟨k, span⟩) = [.stmt n])
    (hwants : k.wants P.types (P.returns es).head? = some (P.types.result ty))
    (hflows : ∀ tys, Stmt.Flows P.types (P.returns es).head? ⟨k, span⟩ tys)
    (hfollows : ∀ b c m n, FoldedBody P.types Γ ty b c → Follows P.types Γ
      ⟨.stmt m, .stmt ⟨j, span⟩, [b]⟩ ⟨.stmt n, .stmt ⟨k, span⟩, [c]⟩ []) :
    ∃ xs ys bs' cs', Formed P v Γ es bs cs j k span Γ [] xs ys bs' cs' := by
  obtain ⟨b, c, bs, cs, rfl, rfl, hp, he⟩ := h.bodyStmt
  exact ⟨[b], [c], _, _, {
    sight := Sight.eq_extend_nil hp.ne_nil
    left := .refl _
    right := .refl _
    rest := hp
    children₁ := fun t => by rw [List.map_singleton, he.left]; exact hj t
    children₂ := fun t => by rw [List.map_singleton, he.right]; exact hk t
    settled := fun hq => by simpa [hwants] using he.settled hq
    flows := fun _ => hflows _
    follows := fun hq hf m n => hfollows b c m n (he.folded hq hf) }⟩

/-- A condition and then a statement. -/
theorem formed_cond {m n : StmtId}
    (h : Pieces P v Γ' (.stmt m n :: .folded i i' value value' purpose :: es) bs cs)
    (hj : ∀ t : Tree, t.Covers (.stmt ⟨j, span⟩) ∧
      t.children (.stmt ⟨j, span⟩) = [.expr i, .stmt m])
    (hk : ∀ t : Tree, t.Covers (.stmt ⟨k, span⟩) ∧
      t.children (.stmt ⟨k, span⟩) = [.expr i', .stmt n])
    (hwants : k.wants P.types (P.returns es).head? = (P.returns es).head?)
    (hflows : ∀ tys, Stmt.Flows P.types (P.returns es).head? ⟨k, span⟩ tys)
    (hfollows : ∀ Γ b c b' c' ds m n, Folded P.types Γ b c → Follows P.types Γ b' c' ds →
      Follows P.types Γ ⟨.stmt m, .stmt ⟨j, span⟩, [b, b']⟩
        ⟨.stmt n, .stmt ⟨k, span⟩, [c, c']⟩ ds) :
    ∃ Γ ds xs ys bs' cs', Formed P v Γ' es bs cs j k span Γ ds xs ys bs' cs' := by
  obtain ⟨Γ, ds, b', c', bs, cs, rfl, rfl, rfl, hp, hs⟩ := h.stmt
  obtain ⟨b, c, bs, cs, rfl, rfl, hp, hfin⟩ := hp.folded
  exact ⟨Γ, ds, [b, b'], [c, c'], _, _, {
    sight := rfl
    left := .swap ..
    right := .swap ..
    rest := hp
    children₁ := fun t => by
      rw [List.map_cons, List.map_singleton, hfin.left, hs.left]
      exact hj t
    children₂ := fun t => by
      rw [List.map_cons, List.map_singleton, hfin.right, hs.right]
      exact hk t
    settled := fun hq => by
      rw [hwants]
      simpa using ⟨hfin.settled hq _, hs.settled hq⟩
    flows := fun _ => hflows _
    follows := fun hq hf m n =>
      hfollows Γ b c b' c' ds m n (hfin.folded hq hf) (hs.follows hq hf) }⟩

/-- Entries become a statement of any form. -/
theorem formed {ret : Option TypeId} (hf : Forms ret es' j k)
    (h : Pieces P v Γ' (es' ++ es) bs cs) (hret : v.quiet → ret = (P.returns es).head?)
    (span : Span) :
    ∃ Γ ds xs ys bs' cs', Formed P v Γ' es bs cs j k span Γ ds xs ys bs' cs' := by
  cases hf with
  | ret =>
    exact ⟨_, _, _, _, _, _, formed_leaf h (fun _ => ⟨trivial, rfl⟩) (fun _ => ⟨trivial, rfl⟩)
      (by simp [Stmt.Flows]) fun _ _ => .ret⟩
  | struct | enum | «using» =>
    exact ⟨_, _, _, _, _, _, formed_leaf h (fun _ => ⟨trivial, rfl⟩) (fun _ => ⟨trivial, rfl⟩)
      trivial fun _ _ => by constructor⟩
  | native =>
    exact ⟨_, _, _, _, _, _, formed_leaf h.function (fun _ => ⟨trivial, rfl⟩)
      (fun _ => ⟨trivial, rfl⟩) trivial fun _ _ => .native⟩
  | expr =>
    exact ⟨_, _, formed_expr h (fun _ => ⟨trivial, rfl⟩) (fun _ => ⟨trivial, rfl⟩)
      (fun _ _ _ => trivial) fun _ _ _ _ => .expr⟩
  | value =>
    exact ⟨_, _, formed_expr h (fun _ => ⟨trivial, rfl⟩) (fun _ => ⟨trivial, rfl⟩)
      (fun hq _ htakes => hret hq ▸ htakes) fun _ _ _ _ => .value⟩
  | print =>
    exact ⟨_, _, formed_expr h (fun _ => ⟨trivial, rfl⟩) (fun _ => ⟨trivial, rfl⟩)
      (fun _ _ _ => trivial) fun _ _ _ _ => .print⟩
  | «alias» =>
    exact ⟨_, _, formed_body h (fun _ => ⟨trivial, rfl⟩) (fun _ => ⟨trivial, rfl⟩) rfl
      (fun _ => trivial) fun _ _ _ _ => .func⟩
  | @func name mangled type m n =>
    obtain ⟨xs, ys, bs', cs', hform⟩ := formed_body
      (j := .funcDecl name mangled type (some m) false)
      (k := .funcDecl name mangled type (some n) false) h
      (fun _ => ⟨trivial, rfl⟩) (fun _ => ⟨trivial, rfl⟩) rfl (fun _ => trivial)
      fun _ _ _ _ => .func
    exact ⟨_, _, xs, ys, bs', cs', { hform with rest := hform.rest.function }⟩
  | bare =>
    obtain ⟨Γ, d, rfl, rfl, rfl, hp, hd⟩ := h.declared
    have hnone : d.value = none := by
      cases hv : d.value with
      | none => rfl
      | some w => exact nomatch (hd w hv).2
    exact ⟨Γ, [d], [], [], bs, cs, {
      sight := rfl
      left := .refl _
      right := .refl _
      rest := hp
      children₁ := fun _ => ⟨trivial, rfl⟩
      children₂ := fun _ => ⟨trivial, rfl⟩
      settled := by simp
      flows := fun _ => trivial
      follows := fun _ _ _ _ => .bare hnone }⟩
  | var =>
    obtain ⟨Γ, d, rfl, rfl, rfl, hp, hd⟩ := h.declared
    obtain ⟨b, c, bs, cs, rfl, rfl, hp, hfin⟩ := hp.folded
    exact ⟨Γ, [d], [b], [c], bs, cs, {
      sight := rfl
      left := .refl _
      right := .refl _
      rest := hp
      children₁ := fun _ => ⟨trivial, by rw [List.map_singleton, hfin.left]; rfl⟩
      children₂ := fun _ => ⟨trivial, by rw [List.map_singleton, hfin.right]; rfl⟩
      settled := fun hq => by simpa using hfin.settled hq _
      flows := fun hq => ⟨(hfin.uses _ rfl).2 hq, hfin.takes_part hq⟩
      follows := fun hq hf _ _ => .var (hfin.folded hq hf) fun w hw =>
        ⟨(hd w hw).1, hfin.value_eq hq hf w (hd w hw).2⟩ }⟩
  | cond =>
    exact formed_cond h (fun _ => ⟨trivial, rfl⟩) (fun _ => ⟨trivial, rfl⟩) rfl
      (fun _ => trivial) fun _ _ _ _ _ _ _ _ => .cond
  | other =>
    obtain ⟨Γ, ds', b'', c'', bs, cs, rfl, rfl, rfl, hp, hs'⟩ := h.stmt
    obtain ⟨Γ, ds, b', c', bs, cs, rfl, rfl, rfl, hp, hs⟩ := hp.stmt
    obtain ⟨b, c, bs, cs, rfl, rfl, hp, hfin⟩ := hp.folded
    have hperm (x y z : Branch) (l : List Branch) : (x :: y :: z :: l).Perm ([z, y, x] ++ l) :=
      (List.reverse_perm [x, y, z]).symm.append_right l
    exact ⟨Γ, ds' ++ ds, [b, b', b''], [c, c', c''], bs, cs, {
      sight := (Sight.extend_append ds' hp.ne_nil).symm
      left := hperm ..
      right := hperm ..
      rest := hp
      children₁ := fun _ => ⟨trivial, by
        simp [Tree.children, Tree.stmtChildren, hfin.left, hs.left, hs'.left]⟩
      children₂ := fun _ => ⟨trivial, by
        simp [Tree.children, Tree.stmtChildren, hfin.right, hs.right, hs'.right]⟩
      settled := fun hq => by
        simpa using ⟨hfin.settled hq _, hs.settled hq, hs'.settled hq⟩
      flows := fun _ => trivial
      follows := fun hq hf _ _ =>
        .other (hfin.folded hq hf) (hs.follows hq hf) (hs'.follows hq hf) }⟩
  | loop =>
    exact formed_cond h (fun _ => ⟨trivial, rfl⟩) (fun _ => ⟨trivial, rfl⟩) rfl
      (fun _ => trivial) fun _ _ _ _ _ _ _ _ => .loop
  | doLoop =>
    obtain ⟨b, c, bs, cs, rfl, rfl, hp, hfin⟩ := h.folded
    obtain ⟨Γ, ds, b', c', bs, cs, rfl, rfl, rfl, hp, hs⟩ := hp.stmt
    exact ⟨Γ, ds, [b, b'], [c, c'], bs, cs, {
      sight := rfl
      left := .refl _
      right := .refl _
      rest := hp
      children₁ := fun _ => ⟨trivial, by
        simp [Tree.children, Tree.stmtChildren, hfin.left, hs.left]⟩
      children₂ := fun _ => ⟨trivial, by
        simp [Tree.children, Tree.stmtChildren, hfin.right, hs.right]⟩
      settled := fun hq => by simpa using ⟨hfin.settled hq _, hs.settled hq⟩
      flows := fun _ => trivial
      follows := fun hq hf _ _ => .doLoop (hs.follows hq hf) (hfin.folded hq hf) }⟩

end

theorem firm_stmt {span : Span} (hf : Forms s₁.returns.head? es' j k)
    (h : P.link.Rel (es' ++ es) s₁ s₂) :
    P.link.Firm es (addStmt j span) (addStmt k span) s₁ s₂ fun m n t₁ t₂ =>
      P.link.rel (.stmt m n :: es) t₁ t₂ := by
  obtain ⟨hb, Γ', os, bs, cs, hst⟩ := h.rel
  have hreturns : P.returns (es' ++ es) = P.returns es := by
    rw [returns_append, hf.returns_eq, List.nil_append]
  obtain ⟨Γ, ds, xs, ys, bs', cs', hform⟩ := formed hf hst.pieces
    (fun hq => by rw [hst.returns hq, hreturns]) span
  obtain rfl := hform.sight
  refine firm_put hb hst hform.left hform.right hform.rest (hform.children₁ _) (hform.children₂ _)
    (fun m n => .stmt ⟨rfl, rfl, fun hq => ?_, fun hq hfirst => hform.follows hq hfirst m n⟩)
    (fun mangled type hmem => ?_) fun _ _ => hreturns.symm
  · exact settled_stmt hf.ne_error (hform.flows hq) (hform.settled hq)
  · exact (List.mem_append.1 hmem).symm.imp_right hf.declares

/-- A statement that is an error stands only where it does not matter any more. -/
theorem firm_flaw {span : Span} (h : P.link.Rel es s₁ s₂)
    (hpos : 0 < s₁.reports.reports.size ∨ P.link.knows .invalid s₁) :
    P.link.Firm es (addStmt .error span) (addStmt .error span) s₁ s₂ fun m n t₁ t₂ =>
      P.link.rel (.stmt m n :: es) t₁ t₂ := by
  obtain ⟨hb, Γ, os, bs, cs, hst⟩ := h.rel
  have hquiet : ¬P.Quiet s₁ := fun hq =>
    hpos.elim (fun hpos => not_quiet hpos hq) fun hk => hk.uses.2 hq rfl
  exact firm_put hb hst (.refl ([] ++ bs)) (.refl ([] ++ cs)) hst.pieces ⟨trivial, rfl⟩
    ⟨trivial, rfl⟩ (fun m n => .of_said hst.pieces.ne_nil ⟨rfl, rfl, fun hq => absurd hq hquiet,
      fun hq => absurd hq hquiet⟩) (fun mangled type hmem => .inl hmem) fun _ _ => rfl

/-! ### Statements over lists of others -/

/-- The statements in a list become the children of its block or namespace. -/
theorem children_list {form : ListRange → StmtKind}
    (hform : form = .block ∨ ∃ name, form = .namesp name) (t : Tree) (ids : List StmtId)
    (span : Span) :
    (t.addStmtList ids).2.Covers (.stmt ⟨form (t.addStmtList ids).1, span⟩) ∧
      (t.addStmtList ids).2.children (.stmt ⟨form (t.addStmtList ids).1, span⟩) =
        ids.map .stmt := by
  have hlist := Tree.stmtList_addStmtList t ids
  have hsize : t.stmtLists.size + ids.length ≤ (t.stmtLists ++ ids).size := by
    rw [← Array.length_toList, ← Array.length_toList, Array.toList_appendList, List.length_append]
  rcases hform with rfl | ⟨name, rfl⟩ <;>
    exact ⟨hsize, by simp only [Tree.children, Tree.stmtChildren, hlist, List.map_reverse,
      List.reverse_reverse]⟩

theorem addStmtList_eq (ids : List StmtId) (s : ParseState) : addStmtList ids s =
    .ok (s.tree.addStmtList ids).1 { s with tree := (s.tree.addStmtList ids).2 } :=
  rfl

theorem firm_list {is js : List StmtId} {form : ListRange → StmtKind}
    {entry : StmtId → StmtId → Entry} (span : Span) (hc : Closes es' is js form entry)
    (h : P.link.Rel (es' ++ es) s₁ s₂) :
    P.link.Firm es (listStmt form span is) (listStmt form span js) s₁ s₂ fun m n t₁ t₂ =>
      P.link.rel (entry m n :: es) t₁ t₂ := by
  obtain ⟨hb, Γ', os, bs, cs, hst⟩ := h.rel
  have hst' := hst.trees (hst.left.addStmtList is) (hst.right.addStmtList js) hst.pieces
    (fun _ _ ho => ho) (fun hq => (hst.counts hq).congr rfl rfl) fun _ => rfl
  refine (firm_of_ok (R := fun q r t₁ t₂ => (s₁.tree.addStmtList is).1 = q ∧
    (s₂.tree.addStmtList js).1 = r ∧ { s₁ with tree := (s₁.tree.addStmtList is).2 } = t₁ ∧
    { s₂ with tree := (s₂.tree.addStmtList js).2 } = t₂) (addStmtList_eq is s₁)
    (addStmtList_eq js s₂) ⟨rfl, rfl, rfl, rfl⟩).bind ?_
  rintro _ _ _ _ ⟨rfl, rfl, rfl, rfl⟩
  cases hc with
  | block =>
    cases hst.pieces with
    | cons hp hx =>
      cases hx with
      | block hl =>
        refine firm_put hb.trees hst' (.refl _) (.refl _) hp ?_ ?_
          (fun m n => .of_said hp.ne_nil ⟨rfl,
          rfl, fun hq => settled_stmt nofun trivial (hl.settled hq), fun hq hf =>
          .block (hl.follows hq hf)⟩)
          (fun mangled type hmem => .inl (by simpa using hmem)) fun _ _ => rfl
        · rw [hl.left]
          exact children_list (.inl rfl) ..
        · rw [hl.right]
          exact children_list (.inl rfl) ..
  | body =>
    cases hst.pieces with
    | cons hp hx =>
      cases hx with
      | bodied hl =>
        refine firm_put hb.trees hst' (.refl _) (.refl _) hp ?_ ?_ (fun m n => .bodyStmt ⟨rfl, rfl,
          fun hq => settled_stmt nofun trivial (hl.settled hq),
          fun hq hf => .mk (hl.follows hq hf)⟩)
          (fun mangled type hmem => .inl (by simpa using hmem)) fun _ _ => rfl
        · rw [hl.left]
          exact children_list (.inl rfl) ..
        · rw [hl.right]
          exact children_list (.inl rfl) ..
  | namesp hes =>
    obtain ⟨Γ, ds, xs, ys, bs, cs, rfl, rfl, rfl, hp, hl⟩ := hst.pieces.stmts hes
    have hperm (vs l : List Branch) : (vs.reverse ++ l).Perm (vs ++ l) :=
      (List.reverse_perm vs).append_right l
    refine firm_put hb.trees hst' (hperm ..) (hperm ..) hp ?_ ?_ (fun m n => .stmt ⟨rfl, rfl,
      fun hq => settled_stmt nofun trivial (hl.settled hq),
      fun hq hf => .namesp (hl.follows hq hf)⟩)
      (fun mangled type hmem => .inl ?_) fun _ _ => ?_
    · rw [hl.left]
      exact children_list (.inr ⟨_, rfl⟩) ..
    · rw [hl.right]
      exact children_list (.inr ⟨_, rfl⟩) ..
    · exact (List.mem_append.1 hmem).resolve_left (hes.not_function mangled type)
    · rw [returns_append, returns_stmts hes]
      rfl
  | empty =>
    exact firm_put hb.trees hst' (.refl ([] ++ bs)) (.refl ([] ++ cs)) hst.pieces
      (children_list (.inl rfl) ..) (children_list (.inl rfl) ..)
      (fun m n => .of_said hst.pieces.ne_nil
        ⟨rfl, rfl, fun _ => settled_stmt nofun trivial (by simp),
        fun _ _ => .block .nil⟩) (fun mangled type hmem => .inl hmem) fun _ _ => rfl

/-! ### Entering -/

variable {block : List Decl} {is js : List StmtId} {type : TypeId}

theorem rel_enter (h : P.link.Rel es s₁ s₂) :
    P.link.rel (.enter :: es) (s₁.shift Scope.enter id) (s₂.shift Scope.enter id) := by
  obtain ⟨hb, Γ, os, bs, cs, hst⟩ := h.rel
  refine ⟨⟨{ h.same with scope := congrArg Scope.enter h.same.scope }, hb.first, hb.second,
    hb.window, hb.named₁, hb.named₂, hb.furnished, hb.returns⟩, [] :: Γ, os, bs, cs, hst.left,
    hst.right, hst.pieces.cons .enter, fun hq => ?_, hst.known, fun hq o ho => ?_, hst.counts,
    hst.returns⟩
  · obtain ⟨hagrees, hlen⟩ := hst.sight hq
    refine ⟨hagrees.enter (fun name => ?_) fun name => ?_, congrArg (· + 1) hlen⟩
    · exact h.sound₂.shallow.vars _ (by simp [hlen])
    · exact h.sound₂.bindings _ (by simp [hlen])
  · obtain ⟨hsigned, hacc⟩ := hst.accounted hq o ho
    exact ⟨hsigned, hacc.imp_left (List.mem_cons_of_mem _)⟩

/-! ### Leaving -/

theorem Named.leave {s : ParseState} (h : P.Named s) : P.Named (leaveScope s) := by
  refine h.grows (.refl _) fun key v hv => ?_
  change (s.folder.leaveScope s.scope.depth).bindingAt key = some v at hv
  rw [Folder.bindingAt_leaveScope] at hv
  split at hv
  · cases hv
  · exact hv

theorem Base.leave (h : P.Base s₁ s₂) (hs : s₁.symbols.Sound) :
    P.Base (leaveScope s₁) (leaveScope s₂) where
  same := {
    h.same with
    scope := congrArg Scope.leave h.same.scope
    symbols := by
      simp only [leaveScope, h.same.symbols, h.same.scope] }
  first := h.first
  second := h.second
  window := h.window
  named₁ := h.named₁.leave
  named₂ := h.named₂.leave
  furnished := h.furnished.leaveDepth hs _
  returns := h.returns

/-- The innermost block is left, which may be the body of a function. -/
theorem Stands.leave (returns : List TypeId → List TypeId)
    (h : P.Stands es' (block :: Γ) os bs cs s₁ s₂) (hs₁ : s₁.symbols.Sound)
    (hs₂ : s₂.symbols.Sound) (hbs : bs.Perm bs') (hcs : cs.Perm cs') (hne : Γ ≠ [])
    (hp : Pieces P (P.view s₁ os) Γ es bs' cs')
    (hf : ∀ mangled type, .function mangled type ∈ es' → .function mangled type ∈ es)
    (hr : P.Quiet s₁ → returns s₁.returns = P.returns es) :
    P.Stands es Γ os bs' cs' (leaveScope (s₁.shift id returns))
      (leaveScope (s₂.shift id returns)) where
  left := h.left.perm hbs
  right := h.right.perm hcs
  pieces := hp
  sight hq := by
    obtain ⟨hagrees, hlen⟩ := h.sight hq
    have hdepth : Γ.length = s₂.scope.depth := Nat.succ.inj hlen
    refine ⟨hagrees.2.congr (fun key hk => ?_) fun key hk => ?_, ?_⟩
    · change (s₂.symbols.leaveDepth s₂.scope.depth).vars.get? key = _
      rw [(hs₂.get?_leaveDepth _ key).1, if_neg (by omega)]
    · change (s₂.folder.leaveScope s₂.scope.depth).bindingAt key = _
      rw [Folder.bindingAt_leaveScope, if_neg (by omega)]
    · have := List.length_pos_iff.2 hne
      change Γ.length = s₂.scope.depth - 1 + 1
      omega
  known hq key o ho := by
    refine h.known hq key o (Symbols.Furnished.overloads_of_fewer (fun key chain hk => ?_) ho)
    change (s₁.symbols.leaveDepth s₁.scope.depth).funcs.get? key = some chain at hk
    rw [(hs₁.get?_leaveDepth _ key).2.1] at hk
    split at hk
    · cases hk
    · exact hk
  accounted hq o ho := by
    obtain ⟨hsigned, hacc⟩ := h.accounted hq o ho
    refine ⟨hsigned, hacc.imp (hf _ _) fun hdeclared => ?_⟩
    obtain ⟨s, hs, hd⟩ := hdeclared
    exact ⟨s, (Branch.stmts_perm hcs).mem_iff.1 hs, hd⟩
  counts hq := (h.counts hq).perm ((Branch.allIn_perm hbs).map _)
  returns := hr

theorem rel_leave (h : P.link.Rel (es' ++ .enter :: es) s₁ s₂) (hes : Stmts es' is js) :
    P.link.rel (.scoped is js :: es) (leaveScope s₁) (leaveScope s₂) := by
  obtain ⟨hb, Γ', os, bs, cs, hst⟩ := h.rel
  obtain ⟨Γ, ds, xs, ys, bs, cs, rfl, rfl, rfl, hp, hl⟩ := hst.pieces.stmts hes
  cases hp with
  | cons hp hx =>
    cases hx
    refine ⟨hb.leave h.sound₁.symbols, _, os, _, _, hst.leave id h.sound₁.symbols
      h.sound₂.symbols ((List.reverse_perm xs).append_right _)
      ((List.reverse_perm ys).append_right _) hp.ne_nil (hp.cons (.block hl)) (fun _ _ hmem => ?_)
      fun hq => ?_⟩
    · refine List.mem_cons_of_mem _ ?_
      simpa using (List.mem_append.1 hmem).resolve_left (hes.not_function _ _)
    · rw [id, hst.returns hq, returns_append, returns_stmts hes]
      rfl

theorem rel_leaveBody (h : P.link.Rel (es' ++ .params type :: .enter :: es) s₁ s₂)
    (hes : Stmts es' is js) :
    P.link.rel (.bodied type is js :: es) (leaveScope (s₁.shift id List.tail))
      (leaveScope (s₂.shift id List.tail)) := by
  obtain ⟨hb, Γ', os, bs, cs, hst⟩ := h.rel
  obtain ⟨Γ, ds, xs, ys, bs, cs, rfl, rfl, rfl, hp, hl⟩ := hst.pieces.stmts hes
  cases hp with
  | cons hp hx =>
    cases hx
    cases hp with
    | cons hp hx =>
      cases hx
      rw [Sight.extend, List.append_nil] at hl
      refine ⟨hb.resign.leave h.sound₁.symbols, _, os, _, _, hst.leave List.tail h.sound₁.symbols
        h.sound₂.symbols ((List.reverse_perm xs).append_right _)
        ((List.reverse_perm ys).append_right _) hp.ne_nil (hp.cons (.bodied hl))
        (fun _ _ hmem => ?_) fun hq => ?_⟩
      · refine List.mem_cons_of_mem _ ?_
        simpa using (List.mem_append.1 hmem).resolve_left (hes.not_function _ _)
      · rw [hst.returns hq, returns_append, returns_stmts hes]
        rfl

/-- After a report it does not matter what a block holds. -/
theorem rel_abandon (h : P.link.Rel es s₁ s₂) (hpos : 0 < s₁.reports.reports.size) :
    P.link.rel es (leaveScope s₁) (leaveScope s₂) := by
  obtain ⟨hb, Γ, os, bs, cs, hst⟩ := h.rel
  exact ⟨hb.leave h.sound₁.symbols, Γ, os, bs, cs, hst.left, hst.right, hst.pieces,
    fun hq => absurd hq (not_quiet hpos), fun hq => absurd hq (not_quiet hpos),
    fun hq => absurd hq (not_quiet hpos), fun hq => absurd hq (not_quiet hpos),
    fun hq => absurd hq (not_quiet hpos)⟩

end Pass

end FrontEnd
