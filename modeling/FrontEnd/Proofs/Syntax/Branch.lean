import FrontEnd.Proofs.Storage.PoolContents
import FrontEnd.Syntax.Tree

/-! Nodes read off a tree with everything below them, and forests of such branches. -/

namespace FrontEnd

/-- What a handle stands for. -/
inductive Node
  | expr (e : Expr)
  | stmt (s : Stmt)
  deriving DecidableEq, Repr

/-- A node, its handle, and the branches below it, the first child first. -/
structure Branch where
  root : NodeId
  node : Node
  parts : List Branch

namespace Branch

variable {b c x : Branch} {bs cs xs ys : List Branch} {id : NodeId} {n : Node}

mutual

/-- The branch itself and every branch inside it. -/
def all : Branch → List Branch
  | mk root node parts => mk root node parts :: allIn parts

def allIn : List Branch → List Branch
  | [] => []
  | b :: bs => all b ++ allIn bs

end

@[simp] theorem allIn_nil : allIn [] = [] := by rw [allIn]

@[simp] theorem allIn_cons : allIn (b :: bs) = b.all ++ allIn bs := by rw [allIn]

theorem all_mk : (mk id n bs).all = mk id n bs :: allIn bs := by rw [all]

theorem all_eq (b : Branch) : b.all = b :: allIn b.parts := by
  cases b
  exact all_mk

@[simp] theorem allIn_append : allIn (xs ++ ys) = allIn xs ++ allIn ys := by
  induction xs with
  | nil => simp
  | cons x xs ih => simp [ih]

theorem mem_all_self (b : Branch) : b ∈ b.all := by simp [all_eq b]

theorem mem_allIn : c ∈ allIn bs ↔ ∃ b ∈ bs, c ∈ b.all := by
  induction bs with
  | nil => simp
  | cons b bs ih => simp [ih]

theorem allIn_perm (h : xs.Perm ys) : (allIn xs).Perm (allIn ys) := by
  induction h with
  | nil => exact .refl _
  | cons x _ ih =>
    simp only [allIn_cons]
    exact ih.append_left _
  | swap x y l =>
    simp only [allIn_cons, ← List.append_assoc]
    exact List.perm_append_comm.append_right _
  | trans _ _ ih ih' => exact ih.trans ih'

theorem allIn_sublist (h : xs.Sublist ys) : (allIn xs).Sublist (allIn ys) := by
  induction h with
  | slnil => simp
  | cons b _ ih =>
    simp only [allIn_cons]
    exact ih.trans (List.sublist_append_right ..)
  | cons_cons b _ ih =>
    simp only [allIn_cons]
    exact ih.append_left _

/-- Induction from the leaves up. -/
theorem induct {P : Branch → Prop}
    (mk : ∀ root node parts, (∀ b ∈ parts, P b) → P (mk root node parts)) (b : Branch) : P b := by
  refine @Branch.rec P (fun bs => ∀ b ∈ bs, P b) mk ?_ ?_ b
  · intro b hb
    cases hb
  · intro b bs hb hbs c hc
    rcases List.mem_cons.1 hc with rfl | hc
    · exact hb
    · exact hbs c hc

theorem all_trans (hb : b ∈ c.all) (hx : x ∈ b.all) : x ∈ c.all := by
  induction c using induct with
  | mk id n parts ih =>
    rw [all_mk] at hb ⊢
    rcases List.mem_cons.1 hb with rfl | hb
    · rwa [all_mk] at hx
    · obtain ⟨d, hd, hb⟩ := mem_allIn.1 hb
      exact List.mem_cons_of_mem _ (mem_allIn.2 ⟨d, hd, ih d hd hb⟩)

theorem all_sublist (hx : x ∈ allIn bs) : x.all.Sublist (allIn bs) := by
  obtain ⟨b, hb, hx⟩ := mem_allIn.1 hx
  refine List.Sublist.trans ?_ (allIn_sublist (List.singleton_sublist.2 hb))
  rw [allIn_cons, allIn_nil, List.append_nil]
  clear hb
  induction b using induct with
  | mk root node parts ih =>
    rw [all_mk] at hx ⊢
    rcases List.mem_cons.1 hx with rfl | hx
    · exact .refl _
    · obtain ⟨p, hp, hx⟩ := mem_allIn.1 hx
      refine (ih p hp hx).trans (List.Sublist.cons _ ?_)
      simpa using allIn_sublist (List.singleton_sublist.2 hp)

/-- Handles of all nodes. -/
def roots (bs : List Branch) : List NodeId := (allIn bs).map root

end Branch

namespace Tree

variable {t u : Tree} {b c x : Branch} {bs cs xs ys : List Branch} {id : NodeId} {node : Node}

/-- What a handle stands for, if it is live. -/
def node? (t : Tree) : NodeId → Option Node
  | .expr id => (t.exprs.get? id.slot).map .expr
  | .stmt id => (t.stmts.get? id.slot).map .stmt

theorem expr_eq_ok {id : ExprId} {e : Expr} :
    t.expr id = .ok e ↔ t.node? (.expr id) = some (.expr e) := by
  simp [Tree.expr, node?, Pool.read_eq_ok]

/-- Children of a node, the first first. -/
def children (t : Tree) : Node → List NodeId
  | .expr e => (t.exprChildren e.kind).reverse
  | .stmt s => (t.stmtChildren s.kind).reverse

/-- The list that a node refers to lies inside the table of lists. -/
def Covers (t : Tree) : Node → Prop
  | .expr e =>
    match e.kind with
    | .call _ args _ => args.start + args.len ≤ t.exprLists.size
    | _ => True
  | .stmt s =>
    match s.kind with
    | .block body | .namesp _ body => body.start + body.len ≤ t.stmtLists.size
    | _ => True

/-- The tree agrees with a branch about its root. -/
structure Stores (t : Tree) (b : Branch) : Prop where
  node : t.node? b.root = some b.node
  covers : t.Covers b.node
  children : t.children b.node = b.parts.map Branch.root

def Sound (t : Tree) : Prop := t.exprs.Sound ∧ t.stmts.Sound

/-- A forest of live nodes, in which no node stands twice. -/
structure Holds (t : Tree) (bs : List Branch) : Prop where
  sound : t.Sound
  stores : ∀ b ∈ Branch.allIn bs, t.Stores b
  apart : (Branch.roots bs).Nodup

/-- These are the roots of different branches. -/
def Owns (t : Tree) (ids : List NodeId) : Prop :=
  ∃ bs, t.Holds bs ∧ ids.Sublist (bs.map Branch.root)

/-- Both pools are sound, and all tables agree but for one node. -/
structure Places (t : Tree) (id : NodeId) (content : Option Node) (u : Tree) : Prop where
  sound : u.Sound
  here : u.node? id = content
  elsewhere : ∀ j, j ≠ id → u.node? j = t.node? j
  exprLists : u.exprLists = t.exprLists
  stmtLists : u.stmtLists = t.stmtLists

/-! ### Forests -/

theorem Sound.holds_nil (h : t.Sound) : t.Holds [] := ⟨h, by simp, by simp [Branch.roots]⟩

theorem Holds.perm (h : t.Holds bs) (hp : bs.Perm cs) : t.Holds cs where
  sound := h.sound
  stores b hb := h.stores b ((Branch.allIn_perm hp).mem_iff.2 hb)
  apart := ((Branch.allIn_perm hp).map _).nodup_iff.1 h.apart

theorem Holds.sublist (h : t.Holds bs) (hs : cs.Sublist bs) : t.Holds cs where
  sound := h.sound
  stores b hb := h.stores b ((Branch.allIn_sublist hs).subset hb)
  apart := h.apart.sublist ((Branch.allIn_sublist hs).map _)

theorem Holds.tail (h : t.Holds (b :: bs)) : t.Holds bs := h.sublist (List.sublist_cons_self b bs)

theorem Holds.right (h : t.Holds (xs ++ bs)) : t.Holds bs :=
  h.sublist (List.sublist_append_right xs bs)

theorem Holds.left (h : t.Holds (xs ++ bs)) : t.Holds xs :=
  h.sublist (List.sublist_append_left xs bs)

theorem Holds.inner (h : t.Holds bs) (hx : x ∈ Branch.allIn bs) : t.Holds [x] := by
  have hsub : (Branch.allIn [x]).Sublist (Branch.allIn bs) := by
    rw [Branch.allIn_cons, Branch.allIn_nil, List.append_nil]
    exact Branch.all_sublist hx
  exact ⟨h.sound, fun b hb => h.stores b (hsub.subset hb), h.apart.sublist (hsub.map _)⟩

theorem Holds.swap (h : t.Holds (x :: b :: bs)) : t.Holds (b :: x :: bs) := h.perm (.swap b x bs)

theorem Holds.owns (h : t.Holds bs) : t.Owns (bs.map Branch.root) := ⟨bs, h, .refl _⟩

theorem Owns.sublist {ids ids' : List NodeId} (h : t.Owns ids) (hs : ids'.Sublist ids) :
    t.Owns ids' := by
  obtain ⟨bs, hb, hids⟩ := h
  exact ⟨bs, hb, hs.trans hids⟩

theorem Holds.root (h : t.Holds (b :: bs)) : t.Stores b :=
  h.stores b (by simp [Branch.mem_all_self])

theorem Holds.expr {id : ExprId} {e : Expr} (h : t.Holds (.mk (.expr id) (.expr e) xs :: bs)) :
    t.expr id = .ok e := by
  have := h.root.node
  simp only [node?, Option.map_eq_some_iff] at this
  obtain ⟨e, he, heq⟩ := this
  cases heq
  exact Pool.read_eq_ok.2 he

theorem Holds.exists_expr {id : ExprId} (h : t.Holds (b :: bs)) (hb : b.root = .expr id) :
    ∃ e xs, b = ⟨.expr id, .expr e, xs⟩ := by
  obtain ⟨root, node, xs⟩ := b
  obtain rfl : root = .expr id := hb
  obtain ⟨e, -, rfl⟩ := Option.map_eq_some_iff.1 h.root.node
  exact ⟨e, xs, rfl⟩

/-- A branch may be taken apart. -/
theorem Holds.opened (h : t.Holds (.mk id node xs :: bs)) :
    t.Holds (xs ++ bs) ∧ id ∉ Branch.roots (xs ++ bs) := by
  have hall : Branch.allIn (.mk id node xs :: bs) = .mk id node xs :: Branch.allIn (xs ++ bs) := by
    simp [Branch.all_mk]
  have hnd := h.apart
  rw [Branch.roots, hall, List.map_cons, List.nodup_cons] at hnd
  exact ⟨⟨h.sound, fun b hb => h.stores b (hall ▸ List.mem_cons_of_mem _ hb), hnd.2⟩, hnd.1⟩

/-- A branch is determined by its handle. -/
theorem eq_of_stores (hb : ∀ x ∈ b.all, t.Stores x) (hc : ∀ x ∈ c.all, t.Stores x)
    (h : b.root = c.root) : b = c := by
  induction b using Branch.induct generalizing c with
  | mk root node parts ih =>
    obtain ⟨root', node', parts'⟩ := c
    obtain rfl : root = root' := h
    have hstores := hb _ (Branch.mem_all_self _)
    have hstores' := hc _ (Branch.mem_all_self _)
    obtain rfl : node = node' := Option.some.inj (hstores.node.symm.trans hstores'.node)
    have hparts : parts.map Branch.root = parts'.map Branch.root :=
      hstores.children.symm.trans hstores'.children
    simp only [Branch.all_mk, List.forall_mem_cons] at hb hc
    suffices parts = parts' by rw [this]
    clear hstores hstores'
    obtain ⟨-, hb⟩ := hb
    obtain ⟨-, hc⟩ := hc
    induction parts generalizing parts' with
    | nil => exact (List.map_eq_nil_iff.1 hparts.symm).symm
    | cons p parts ihp =>
      obtain ⟨p', parts', rfl, hroot, hroots⟩ := List.map_eq_cons_iff.1 hparts.symm
      simp only [Branch.allIn_cons, List.forall_mem_append] at hb hc
      rw [ih p List.mem_cons_self hb.1 hc.1 hroot.symm,
        ihp (fun q hq => ih q (List.mem_cons_of_mem _ hq)) parts' hroots.symm hb.2 hc.2]

theorem Holds.eq_of_roots (h : t.Holds bs) (h' : t.Holds cs)
    (hroots : bs.map Branch.root = cs.map Branch.root) : bs = cs := by
  induction bs generalizing cs with
  | nil => exact (List.map_eq_nil_iff.1 hroots.symm).symm
  | cons b bs ih =>
    obtain ⟨c, cs, rfl, hroot, hrest⟩ := List.map_eq_cons_iff.1 hroots.symm
    have hall {b : Branch} {bs : List Branch} (h : t.Holds (b :: bs)) (x : Branch)
      (hx : x ∈ b.all) :
        t.Stores x := h.stores x (by simp [hx])
    rw [eq_of_stores (hall h) (hall h') hroot.symm, ih h.tail h'.tail hrest.symm]

theorem Holds.eq_of_root (h : t.Holds [b]) (h' : t.Holds [c]) (hroot : b.root = c.root) :
    b = c := by
  simpa using h.eq_of_roots h' (by simp [hroot])

/-! ### Changes at one place -/

theorem children_congr (hc : t.Covers node)
    (he : ∃ more, u.exprLists = t.exprLists ++ more)
    (hs : ∃ more, u.stmtLists = t.stmtLists ++ more) :
    u.Covers node ∧ u.children node = t.children node := by
  obtain ⟨more, he⟩ := he
  obtain ⟨more', hs⟩ := hs
  have hx : ∀ r : ListRange, r.start + r.len ≤ t.exprLists.size → u.exprList r = t.exprList r := by
    intro r hr
    simp only [exprList, he, Array.extract_append, Array.toList_append]
    simp [show r.start + r.len - t.exprLists.size = 0 by omega]
  have hy : ∀ r : ListRange, r.start + r.len ≤ t.stmtLists.size → u.stmtList r = t.stmtList r := by
    intro r hr
    simp only [stmtList, hs, Array.extract_append, Array.toList_append]
    simp [show r.start + r.len - t.stmtLists.size = 0 by omega]
  cases node with
  | expr e =>
    obtain ⟨kind, _, _, _, _⟩ := e
    cases kind <;> simp_all [Covers, children, exprChildren]
    omega
  | stmt s =>
    obtain ⟨kind, _⟩ := s
    cases kind with
    | block body | namesp name body =>
      simp_all [Covers, children, stmtChildren]
      omega
    | ret value => cases value <;> simp [Covers, children, stmtChildren]
    | varDecl name type init isConst => cases init <;> simp [Covers, children, stmtChildren]
    | funcDecl name mangled type body isNative =>
      cases body <;> simp [Covers, children, stmtChildren]
    | _ => simp [Covers, children, stmtChildren]

theorem Stores.congr (h : t.Stores b) (hn : u.node? b.root = t.node? b.root)
    (he : ∃ more, u.exprLists = t.exprLists ++ more)
    (hs : ∃ more, u.stmtLists = t.stmtLists ++ more) : u.Stores b := by
  obtain ⟨hc, hch⟩ := children_congr h.covers he hs
  exact ⟨hn.trans h.node, hc, hch.trans h.children⟩

theorem Places.same_lists {content : Option Node} (h : t.Places id content u) (n : Node) :
    (u.Covers n ↔ t.Covers n) ∧ u.children n = t.children n := by
  obtain ⟨-, -, -, he, hs⟩ := h
  cases t
  cases u
  obtain rfl := he
  obtain rfl := hs
  cases n <;> exact ⟨Iff.rfl, rfl⟩

theorem Holds.elsewhere {content : Option Node} (h : t.Holds bs) (hid : id ∉ Branch.roots bs)
    (hp : t.Places id content u) : u.Holds bs where
  sound := hp.sound
  stores b hb := by
    have hne : b.root ≠ id := by
      intro he
      exact hid (he ▸ List.mem_map_of_mem hb)
    exact (h.stores b hb).congr (hp.elsewhere _ hne) ⟨#[], by simp [hp.exprLists]⟩
      ⟨#[], by simp [hp.stmtLists]⟩
  apart := h.apart

/-- Branches become the children of a node that is put elsewhere. -/
theorem Holds.closed (h : t.Holds (xs ++ bs)) (hid : id ∉ Branch.roots (xs ++ bs))
    (hp : t.Places id (some node) u) (hc : t.Covers node)
    (hch : t.children node = xs.map Branch.root) : u.Holds (.mk id node xs :: bs) := by
  have hu := h.elsewhere hid hp
  have hall : Branch.allIn (.mk id node xs :: bs) = .mk id node xs :: Branch.allIn (xs ++ bs) := by
    simp [Branch.all_mk]
  refine ⟨hp.sound, fun b hb => ?_, ?_⟩
  · rw [hall] at hb
    rcases List.mem_cons.1 hb with rfl | hb
    · obtain ⟨hcov, hchild⟩ := hp.same_lists node
      exact ⟨hp.here, hcov.2 hc, hchild.trans hch⟩
    · exact hu.stores b hb
  · rw [Branch.roots, hall, List.map_cons, List.nodup_cons]
    exact ⟨hid, h.apart⟩

theorem Holds.notMem_roots (h : t.Holds bs) (hid : t.node? id = none) :
    id ∉ Branch.roots bs := by
  intro hm
  obtain ⟨b, hb, rfl⟩ := List.mem_map.1 hm
  simp [(h.stores b hb).node] at hid

/-- Longer tables of lists show the same branches. -/
theorem Holds.lists (h : t.Holds bs) (he : u.exprs = t.exprs) (hs : u.stmts = t.stmts)
    (hel : ∃ more, u.exprLists = t.exprLists ++ more)
    (hsl : ∃ more, u.stmtLists = t.stmtLists ++ more) : u.Holds bs where
  sound := by simpa only [Sound, he, hs] using h.sound
  stores b hb := by
    refine (h.stores b hb).congr ?_ hel hsl
    cases b.root <;> simp [node?, he, hs]
  apart := h.apart

end Tree

end FrontEnd
