import FrontEnd.Proofs.Syntax.Paths
import Mathlib.Logic.Relation
import Mathlib.Order.WellFounded

/-!
What a release frees on any graph, with shared children, cycles and dead handles. The nodes freed
so far and those that can still be reached from the work list are together the nodes that could be
reached at the start.
-/

namespace FrontEnd

namespace Tree

variable {t u v : Tree} {id j root : NodeId} {ids ids' work children : List NodeId} {node : Node}

/-- The slot that a handle names, live or free. -/
def slot? (t : Tree) : NodeId → Option (Slot Node)
  | .expr id => t.exprs.slots[id.slot]?.map (.map .expr)
  | .stmt id => t.stmts.slots[id.slot]?.map (.map .stmt)

theorem node?_eq (t : Tree) (id : NodeId) : t.node? id = (t.slot? id).bind Slot.value? := by
  cases id with
  | expr id => cases h : t.exprs.slots[id.slot]? <;> simp [node?, slot?, Pool.get?, h]
  | stmt id => cases h : t.stmts.slots[id.slot]? <;> simp [node?, slot?, Pool.get?, h]

/-- The slots of these live nodes were freed, each once; every other slot is as it was, and so are
the lists of children. -/
structure Vacates (t : Tree) (ids : List NodeId) (u : Tree) : Prop where
  apart : ids.Nodup
  live : ∀ id, id ∈ ids → ∃ node, t.slot? id = some (.live node)
  freed : ∀ id, id ∈ ids → ∃ next, u.slot? id = some (.free next)
  others : ∀ id, id ∉ ids → u.slot? id = t.slot? id
  exprLists : u.exprLists = t.exprLists
  stmtLists : u.stmtLists = t.stmtLists

/-- A live node with a way down to it from one of these handles. -/
def Reaches (t : Tree) (ids : List NodeId) (id : NodeId) : Prop :=
  (∃ ks, t.Path ids ks id) ∧ ∃ node, t.node? id = some node

/-- One round of a release: the handle in front is taken off the work list. If it is live, its node
is freed and its children wait. -/
inductive Round : Tree × List NodeId → Tree × List NodeId → Prop
  | freed {t u : Tree} {id : NodeId} {children work : List NodeId} :
    t.free id = some (children, u) → Round (t, id :: work) (u, children ++ work)
  | passed {t : Tree} {id : NodeId} {work : List NodeId} :
    t.free id = none → Round (t, id :: work) (t, work)

/-! ### Reachable nodes -/

/-- A reachable node is one of the handles, or below one of them. -/
theorem reaches_iff (ids : List NodeId) : t.Reaches ids j ↔ ∃ root ∈ ids, ∃ node,
    t.node? root = some node ∧ (j = root ∨ t.Reaches (t.children node) j) := by
  constructor
  · rintro ⟨⟨ks, hp⟩, node, hn⟩
    cases hp with
    | start hk => exact ⟨j, List.mem_of_getElem? hk, node, hn, .inl rfl⟩
    | child hk hroot hp => exact ⟨_, List.mem_of_getElem? hk, _, hroot, .inr ⟨⟨_, hp⟩, node, hn⟩⟩
  · rintro ⟨root, hroot, node, hn, rfl | ⟨⟨ks, hp⟩, hlive⟩⟩
    · obtain ⟨k, hk⟩ := List.getElem?_of_mem hroot
      exact ⟨⟨_, .start hk⟩, node, hn⟩
    · obtain ⟨k, hk⟩ := List.getElem?_of_mem hroot
      exact ⟨⟨_, .child hk hn hp⟩, hlive⟩

theorem Reaches.mono (h : t.Reaches ids j) (hsub : ids ⊆ ids') : t.Reaches ids' j := by
  obtain ⟨root, hroot, hbelow⟩ := (reaches_iff _).1 h
  exact (reaches_iff _).2 ⟨root, hsub hroot, hbelow⟩

theorem not_reaches_nil : ¬ t.Reaches [] j := by
  rw [reaches_iff]
  simp

theorem reaches_append : t.Reaches (ids ++ ids') j ↔ t.Reaches ids j ∨ t.Reaches ids' j := by
  simp only [reaches_iff (ids ++ ids'), reaches_iff ids, reaches_iff ids',
    List.mem_append, or_and_right, exists_or]

theorem reaches_cons_of_some (h : t.node? id = some node) :
    t.Reaches (id :: ids) j ↔ j = id ∨ t.Reaches (t.children node) j ∨ t.Reaches ids j := by
  rw [← List.singleton_append, reaches_append, reaches_iff [id]]
  simp [h, or_assoc]

theorem reaches_cons_of_none (h : t.node? id = none) :
    t.Reaches (id :: ids) j ↔ t.Reaches ids j := by
  rw [← List.singleton_append, reaches_append, reaches_iff [id]]
  simp [h]

/-- Induction along a way down, from its end. -/
theorem Reaches.induct {P : List NodeId → Prop} (here : ∀ ids, j ∈ ids → P ids)
    (below : ∀ ids root node, root ∈ ids → t.node? root = some node → P (t.children node) → P ids)
    (h : t.Reaches ids j) : P ids := by
  obtain ⟨⟨ks, hp⟩, -⟩ := h
  induction hp with
  | start hk => exact here _ (List.mem_of_getElem? hk)
  | child hk hn _ ih => exact below _ _ _ (List.mem_of_getElem? hk) hn (ih here)

/-! ### One node -/

theorem free_eq_none : t.free id = none ↔ t.node? id = none := by
  cases id <;> simp [free, node?, Pool.dealloc_eq_none]

theorem vacates_singleton (hlive : ∃ node, t.slot? id = some (.live node))
    (hfree : ∃ next, u.slot? id = some (.free next))
    (hsame : ∀ j, j ≠ id → u.slot? j = t.slot? j) (hexprs : u.exprLists = t.exprLists)
    (hstmts : u.stmtLists = t.stmtLists) : t.Vacates [id] u := by
  refine ⟨by simp, ?_, ?_, ?_, hexprs, hstmts⟩
  · intro j hj
    obtain rfl := List.mem_singleton.1 hj
    exact hlive
  · intro j hj
    obtain rfl := List.mem_singleton.1 hj
    exact hfree
  · intro j hj
    exact hsame j (by simpa using hj)

/-- Freeing a node takes one slot, and names the children of the node. -/
theorem vacates_free (h : t.free id = some (children, u)) :
    t.Vacates [id] u ∧ ∃ node, t.node? id = some node ∧ children = (t.children node).reverse := by
  cases id with
  | expr i =>
    obtain ⟨⟨e, exprs⟩, hd, he⟩ := Option.map_eq_some_iff.1 h
    obtain ⟨rfl, rfl⟩ := Prod.mk.inj he
    obtain ⟨hlive, ⟨next, hfree⟩, hsame⟩ := Pool.slots_of_dealloc hd
    refine ⟨vacates_singleton ⟨.expr e, by simp [slot?, hlive]⟩
      ⟨next, by simp [slot?, hfree]⟩ ?_ rfl rfl, .expr e, by simp [node?, Pool.get?_of_dealloc hd],
      by simp [Tree.children]⟩
    intro j hj
    cases j with
    | stmt j => rfl
    | expr j =>
      have hne : j.slot ≠ i.slot := fun hslot => hj (by cases i; cases j; simp_all)
      simp only [slot?, hsame _ hne]
  | stmt i =>
    obtain ⟨⟨s, stmts⟩, hd, he⟩ := Option.map_eq_some_iff.1 h
    obtain ⟨rfl, rfl⟩ := Prod.mk.inj he
    obtain ⟨hlive, ⟨next, hfree⟩, hsame⟩ := Pool.slots_of_dealloc hd
    refine ⟨vacates_singleton ⟨.stmt s, by simp [slot?, hlive]⟩
      ⟨next, by simp [slot?, hfree]⟩ ?_ rfl rfl, .stmt s, by simp [node?, Pool.get?_of_dealloc hd],
      by simp [Tree.children]⟩
    intro j hj
    cases j with
    | expr j => rfl
    | stmt j =>
      have hne : j.slot ≠ i.slot := fun hslot => hj (by cases i; cases j; simp_all)
      simp only [slot?, hsame _ hne]

theorem Vacates.refl (t : Tree) : t.Vacates [] t where
  apart := List.nodup_nil
  live _ hid := absurd hid List.not_mem_nil
  freed _ hid := absurd hid List.not_mem_nil
  others _ _ := rfl
  exprLists := rfl
  stmtLists := rfl

/-- What a second release frees was live when it started, so it is none of what the first freed. -/
theorem Vacates.trans (h : t.Vacates ids u) (h' : u.Vacates ids' v) :
    t.Vacates (ids ++ ids') v where
  apart := by
    refine List.nodup_append.2 ⟨h.apart, h'.apart, ?_⟩
    rintro id hid _ hid' rfl
    obtain ⟨next, hfree⟩ := h.freed id hid
    obtain ⟨node, hlive⟩ := h'.live id hid'
    cases hfree.symm.trans hlive
  live id hid := by
    by_cases hmem : id ∈ ids
    · exact h.live id hmem
    · rw [← h.others id hmem]
      exact h'.live id ((List.mem_append.1 hid).resolve_left hmem)
  freed id hid := by
    by_cases hmem : id ∈ ids'
    · exact h'.freed id hmem
    · rw [h'.others id hmem]
      exact h.freed id ((List.mem_append.1 hid).resolve_right hmem)
  others id hid := by
    rw [List.mem_append, not_or] at hid
    exact (h'.others id hid.2).trans (h.others id hid.1)
  exprLists := h'.exprLists.trans h.exprLists
  stmtLists := h'.stmtLists.trans h.stmtLists

theorem Vacates.node?_eq_none (h : t.Vacates ids u) (hid : id ∈ ids) : u.node? id = none := by
  obtain ⟨next, hfree⟩ := h.freed id hid
  simp [node?_eq, hfree]

theorem Vacates.node?_eq (h : t.Vacates ids u) (hid : id ∉ ids) : u.node? id = t.node? id := by
  rw [Tree.node?_eq, Tree.node?_eq, h.others id hid]

theorem Vacates.node?_of_some (h : t.Vacates ids u) (hn : u.node? id = some node) :
    id ∉ ids ∧ t.node? id = some node := by
  have hid : id ∉ ids := by
    intro hid
    rw [h.node?_eq_none hid] at hn
    cases hn
  exact ⟨hid, (h.node?_eq hid).symm.trans hn⟩

theorem Vacates.children_eq (h : t.Vacates ids u) (node : Node) :
    u.children node = t.children node := by
  obtain ⟨-, -, -, -, hexprs, hstmts⟩ := h
  cases node <;>
    simp only [children, exprChildren, stmtChildren, exprList, stmtList, hexprs, hstmts]

/-! ### One round -/

theorem Vacates.reaches (h : t.Vacates ids' u) (hj : u.Reaches ids j) : t.Reaches ids j := by
  obtain ⟨node, hlive⟩ := hj.2
  refine hj.induct (P := fun ids => t.Reaches ids j) ?_ ?_
  · intro ids hmem
    exact (reaches_iff _).2 ⟨j, hmem, node, (h.node?_of_some hlive).2, .inl rfl⟩
  · intro ids root content hroot hn ih
    rw [h.children_eq] at ih
    exact (reaches_iff _).2 ⟨root, hroot, content, (h.node?_of_some hn).2, .inr ih⟩

/-- What could be reached before a node was freed is that node, or can be reached without it, from
where it could be reached before or from the children of that node. -/
theorem Vacates.reaches_cases (h : t.Vacates [id] u) (hid : t.node? id = some node)
    (hj : t.Reaches ids j) : j = id ∨ u.Reaches ids j ∨ u.Reaches (t.children node) j := by
  obtain ⟨last, hlive⟩ := hj.2
  have hkeep {root : NodeId} {content : Node} (hn : t.node? root = some content)
      (hne : root ≠ id) : u.node? root = some content :=
    (h.node?_eq (by simpa using hne)).trans hn
  refine hj.induct (P := fun ids => j = id ∨ u.Reaches ids j ∨ u.Reaches (t.children node) j) ?_ ?_
  · intro ids hmem
    by_cases hne : j = id
    · exact .inl hne
    · exact .inr (.inl ((reaches_iff _).2 ⟨j, hmem, last, hkeep hlive hne, .inl rfl⟩))
  · intro ids root content hroot hn ih
    rcases ih with heq | hbelow | hfreed
    · exact .inl heq
    · by_cases hne : root = id
      · subst hne
        obtain rfl := Option.some.inj (hn.symm.trans hid)
        exact .inr (.inr hbelow)
      · rw [← h.children_eq] at hbelow
        exact .inr (.inl ((reaches_iff _).2 ⟨root, hroot, content, hkeep hn hne, .inr hbelow⟩))
    · exact .inr (.inr hfreed)

/-- When a node is freed and its children wait, the same nodes remain to be freed. -/
theorem reaches_freed (h : t.free id = some (children, u)) :
    t.Reaches (id :: work) j ↔ j = id ∨ u.Reaches (children ++ work) j := by
  obtain ⟨hv, node, hn, rfl⟩ := vacates_free h
  have hdead : u.node? id = none := hv.node?_eq_none List.mem_cons_self
  have hchildren : u.Reaches (t.children node).reverse j ↔ u.Reaches (t.children node) j :=
    ⟨fun hj => hj.mono (List.reverse_subset.2 (List.Subset.refl _)),
      fun hj => hj.mono (List.subset_reverse.2 (List.Subset.refl _))⟩
  rw [reaches_append, hchildren]
  constructor
  · intro hj
    rcases hv.reaches_cases hn hj with heq | hrest | hbelow
    · exact .inl heq
    · exact .inr (.inr ((reaches_cons_of_none hdead).1 hrest))
    · exact .inr (.inl hbelow)
  · intro hj
    rw [reaches_cons_of_some hn]
    exact hj.imp_right (Or.imp hv.reaches hv.reaches)

/-- A round that frees a node leaves fewer live nodes; one that does not leaves fewer handles. -/
theorem wellFounded_round : WellFounded fun next round => Round round next := by
  refine Subrelation.wf (r := InvImage (Prod.Lex (· < ·) (· < ·))
    fun s : Tree × List NodeId => (s.1.liveSlots, s.2.length)) ?_
    (InvImage.wf _ (Prod.lex Nat.lt_wfRel Nat.lt_wfRel).wf)
  rintro next round hround
  cases hround with
  | freed h =>
    have hfewer := liveSlots_free h
    exact Prod.Lex.left _ _ (Nat.lt_of_succ_le hfewer.le)
  | passed h => exact Prod.Lex.right _ (by simp)

/-! ### All rounds -/

/-- The rounds of a release go on until nothing waits, and free what can be reached. -/
theorem releaseAll_frees (t : Tree) (k : Nat) (work : List NodeId) :
    ∃ freed, Relation.ReflTransGen Round (t, work) ((t.releaseAll k work).2, []) ∧
      (t.releaseAll k work).1 = k + freed.length ∧ (∀ j, j ∈ freed ↔ t.Reaches work j) ∧
      t.Vacates freed (t.releaseAll k work).2 := by
  induction t, k, work using releaseAll.induct with
  | case1 t k =>
    rw [releaseAll]
    exact ⟨[], .refl, rfl, by simp [not_reaches_nil], .refl t⟩
  | case2 t k id work children u hf ih =>
    obtain ⟨freed, hrounds, hcount, hfreed, hv⟩ := ih
    rw [releaseAll_of_some hf]
    refine ⟨id :: freed, .head (.freed hf) hrounds, ?_, ?_, (vacates_free hf).1.trans hv⟩
    · rw [hcount, List.length_cons]
      omega
    · intro j
      rw [List.mem_cons, hfreed, reaches_freed hf]
  | case3 t k id work hf ih =>
    obtain ⟨freed, hrounds, hcount, hfreed, hv⟩ := ih
    rw [releaseAll_of_none hf]
    refine ⟨freed, .head (.passed hf) hrounds, hcount, ?_, hv⟩
    intro j
    rw [hfreed, reaches_cons_of_none (free_eq_none.1 hf)]

/-- Two nodes, each the child of the other. -/
example : ((ofExprs [.new (.group ⟨1⟩) ⟨0, 0⟩, .new (.unary .neg ⟨0⟩) ⟨0, 0⟩]).release
    (.expr ⟨1⟩)).1 = 2 := by cbv

end Tree

end FrontEnd
