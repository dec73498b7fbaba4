import FrontEnd.Proofs.Syntax.Alike
import Mathlib.Data.List.Induction

/-!
What checking writes into a tree: the types of expressions and the link names of calls. Everything
else of the tree is bare of marks, and writing the same marks again changes nothing.
-/

namespace FrontEnd

def ExprKind.linkedTo (target : Name) : ExprKind → ExprKind
  | .call callee args _ => .call callee args (some target)
  | k => k

/-- The expression without what checking writes into it. -/
def Expr.bare (e : Expr) : Expr := { e with kind := e.kind.unlinked, type := .invalid }

inductive Mark
  | typed (type : TypeId)
  | linked (target : Name)

namespace Mark

variable {ms : List Mark} {m : Mark} {e : Expr} {n n' : Name} {k : ExprKind}

def on : Mark → Expr → Expr
  | .typed type, e => { e with type }
  | .linked target, e => { e with kind := e.kind.linkedTo target }

def type? : Mark → Option TypeId
  | .typed type => some type
  | .linked _ => none

def target? : Mark → Option Name
  | .typed _ => none
  | .linked target => some target

/-- One mark after the other. -/
def stamp (ms : List Mark) (e : Expr) : Expr := ms.foldl (fun e m => m.on e) e

/-! ### Marks in one node -/

theorem linkedTo_linkedTo : (k.linkedTo n).linkedTo n' = k.linkedTo n' := by cases k <;> rfl

@[simp] theorem bare_on : (m.on e).bare = e.bare := by
  cases m with
  | typed => rfl
  | linked target =>
    obtain ⟨kind, _⟩ := e
    cases kind <;> rfl

theorem stamp_append (ms ns : List Mark) : stamp (ms ++ ns) e = stamp ns (stamp ms e) :=
  List.foldl_append

/-- The last mark of each sort is what is seen. -/
theorem stamp_eq (ms : List Mark) (e : Expr) : stamp ms e =
    { e with
      type := (ms.reverse.findSome? type?).getD e.type
      kind := (ms.reverse.findSome? target?).elim e.kind e.kind.linkedTo } := by
  induction ms using List.reverseRecOn with
  | nil => rfl
  | append_singleton ms m ih =>
    rw [stamp_append, ih, List.reverse_append]
    cases m with
    | typed type => rfl
    | linked target =>
      simp only [List.reverse_singleton, List.singleton_append, List.findSome?_cons, target?,
        type?, Option.elim_some]
      cases ms.reverse.findSome? target? with
      | none => rfl
      | some n => exact congrArg (Expr.mk · _ _ _ _) linkedTo_linkedTo

theorem stamp_stamp (ms : List Mark) (e : Expr) : stamp ms (stamp ms e) = stamp ms e := by
  simp only [stamp_eq]
  cases ms.reverse.findSome? type? <;> cases ms.reverse.findSome? target? <;>
    first | rfl | exact congrArg (Expr.mk · _ _ _ _) linkedTo_linkedTo

/-- The type of a node in which one was written is one of those that were. -/
theorem type_stamp {type : TypeId} (h : .typed type ∈ ms) : .typed (stamp ms e).type ∈ ms := by
  rw [stamp_eq]
  cases hlast : ms.reverse.findSome? type? with
  | none =>
    have := List.findSome?_eq_none_iff.1 hlast (.typed type) (List.mem_reverse.2 h)
    cases this
  | some last =>
    obtain ⟨m, hm, hl⟩ := List.exists_of_findSome?_eq_some hlast
    cases m <;> cases hl
    exact List.mem_reverse.1 hm

/-- Expressions that are the same but for marks. -/
theorem of_bare {e' : Expr} (h : e'.bare = e.bare) : e'.span = e.span ∧ (e'.kind = e.kind ∨
    ∃ callee args mangled mangled', e.kind = .call callee args mangled ∧
      e'.kind = .call callee args mangled') := by
  obtain ⟨kind, _⟩ := e
  obtain ⟨kind', _⟩ := e'
  simp only [Expr.bare, Expr.mk.injEq] at h
  refine ⟨h.2.2.2.2, ?_⟩
  cases kind <;> cases kind' <;> cases h.1 <;> first
    | exact .inl rfl
    | exact .inr ⟨_, _, _, _, rfl, rfl⟩

end Mark

/-! ### Marks in a tree -/

namespace Tree

variable {t u : Tree} {ms ns : List (ExprId × Mark)} {id k : ExprId} {e : Expr} {m : Mark}

/-- Changes an expression where it stands; there may be none. -/
def modifyExpr (t : Tree) (id : ExprId) (f : Expr → Expr) : Tree :=
  { t with exprs := { t.exprs with slots := t.exprs.slots.modify id.slot (Slot.map f) } }

def mark (t : Tree) (id : ExprId) (m : Mark) : Tree := t.modifyExpr id m.on

def marks (t : Tree) (ms : List (ExprId × Mark)) : Tree := ms.foldl (fun t m => t.mark m.1 m.2) t

/-- The tree without what checking writes into it. -/
def bare (t : Tree) : Tree :=
  { t with exprs := { t.exprs with slots := t.exprs.slots.map (Slot.map Expr.bare) } }

/-- The marks that are meant for one node. -/
def marksAt (ms : List (ExprId × Mark)) (slot : Nat) : List Mark :=
  (ms.filter (·.1.slot = slot)).map Prod.snd

theorem marks_append (t : Tree) (ms ns : List (ExprId × Mark)) :
    t.marks (ms ++ ns) = (t.marks ms).marks ns :=
  List.foldl_append

theorem slots_mark (t : Tree) (id : ExprId) (m : Mark) (i : Nat) :
    (t.mark id m).exprs.slots[i]? =
      t.exprs.slots[i]?.map fun s => if id.slot = i then Slot.map m.on s else s := by
  simp only [mark, modifyExpr, Array.getElem?_modify]
  split
  · rfl
  · simp

@[simp] theorem bare_mark : (t.mark id m).bare = t.bare := by
  have hslots : (t.mark id m).exprs.slots.map (Slot.map Expr.bare) =
      t.exprs.slots.map (Slot.map Expr.bare) := by
    refine Array.ext_getElem? fun i => ?_
    rw [Array.getElem?_map, Array.getElem?_map, slots_mark, Option.map_map]
    refine congrArg (Option.map · _) (funext fun s => ?_)
    cases s <;> simp only [Function.comp] <;> split <;> simp [Slot.map]
  rw [bare, hslots]
  rfl

@[simp] theorem bare_marks : (t.marks ms).bare = t.bare := by
  induction ms generalizing t with
  | nil => rfl
  | cons m ms ih => exact ih.trans bare_mark

theorem slots_marks (t : Tree) (ms : List (ExprId × Mark)) (i : Nat) :
    (t.marks ms).exprs.slots[i]? =
      t.exprs.slots[i]?.map (Slot.map (Mark.stamp (marksAt ms i))) := by
  induction ms generalizing t with
  | nil =>
    cases h : t.exprs.slots[i]? with
    | none => simp [marks, h]
    | some s => cases s <;> simp [marks, h, Slot.map, Mark.stamp, marksAt]
  | cons m ms ih =>
    rw [marks, List.foldl_cons, ← marks, ih, slots_mark, Option.map_map]
    refine congrArg (Option.map · _) (funext fun s => ?_)
    by_cases hi : m.1.slot = i <;> cases s <;> simp [marksAt, hi, Slot.map, Mark.stamp]

/-- Writing the same marks again changes nothing. -/
theorem marks_marks (t : Tree) (ms : List (ExprId × Mark)) :
    (t.marks ms).marks ms = t.marks ms := by
  have hslots : ((t.marks ms).marks ms).exprs.slots = (t.marks ms).exprs.slots := by
    refine Array.ext_getElem? fun i => ?_
    rw [slots_marks, slots_marks, Option.map_map]
    refine congrArg (Option.map · _) (funext fun s => ?_)
    cases s <;> simp [Slot.map, Mark.stamp_stamp]
  have heq (u : Tree) : (u.marks ms) =
      { u with exprs := { u.exprs with slots := (u.marks ms).exprs.slots } } := by
    clear hslots
    induction ms generalizing u with
    | nil => rfl
    | cons m ms ih => exact (ih (u.mark m.1 m.2)).trans rfl
  rw [heq (t.marks ms), hslots]

theorem expr_eq_ok_slot : t.expr id = .ok e ↔ t.exprs.slots[id.slot]? = some (.live e) :=
  Pool.read_eq_ok.trans Pool.get?_eq_some

/-- A node shows the marks that were meant for it. -/
theorem expr_marks (h : t.expr id = .ok e) :
    (t.marks ms).expr id = .ok (Mark.stamp (marksAt ms id.slot) e) := by
  rw [expr_eq_ok_slot, slots_marks, expr_eq_ok_slot.1 h]
  rfl

theorem marksAt_eq_nil (h : ∀ m ∈ ms, m.1 ≠ id) : marksAt ms id.slot = [] := by
  rw [marksAt, List.filter_eq_nil_iff.2, List.map_nil]
  intro m hm hs
  exact h m hm (congrArg ExprId.mk (of_decide_eq_true hs))

theorem mem_marksAt : m ∈ marksAt ms id.slot ↔ (id, m) ∈ ms := by
  constructor
  · intro h
    obtain ⟨⟨j, n⟩, hj, rfl⟩ := List.mem_map.1 h
    obtain ⟨hmem, hslot⟩ := List.mem_filter.1 hj
    obtain rfl : j = id := congrArg ExprId.mk (of_decide_eq_true hslot)
    exact hmem
  · exact fun h => List.mem_map.2 ⟨_, List.mem_filter.2 ⟨h, by simp⟩, rfl⟩

/-! ### Trees that differ in marks alone -/

theorem exprs_of_bare (h : u.bare = t.bare) (i : Nat) :
    u.exprs.slots[i]?.map (Slot.map Expr.bare) = t.exprs.slots[i]?.map (Slot.map Expr.bare) := by
  rw [← Array.getElem?_map, ← Array.getElem?_map]
  exact congrArg (fun v : Tree => v.exprs.slots[i]?) h

theorem expr_of_bare (h : u.bare = t.bare) (he : t.expr id = .ok e) :
    ∃ e', u.expr id = .ok e' ∧ e'.bare = e.bare := by
  have hslot := exprs_of_bare h id.slot
  rw [expr_eq_ok_slot.1 he] at hslot
  obtain ⟨s, hs, hmap⟩ := Option.map_eq_some_iff.1 hslot
  cases s with
  | live e' => exact ⟨e', expr_eq_ok_slot.2 hs, Slot.live.inj hmap⟩
  | free next => cases hmap

theorem expr_error_of_bare {f : Fault} (h : u.bare = t.bare) (he : t.expr id = .error f) :
    u.expr id = .error f := by
  have hread {v : Tree} : v.expr id = .error f ↔
      (∀ e, v.expr id ≠ .ok e) ∧ f = .deadSlot id.slot := by
    unfold expr Pool.read
    cases v.exprs.get? id.slot <;> simp [eq_comm]
  obtain ⟨hnone, hf⟩ := hread.1 he
  refine hread.2 ⟨fun e' he' => ?_, hf⟩
  obtain ⟨e, he, -⟩ := expr_of_bare h.symm he'
  exact hnone e he

theorem exprList_of_bare (h : u.bare = t.bare) (r : ListRange) : u.exprList r = t.exprList r := by
  have hlists := congrArg exprLists h
  exact congrArg (fun ids => (ids.extract r.start (r.start + r.len)).toList) hlists

theorem capacity_of_bare (h : u.bare = t.bare) : u.exprs.capacity = t.exprs.capacity := by
  have := congrArg (fun v : Tree => v.exprs.slots.size) h
  simpa [bare, Pool.capacity] using this

/-- A node for which no marks are meant stays as it is. -/
theorem expr_marks_of_ne (h : ∀ m ∈ ms, m.1 ≠ id) : (t.marks ms).expr id = t.expr id := by
  cases he : t.expr id with
  | ok e =>
    rw [expr_marks he, marksAt_eq_nil h]
    rfl
  | error f => exact expr_error_of_bare bare_marks he

/-- Overwriting an expression by itself with another mark. -/
theorem setExpr_mark (h : t.expr id = .ok e) (m : Mark) :
    t.setExpr id (m.on e) = .ok (t.mark id m) := by
  have hslot := expr_eq_ok_slot.1 h
  obtain ⟨hlt, -⟩ := Array.getElem?_eq_some_iff.1 hslot
  have hslots : t.exprs.slots.setIfInBounds id.slot (.live (m.on e)) =
      t.exprs.slots.modify id.slot (Slot.map m.on) := by
    refine Array.ext_getElem? fun i => ?_
    rw [Array.getElem?_setIfInBounds, Array.getElem?_modify]
    split
    next hi =>
      rw [← hi, hslot]
      rfl
    next => rfl
  simp only [setExpr, Pool.write, Pool.set?, hslot, hslots]
  rfl

end Tree

end FrontEnd
