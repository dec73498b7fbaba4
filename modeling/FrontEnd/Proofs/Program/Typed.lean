import FrontEnd.Proofs.Grammar.Constants
import FrontEnd.Proofs.Program.Forests

/-! In a program without reports every expression has a type, and one that suits it. -/

namespace FrontEnd

namespace Tree

variable {t : Tree} {b : Branch} {bs : List Branch}

/-- The type that is recorded on a live expression. -/
def type? (t : Tree) : NodeId → Option TypeId
  | .expr id => (t.exprs.get? id.slot).map Expr.type
  | .stmt _ => none

theorem Stores.type?_root (h : t.Stores b) : t.type? b.root = b.type? := by
  obtain ⟨root, node, parts⟩ := b
  have hnode : t.node? root = some node := h.node
  cases root with
  | expr id =>
    obtain ⟨e, he, rfl⟩ := Option.map_eq_some_iff.1 hnode
    simp [type?, he, Branch.type?]
  | stmt id =>
    obtain ⟨s, -, rfl⟩ := Option.map_eq_some_iff.1 hnode
    rfl

/-- The types on the children of a node are those of the parts. -/
theorem Holds.filterMap_type? (h : t.Holds bs) (hb : b ∈ Branch.allIn bs) :
    (t.children b.node).filterMap t.type? = b.parts.filterMap Branch.type? := by
  rw [(h.stores b hb).children, List.filterMap_map]
  refine List.filterMap_congr fun p hp => ?_
  obtain ⟨a, ha, hba⟩ := Branch.mem_allIn.1 hb
  have hpart : p ∈ b.all := by
    rw [Branch.all_eq b]
    exact List.mem_cons_of_mem _ (Branch.mem_allIn.2 ⟨p, hp, p.mem_all_self⟩)
  exact (h.stores p (Branch.mem_allIn.2 ⟨a, ha, Branch.all_trans hba hpart⟩)).type?_root

/-- A way to an expression leads to a branch of the forest. -/
theorem Holds.expr_of_path {ks : List Nat} {id : ExprId} (h : t.Holds bs)
    (hp : t.Path (bs.map Branch.root) ks (.expr id)) :
    ∃ e parts, t.expr id = .ok e ∧ ⟨.expr id, .expr e, parts⟩ ∈ Branch.allIn bs := by
  obtain ⟨⟨_, node, parts⟩, hb, rfl⟩ := List.mem_map.1 (h.mem_roots_of_path hp)
  have hnode : t.node? (.expr id) = some node := (h.stores _ hb).node
  obtain ⟨e, he, rfl⟩ := Option.map_eq_some_iff.1 hnode
  exact ⟨e, parts, by simp [Tree.expr, Pool.read, he], hb⟩

/-- A statement of the forest can be reached. -/
theorem Holds.path_of_stmt {s : Stmt} (h : t.Holds bs) (hs : s ∈ Branch.stmts bs) :
    ∃ ks id, t.Path (bs.map Branch.root) ks (.stmt id) ∧ t.stmt id = .ok s := by
  obtain ⟨⟨root, node, parts⟩, hb, hstmt⟩ := List.mem_filterMap.1 hs
  have hnode : t.node? root = some node := (h.stores _ hb).node
  cases node with
  | expr e => cases hstmt
  | stmt s' =>
    obtain rfl := Option.some.inj hstmt
    cases root with
    | expr id =>
      obtain ⟨e, -, he⟩ := Option.map_eq_some_iff.1 hnode
      cases he
    | stmt id =>
      obtain ⟨s', hs', he⟩ := Option.map_eq_some_iff.1 hnode
      cases he
      obtain ⟨ks, hks⟩ := h.exists_path (root_mem_roots hb)
      exact ⟨ks, id, hks, by simp [Tree.stmt, Pool.read, hs']⟩

end Tree

namespace Compilation

open Parse

variable {text : String} {settings : Settings} {c : Compilation} {ks : List Nat} {id : ExprId}

/-- Somewhere below the statements a function with this overload is declared. -/
def Declares (c : Compilation) (o : Overload) : Prop :=
  o.Signed c.types ∧ ∃ ks id s, c.tree.Path (c.items.map .stmt) ks (.stmt id) ∧
    c.tree.stmt id = .ok s ∧ s.Declares o

/-- Without reports, an expression anywhere below the statements has a type, which suits its kind
and the types that are recorded on its children. -/
theorem expressions_suit (h : ofText text settings = .ok c) (hr : c.reports = [])
    (hp : c.tree.Path (c.items.map .stmt) ks (.expr id)) :
    ∃ e, c.tree.expr id = .ok e ∧ e.type ≠ .invalid ∧
      e.Suits c.types c.Declares ((c.tree.children (.expr e)).filterMap c.tree.type?) := by
  obtain ⟨s, t, hs, hrun, htree, htypes, -, hreports⟩ := exists_compiled h
  obtain ⟨bs, hends⟩ := (solo_program t.types hs).of_ok hrun
  have hquiet : (Pass.solo settings.folds text t.types).Quiet t :=
    ⟨reports_eq_empty (hreports ▸ hr), .refl _⟩
  obtain ⟨os, hsettled, hsigned⟩ := hends.settled hquiet
  rw [← hends.roots, htree] at hp
  obtain ⟨e, parts, he, hb⟩ := hends.holds.expr_of_path hp
  obtain ⟨a, ha, hba⟩ := Branch.mem_allIn.1 hb
  obtain ⟨htype, hsuits⟩ := hsettled a ha _ hba
  refine ⟨e, htree ▸ he, htype, ?_⟩
  rw [htree, htypes, hends.holds.filterMap_type? hb]
  refine hsuits.mono fun o ho => ?_
  obtain ⟨hsig, stmt, hstmt, hdeclares⟩ := hsigned o ho
  obtain ⟨ks, id, hks, hid⟩ := hends.holds.path_of_stmt hstmt
  rw [hends.roots, ← htree] at hks
  exact ⟨htypes ▸ hsig, ks, id, stmt, hks, htree ▸ hid, hdeclares⟩

/-- A single constant is compiled without reports. -/
theorem exists_constant (folds : Bool) :
    ∃ c ks id, ofText "const N := 5;" { Settings.standard with folds } = .ok c ∧ c.reports = [] ∧
      c.tree.Path (c.items.map .stmt) ks (.expr id) := by
  have hwindow : (Window.ofText "const N := 5;").AtConstant "N" (.int 5) := by
    constructor <;> decide +kernel
  obtain ⟨s, id, t, hs, hrun, h, hcons⟩ := exists_stmt_constant
    { Settings.standard with folds } hwindow
    (show 44 + 1 ≤ min Settings.standard.arenaReserve maxOffset by decide)
    (show 9 * poolBatch ≤ min Settings.standard.poolReserve maxOffset by decide)
  have ht := ((steady_production .stmt).ok hrun hs.sound).sound
  have hend : t.window.atEnd = true := by
    rw [h.window]
    decide +kernel
  obtain ⟨c, hc, hitems, htree, hreports⟩ := exists_ok hs (hcons _ _ (program_atEnd ht hend))
  obtain ⟨i, e, node, hheld⟩ := h.node
  have hmem : NodeId.expr i ∈ Branch.roots [⟨.stmt id, node, [⟨.expr i, .expr e, []⟩]⟩] := by
    rw [Tree.roots_mk, Tree.roots_mk]
    simp
  obtain ⟨ks, hks⟩ := hheld.exists_path hmem
  refine ⟨c, ks, i, hc, ?_, ?_⟩
  · rw [hreports, h.reports]
    exact flush_eq_nil rfl
  · rw [hitems, htree]
    exact hks

/-- The value of a constant has its fixed type. -/
theorem constant_suits : ∃ c id e,
    ofText "const N := 5;" Settings.standard = .ok c ∧ c.reports = [] ∧ c.tree.expr id = .ok e ∧
      e.type ≠ .invalid ∧
      e.Suits c.types c.Declares ((c.tree.children (.expr e)).filterMap c.tree.type?) := by
  obtain ⟨c, ks, id, hc, hr, hp⟩ := exists_constant true
  obtain ⟨e, he, htype, hsuits⟩ := expressions_suit hc hr hp
  exact ⟨c, id, e, hc, hr, he, htype, hsuits⟩

end Compilation

end FrontEnd
