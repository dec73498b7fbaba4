import FrontEnd.Proofs.Grammar.Structs
import FrontEnd.Proofs.Program.Typed
import FrontEnd.Proofs.Typing.Structs

/-!
In a program without reports no value of a struct changes its layout on the way to where it is
stored, passed or returned, as long as the name of the struct stands for one type.
-/

namespace FrontEnd

namespace Tree

variable {t : Tree} {b : Branch} {bs : List Branch} {parts : List Branch} {types : TypeTable}
  {wanted : Option TypeId} {root : NodeId} {node : Node} {ks : List Nat}

/-- The value is returned within the statement, and not from a function inside it. -/
inductive Returns (t : Tree) : StmtId → ExprId → Prop
  | here {id s value} : t.stmt id = .ok s → s.kind = .ret (some value) → Returns t id value
  | inside {id s part value} : t.stmt id = .ok s →
    (∀ name mangled type body isNative, s.kind ≠ .funcDecl name mangled type body isNative) →
    .stmt part ∈ t.children (.stmt s) → Returns t part value → Returns t id value

theorem node?_eq_stmt {id : StmtId} {s : Stmt} :
    t.node? (.stmt id) = some (.stmt s) ↔ t.stmt id = .ok s := by
  simp [node?, Tree.stmt, Pool.read_eq_ok]

theorem node?_eq_expr {id : ExprId} {e : Expr} :
    t.node? (.expr id) = some (.expr e) ↔ t.expr id = .ok e := by
  simp [node?, Tree.expr, Pool.read_eq_ok]

theorem type?_eq_some {id : ExprId} {type : TypeId} :
    t.type? (.expr id) = some type ↔ ∃ e, t.expr id = .ok e ∧ e.type = type := by
  simp [type?, Tree.expr, Pool.read_eq_ok]

theorem type?_of_expr {id : ExprId} {e : Expr} (h : t.expr id = .ok e) :
    t.type? (.expr id) = some e.type := type?_eq_some.2 ⟨e, h, rfl⟩

theorem Stores.type?_isSome {id : ExprId} (h : t.Stores b) (hroot : b.root = .expr id) :
    b.type?.isSome := by
  obtain ⟨root, node, parts⟩ := b
  obtain rfl : root = .expr id := hroot
  obtain ⟨e, -, rfl⟩ := Option.map_eq_some_iff.1 h.node
  rfl

/-- A way leads to the branch of its node. -/
theorem Holds.branch_of_path (h : t.Holds bs) (hp : t.Path (bs.map Branch.root) ks root)
    (hn : t.node? root = some node) : ∃ parts, ⟨root, node, parts⟩ ∈ Branch.allIn bs := by
  obtain ⟨⟨_, node', parts⟩, hb, rfl⟩ := List.mem_map.1 (h.mem_roots_of_path hp)
  obtain rfl := Option.some.inj (hn.symm.trans (h.stores _ hb).node)
  exact ⟨parts, hb⟩

theorem Stores.exists_part {id : NodeId} (h : t.Stores ⟨root, node, parts⟩)
    (hid : id ∈ t.children node) : ∃ p ∈ parts, p.root = id := by
  rw [h.children] at hid
  exact List.mem_map.1 hid

theorem Stores.exists_eq_stmt {id : StmtId} {s : Stmt} (h : t.Stores b) (hroot : b.root = .stmt id)
    (hs : t.stmt id = .ok s) : ∃ parts, b = ⟨.stmt id, .stmt s, parts⟩ := by
  obtain ⟨root, node, parts⟩ := b
  obtain rfl : root = .stmt id := hroot
  obtain rfl := Option.some.inj ((node?_eq_stmt.2 hs).symm.trans h.node)
  exact ⟨parts, rfl⟩

end Tree

namespace Branch

variable {types : TypeTable} {wanted : Option TypeId} {b c : Branch} {root : NodeId}
  {parts : List Branch}

theorem Guarded.of_expr {e : Expr} (h : Guarded types wanted ⟨root, .expr e, parts⟩) :
    e.Flows types (parts.filterMap type?) ∧
      ∀ p ∈ parts, p.Guarded types (e.kind.wants types) := by
  cases h with
  | expr hflows hparts => exact ⟨hflows, hparts⟩

theorem Guarded.of_stmt {s : Stmt} (h : Guarded types wanted ⟨root, .stmt s, parts⟩) :
    s.Flows types wanted (parts.filterMap type?) ∧
      ∀ p ∈ parts, p.Guarded types (s.kind.wants types wanted) := by
  cases h with
  | stmt hflows hparts => exact ⟨hflows, hparts⟩

theorem mem_all_of_part {p : Branch} {node : Node} (hp : p ∈ parts) (hc : c ∈ p.all) :
    c ∈ (mk root node parts).all := by
  rw [all_mk]
  exact List.mem_cons_of_mem _ (mem_allIn.2 ⟨p, hp, hc⟩)

theorem mem_allIn_of_mem {bs : List Branch} (hb : b ∈ allIn bs) (hc : c ∈ b.all) :
    c ∈ allIn bs := by
  obtain ⟨a, ha, hba⟩ := mem_allIn.1 hb
  exact mem_allIn.2 ⟨a, ha, all_trans hba hc⟩

/-- Flows are compared everywhere, whatever is to be returned there. -/
theorem Guarded.inside (h : b.Guarded types wanted) (hc : c ∈ b.all) :
    ∃ wanted, c.Guarded types wanted := by
  induction b using induct generalizing wanted with
  | mk root node parts ih =>
    rw [all_mk] at hc
    rcases List.mem_cons.1 hc with rfl | hc
    · exact ⟨wanted, h⟩
    · obtain ⟨p, hp, hcp⟩ := mem_allIn.1 hc
      cases node with
      | expr e => exact ih p hp (h.of_expr.2 p hp) hcp
      | stmt s => exact ih p hp (h.of_stmt.2 p hp) hcp

/-- What is returned within a statement is taken where it is wanted. -/
theorem Guarded.returned {t : Tree} {id : StmtId} {value : ExprId} {e : Expr}
    (h : b.Guarded types wanted) (hs : ∀ c ∈ b.all, t.Stores c) (hb : b.root = .stmt id)
    (hr : t.Returns id value) (he : t.expr value = .ok e) : types.Takes wanted e.type := by
  have hstores := hs b b.mem_all_self
  induction hr generalizing b with
  | @here id s value hstmt hk =>
    obtain ⟨parts, rfl⟩ := hstores.exists_eq_stmt hb hstmt
    have hchild : .expr value ∈ t.children (.stmt s) := by
      simp [Tree.children, hk, Tree.stmtChildren]
    obtain ⟨p, hp, hroot⟩ := hstores.exists_part hchild
    have htype : p.type? = some e.type := by
      rw [← (hs p (mem_all_of_part hp p.mem_all_self)).type?_root, hroot, Tree.type?_of_expr he]
    have hflows := h.of_stmt.1
    simp only [Stmt.Flows, hk] at hflows
    exact hflows e.type (List.mem_filterMap.2 ⟨p, hp, htype⟩)
  | @inside id s part value hstmt hk hpart _ ih =>
    obtain ⟨parts, rfl⟩ := hstores.exists_eq_stmt hb hstmt
    obtain ⟨p, hp, hroot⟩ := hstores.exists_part hpart
    have hwants : s.kind.wants types wanted = wanted := by
      unfold StmtKind.wants
      split
      next hfunc => exact absurd hfunc (hk _ _ _ _ _)
      next => rfl
    have hinside (c : Branch) (hc : c ∈ p.all) : t.Stores c := hs c (mem_all_of_part hp hc)
    exact ih (hwants ▸ h.of_stmt.2 p hp) hinside hroot he (hinside p p.mem_all_self)

end Branch

namespace Compilation

open Parse

variable {text : String} {settings : Settings} {c : Compilation} {bs : List Branch} {ks : List Nat}

/-- A function of this type has this body. -/
inductive Body (c : Compilation) : TypeId → StmtId → Prop
  | declared {ks id s name mangled type body isNative} :
    c.tree.Path (c.items.map .stmt) ks (.stmt id) → c.tree.stmt id = .ok s →
    s.kind = .funcDecl name mangled type (some body) isNative → Body c type body
  | lambda {ks id e type body} : c.tree.Path (c.items.map .stmt) ks (.expr id) →
    c.tree.expr id = .ok e → e.kind = .lambda type body → Body c type body

/-- Somewhere below the statements a value of the type `src` is assigned to a target of the type
`dst`, is the first value of a variable of that type, or is returned where it is wanted. -/
inductive Flow (c : Compilation) : (src dst : TypeId) → Prop
  | assigned {ks id e op target value x y} : c.tree.Path (c.items.map .stmt) ks (.expr id) →
    c.tree.expr id = .ok e → e.kind = .assign op target value → c.tree.expr target = .ok x →
    c.tree.expr value = .ok y → Flow c y.type x.type
  | initial {ks id s name type init isConst e} : c.tree.Path (c.items.map .stmt) ks (.stmt id) →
    c.tree.stmt id = .ok s → s.kind = .varDecl name type (some init) isConst →
    c.tree.expr init = .ok e → Flow c e.type type
  | returned {type body value signature e} : c.Body type body → c.tree.Returns body value →
    c.types.function? type = .ok (some signature) → c.tree.expr value = .ok e →
    Flow c e.type signature.ret

/-- The branches below the statements of a program in which all types were found to fit. -/
structure Traced (c : Compilation) (bs : List Branch) : Prop where
  holds : c.tree.Holds bs
  roots : bs.map Branch.root = c.items.map .stmt
  fits : ∀ b ∈ Branch.allIn bs, b.Fits c.types c.Declares
  guarded : ∀ b ∈ Branch.allIn bs, ∃ wanted, b.Guarded c.types wanted
  basics : c.types.Basics
  valid : ∀ type signature, c.types.function? type = .ok (some signature) →
    (∀ param ∈ signature.params, param ≠ .invalid) ∧ signature.ret ≠ .invalid

theorem exists_traced (h : ofText text settings = .ok c) (hr : c.reports = []) :
    ∃ bs, c.Traced bs := by
  obtain ⟨s, t, hs, hrun, htree, htypes, -, hreports⟩ := exists_compiled h
  obtain ⟨bs, hends⟩ := (solo_program t.types hs).of_ok hrun
  have hquiet : (Pass.solo settings.folds text t.types).Quiet t :=
    ⟨reports_eq_empty (hreports ▸ hr), .refl _⟩
  obtain ⟨os, hsettled, hsigned⟩ := hends.settled hquiet
  have hfurnished := hends.furnished hquiet
  have hroots := hends.roots
  refine ⟨bs, htree ▸ hends.holds, hroots, fun b hb => ?_, fun b hb => ?_,
    htypes ▸ hfurnished.basics.basics, fun type signature hf => ?_⟩
  · obtain ⟨a, ha, hba⟩ := Branch.mem_allIn.1 hb
    have hmono : a.Settled t.types c.Declares := (hsettled a ha).mono fun o ho => ?_
    · rw [htypes]
      exact hmono b hba
    · obtain ⟨hsig, stmt, hstmt, hdeclares⟩ := hsigned o ho
      obtain ⟨ks, id, hks, hid⟩ := hends.holds.path_of_stmt hstmt
      rw [hroots, ← htree] at hks
      exact ⟨htypes ▸ hsig, ks, id, stmt, hks, htree ▸ hid, hdeclares⟩
  · obtain ⟨a, ha, hba⟩ := Branch.mem_allIn.1 hb
    rw [htypes]
    exact (hends.guarded hquiet a ha).inside hba
  · obtain ⟨hparams, hret⟩ := hfurnished.signature type signature
      (TypeTable.kind_of_function? (htypes ▸ hf))
    exact ⟨fun param hp => (hparams param hp).uses.2 hquiet, hret.uses.2 hquiet⟩

namespace Traced

variable {src dst type : TypeId} {body : StmtId} {id : ExprId} {e : Expr} {root : NodeId}
  {node : Node}

theorem exists_branch (h : c.Traced bs) (hp : c.tree.Path (c.items.map .stmt) ks root)
    (hn : c.tree.node? root = some node) : ∃ parts, ⟨root, node, parts⟩ ∈ Branch.allIn bs :=
  h.holds.branch_of_path (h.roots ▸ hp) hn

theorem exists_part {parts : List Branch} {child : NodeId} (h : c.Traced bs)
    (hmem : ⟨root, node, parts⟩ ∈ Branch.allIn bs) (hchild : child ∈ c.tree.children node) :
    ∃ p ∈ parts, p ∈ Branch.allIn bs ∧ p.root = child := by
  obtain ⟨p, hp, hroot⟩ := (h.holds.stores _ hmem).exists_part hchild
  exact ⟨p, hp, Branch.mem_allIn_of_mem hmem (Branch.mem_all_of_part hp p.mem_all_self), hroot⟩

/-- The type to return is wanted in a body. -/
theorem exists_body (h : c.Traced bs) (hb : c.Body type body) : ∃ b ∈ Branch.allIn bs,
    b.root = .stmt body ∧ b.Guarded c.types (some (c.types.result type)) := by
  cases hb with
  | @declared ks id s name mangled type body isNative hpath hs hk =>
    obtain ⟨parts, hmem⟩ := h.exists_branch hpath (Tree.node?_eq_stmt.2 hs)
    obtain ⟨wanted, hguarded⟩ := h.guarded _ hmem
    have hchild : .stmt body ∈ c.tree.children (.stmt s) := by
      simp [Tree.children, hk, Tree.stmtChildren]
    obtain ⟨p, hp, hbelow, hroot⟩ := h.exists_part hmem hchild
    have hpart := hguarded.of_stmt.2 p hp
    rw [hk] at hpart
    exact ⟨p, hbelow, hroot, hpart⟩
  | @lambda ks id e type body hpath he hk =>
    obtain ⟨parts, hmem⟩ := h.exists_branch hpath (Tree.node?_eq_expr.2 he)
    obtain ⟨wanted, hguarded⟩ := h.guarded _ hmem
    have hchild : .stmt body ∈ c.tree.children (.expr e) := by
      simp [Tree.children, hk, Tree.exprChildren]
    obtain ⟨p, hp, hbelow, hroot⟩ := h.exists_part hmem hchild
    have hpart := hguarded.of_expr.2 p hp
    rw [hk] at hpart
    exact ⟨p, hbelow, hroot, hpart⟩

theorem keeps_of_flow (h : c.Traced bs) (hf : c.Flow src dst) : c.types.Keeps src dst := by
  cases hf with
  | @assigned ks id e op target value x y hpath he hk hx hy =>
    obtain ⟨parts, hmem⟩ := h.exists_branch hpath (Tree.node?_eq_expr.2 he)
    have htypes : parts.filterMap Branch.type? = [x.type, y.type] := by
      rw [← h.holds.filterMap_type? hmem]
      simp [Tree.children, hk, Tree.exprChildren, Tree.type?_of_expr hx, Tree.type?_of_expr hy]
    obtain ⟨hvalid, hsuits⟩ := h.fits _ hmem
    obtain ⟨wanted, hguarded⟩ := h.guarded _ hmem
    have hflows := hguarded.of_expr.1
    rw [htypes] at hsuits hflows
    simp only [Expr.Suits, hk] at hsuits
    simp only [Expr.Flows, hk] at hflows
    obtain ⟨_, hparts⟩ := hsuits
    have htarget : x.type = e.type := (List.cons.inj hparts).1
    obtain ⟨stored, hstores, hfits⟩ := hflows y.type (by rw [htarget])
    rw [htarget]
    exact h.basics.keeps_of_stores hvalid hstores hfits
  | @initial ks id s name type init isConst e hpath hs hk he =>
    obtain ⟨parts, hmem⟩ := h.exists_branch hpath (Tree.node?_eq_stmt.2 hs)
    have htypes : parts.filterMap Branch.type? = [e.type] := by
      rw [← h.holds.filterMap_type? hmem]
      simp [Tree.children, hk, Tree.stmtChildren, Tree.type?_of_expr he]
    obtain ⟨wanted, hguarded⟩ := h.guarded _ hmem
    have hflows := hguarded.of_stmt.1
    rw [htypes] at hflows
    simp only [Stmt.Flows, hk] at hflows
    obtain ⟨hvalid, htakes⟩ := hflows
    exact h.basics.keeps_of_compatible hvalid (htakes e.type (by simp) _ rfl hvalid)
  | @returned type body value signature e hbody hreturns hsig he =>
    obtain ⟨b, hmem, hroot, hguarded⟩ := h.exists_body hbody
    have hstores (x : Branch) (hx : x ∈ b.all) : c.tree.Stores x :=
      h.holds.stores x (Branch.mem_allIn_of_mem hmem hx)
    have htakes := hguarded.returned hstores hroot hreturns he
    have hresult : c.types.result _ = signature.ret := TypeTable.result_eq hsig
    have hvalid := (h.valid _ signature hsig).2
    exact h.basics.keeps_of_compatible hvalid (htakes _ (congrArg some hresult) hvalid)

/-- All arguments of a call have types. -/
theorem args_types {callee : Name} {args : ListRange} {mangled : Option Name}
    {parts : List Branch} (h : c.Traced bs) (hk : e.kind = .call callee args mangled)
    (hmem : ⟨.expr id, .expr e, parts⟩ ∈ Branch.allIn bs) :
    (c.tree.exprList args).map (fun arg => c.tree.type? (.expr arg)) =
      (parts.filterMap Branch.type?).map some := by
  have hchildren : parts.map Branch.root = (c.tree.exprList args).map .expr := by
    rw [← (h.holds.stores _ hmem).children]
    simp [Tree.children, hk, Tree.exprChildren]
  have hstores (p : Branch) (hp : p ∈ parts) : c.tree.Stores p :=
    h.holds.stores p (Branch.mem_allIn_of_mem hmem (Branch.mem_all_of_part hp p.mem_all_self))
  have htyped (o : Option TypeId) (ho : o ∈ parts.map Branch.type?) : o.isSome := by
    obtain ⟨p, hp, rfl⟩ := List.mem_map.1 ho
    have hroot : p.root ∈ (c.tree.exprList args).map .expr :=
      hchildren ▸ List.mem_map_of_mem hp
    obtain ⟨arg, -, harg⟩ := List.mem_map.1 hroot
    exact (hstores p hp).type?_isSome harg.symm
  calc (c.tree.exprList args).map (fun arg => c.tree.type? (.expr arg))
      = (parts.map Branch.root).map c.tree.type? := by rw [hchildren, List.map_map]; rfl
    _ = parts.map Branch.type? := by
      rw [List.map_map]
      exact List.map_congr_left fun p hp => (hstores p hp).type?_root
    _ = (parts.filterMap Branch.type?).map some := by
      rw [List.map_filterMap_some_eq_filter_map_isSome, List.filter_eq_self.2 htyped]

/-- The chosen overload is declared, and its arguments keep their layout. -/
theorem keeps_of_call {callee : Name} {args : ListRange} {mangled : Option Name}
    (h : c.Traced bs) (hpath : c.tree.Path (c.items.map .stmt) ks (.expr id))
    (he : c.tree.expr id = .ok e) (hk : e.kind = .call callee args mangled) :
    ∃ o : Overload, mangled = some o.mangled ∧ c.Declares o ∧
      o.params.length ≤ (c.tree.exprList args).length ∧
      ∀ p ∈ o.params.zip (c.tree.exprList args), ∃ x, c.tree.expr p.2 = .ok x ∧
        c.types.Keeps x.type p.1 := by
  obtain ⟨parts, hmem⟩ := h.exists_branch hpath (Tree.node?_eq_expr.2 he)
  have hsuits := (h.fits _ hmem).2
  simp only [Expr.Suits, hk] at hsuits
  obtain ⟨o, hmangled, hdeclares, exact, haccepts⟩ := hsuits
  have hparams : ∀ param ∈ o.params, param ≠ .invalid := by
    obtain ⟨signature, hsig, hsame, -⟩ := hdeclares.1
    rw [hsame]
    exact (h.valid _ _ hsig).1
  obtain ⟨hlength, hkeeps⟩ := h.basics.keeps_of_accepts hparams haccepts
  have htypes := h.args_types hk hmem
  refine ⟨o, hmangled, hdeclares, ?_, fun p hp => ?_⟩
  · have hsame := congrArg List.length htypes
    rw [List.length_map, List.length_map] at hsame
    exact hsame ▸ hlength
  · have hmap : (p.1, c.tree.type? (.expr p.2)) ∈
        o.params.zip ((c.tree.exprList args).map fun arg => c.tree.type? (.expr arg)) := by
      rw [List.zip_map_right]
      exact List.mem_map_of_mem hp
    rw [htypes, List.zip_map_right] at hmap
    obtain ⟨q, hq, hpq⟩ := List.mem_map.1 hmap
    obtain ⟨hparam, htype⟩ := Prod.mk.inj hpq
    obtain ⟨x, hx, hxt⟩ := Tree.type?_eq_some.1 htype.symm
    exact ⟨x, hx, hxt ▸ hparam ▸ hkeeps q hq⟩

end Traced

/-- Without reports, a value of a struct keeps its layout wherever it is assigned, stored in a new
variable, passed for a parameter of the overload that was chosen, or returned: the type there has
the same canonical text, and the same fields if that text is that of no other type. -/
theorem structs_keep_layout (h : ofText text settings = .ok c) (hr : c.reports = []) :
    (∀ src dst, c.Flow src dst → c.types.Keeps src dst) ∧
      ∀ ks id e callee args mangled, c.tree.Path (c.items.map .stmt) ks (.expr id) →
        c.tree.expr id = .ok e → e.kind = .call callee args mangled →
        ∃ o : Overload, mangled = some o.mangled ∧ c.Declares o ∧
          o.params.length ≤ (c.tree.exprList args).length ∧
          ∀ p ∈ o.params.zip (c.tree.exprList args), ∃ x, c.tree.expr p.2 = .ok x ∧
            c.types.Keeps x.type p.1 := by
  obtain ⟨bs, htraced⟩ := exists_traced h hr
  exact ⟨fun src dst hf => htraced.keeps_of_flow hf,
    fun ks id e callee args mangled hpath he hk => htraced.keeps_of_call hpath he hk⟩

/-- Before a program begins. -/
theorem ready_opens {s : ParseState} {n m : Nat} (hs : s.Opens text settings)
    (hnext : (Window.ofText text).current.kind ≠ .error)
    (hslots : n * poolBatch ≤ min settings.poolReserve maxOffset) (hnames : s.names.Roomy m)
    (htypes : s.types.types.Roomy n) : Ready s n m := by
  have hskip := Window.skipErrors_of_ne hnext
  have hreports : s.reports = Queue.withConfig ⟨settings.errorLimit, settings.deduplicate⟩ := by
    rw [hs.reports, hskip]
    rfl
  refine ⟨hs.sound, by rw [hs.scope]; rfl, by rw [hreports]; rfl, by rw [hreports]; rfl,
    ⟨[], hs.sound.tree.holds_nil⟩,
    hs.tree ▸ Tree.roomy_withMaxSlots hslots, hnames, htypes, ?_⟩
  have hfurnished : s.symbols.Furnished s.types s.names False False := hs.furnished
  exact hfurnished.basics.basics.kind .invalid

/-- A struct is declared again without its field, and a value of the first type initializes a
variable of the second one. -/
theorem exists_redeclared : ∃ c src dst x y,
    ofText "struct S { a : int; } s : S; struct S { } t : S = s;" .standard = .ok c ∧
      c.reports = [] ∧ c.Flow src dst ∧ c.types.kind src = .ok (.struct x [⟨y, .integer⟩]) ∧
      c.types.kind dst = .ok (.struct x []) := by
  let w := Window.ofText "struct S { a : int; } s : S; struct S { } t : S = s;"
  have hfirst : w.AtStruct "S" 7 := by constructor <;> decide +kernel
  have hfield : (w.drop 3).AtField "a" := by constructor <;> decide +kernel
  have hbare : (w.drop 8).AtVariable "s" "S" := by constructor <;> decide +kernel
  have hsecond : (w.drop 12).AtStruct "S" 3 := by constructor <;> decide +kernel
  have hlast : (w.drop 16).AtVariable "t" "S" := by constructor <;> decide +kernel
  have hvalue : (w.drop 20).AtName "s" := by constructor <;> decide +kernel
  obtain ⟨s₀, hs, hnames, htypes⟩ := ParseState.exists_opens_roomy (n := 4) (k := 5)
    "struct S { a : int; } s : S; struct S { } t : S = s;" .standard (by decide) (by decide)
  have hw₀ : s₀.window = w := by
    rw [hs.window, Window.skipErrors_of_ne (ne_of_eq_of_ne hfirst.struct (by decide))]
  have h₀ : Ready s₀ 5 4 := ready_opens hs (ne_of_eq_of_ne hfirst.struct (by decide)) (by decide)
    hnames htypes
  have hfirst : s₀.window.AtStruct "S" 7 := hw₀ ▸ hfirst
  have hfield : (s₀.window.drop 3).AtField "a" := hw₀ ▸ hfield
  obtain ⟨id₁, x, y, src, s₁, hrun₁, h₁, hx₁, hadds₁⟩ := h₀.struct_one (m := 2) hfirst hfield
  have hw₁ : s₁.window = w.drop 8 := hadds₁.window.trans (by rw [hw₀])
  have hbare : s₁.window.AtVariable "s" "S" := hw₁ ▸ hbare
  obtain ⟨id₂, z, s₂, hrun₂, h₂, hx₂, hadds₂⟩ := h₁.bare (m := 1) hbare
    (by rw [hw₁]; decide +kernel) (by rw [hw₁]; decide +kernel) hx₁ hadds₁.type
  have hw₂ : s₂.window = w.drop 12 := hadds₂.window.trans (by rw [hw₁]; rfl)
  have hsecond : s₂.window.AtStruct "S" 3 := hw₂ ▸ hsecond
  obtain ⟨id₃, dst, s₃, hrun₃, h₃, hnames₃, hadds₃⟩ := h₂.struct_nil hsecond hx₂
  have hw₃ : s₃.window = w.drop 16 := hadds₃.window.trans (by rw [hw₂]; rfl)
  have hlast : s₃.window.AtVariable "t" "S" := hw₃ ▸ hlast
  have hvalue : (s₃.window.drop 4).AtName "s" := hw₃ ▸ hvalue
  have hsrc : s₃.types.desc src = .ok ⟨.struct x [⟨y, .integer⟩], x⟩ :=
    hadds₃.grows _ _ (hadds₂.types ▸ hadds₁.desc)
  have hvalid : dst ≠ .invalid := by
    rintro rfl
    cases h₃.invalid.symm.trans (TypeTable.kind_of_desc hadds₃.desc)
  have hfits : s₃.types.compatible src dst = .ok true :=
    TypeTable.compatible_of_equal (TypeTable.equal_eq_true.2 (.inr ⟨_, _, hsrc, hadds₃.desc, rfl⟩))
  obtain ⟨id₄, i, e, x₄, span, bs, s₄, hrun₄, h₄, hw₄, htypes₄, rfl, hheld⟩ :=
    h₃.initialized (n := 0) (m := 0) hlast (by rw [hw₃]; decide +kernel) hvalue (hnames₃ ▸ hx₂)
      hadds₃.type (hadds₃.stays hnames₃ hadds₂.declares) hvalid hfits
  have hend : s₄.window.atEnd = true := by
    rw [hw₄, hw₃]
    decide +kernel
  have hrun : production .program s₀ = .ok [id₁, id₂, id₃, id₄] s₄ :=
    program_cons h₀.sound (by rw [hw₀]; decide +kernel) h₀.going hrun₁ <|
    program_cons h₁.sound (by rw [hw₁]; decide +kernel) h₁.going hrun₂ <|
    program_cons h₂.sound (by rw [hw₂]; decide +kernel) h₂.going hrun₃ <|
    program_cons h₃.sound (by rw [hw₃]; decide +kernel) h₃.going hrun₄ <|
    program_atEnd h₄.sound hend
  refine ⟨compiled [id₁, id₂, id₃, id₄] s₄, e.type, dst, x, y, ?_, flush_eq_nil h₄.quiet,
    .initial (.start (k := 3) rfl) (Tree.node?_eq_stmt.1 hheld.root.node) rfl
      hheld.opened.1.expr, ?_, ?_⟩
  · rw [ofText_eq (ParseState.ofText_eq_ok.2 hs), hrun]
    rfl
  · rw [compiled, htypes₄]
    exact TypeTable.kind_of_desc hsrc
  · rw [compiled, htypes₄]
    exact TypeTable.kind_of_desc hadds₃.desc

/-- The fields of a struct can change where its name was declared again. -/
theorem redeclared_layout : ¬ ∀ (text : String) (settings : Settings) (c : Compilation),
    ofText text settings = .ok c → c.reports = [] → ∀ src dst, c.Flow src dst →
      ∀ name fields, c.types.kind src = .ok (.struct name fields) →
        ∃ name', c.types.kind dst = .ok (.struct name' fields) := by
  intro h
  obtain ⟨c, src, dst, x, y, hc, hr, hflow, hsrc, hdst⟩ := exists_redeclared
  obtain ⟨name', hkind⟩ := h _ _ c hc hr src dst hflow x _ hsrc
  cases hdst.symm.trans hkind

/-- Both types have one canonical text there. -/
theorem redeclared_flow : ∃ c src dst name field,
    ofText "struct S { a : int; } s : S; struct S { } t : S = s;" .standard = .ok c ∧
      c.reports = [] ∧ c.Flow src dst ∧ c.types.kind src = .ok (.struct name [field]) ∧
      c.types.kind dst = .ok (.struct name []) ∧ c.types.equal src dst = .ok true := by
  obtain ⟨c, src, dst, x, y, hc, hr, hflow, hsrc, hdst⟩ := exists_redeclared
  have hkeeps := (structs_keep_layout hc hr).1 src dst hflow
  exact ⟨c, src, dst, x, _, hc, hr, hflow, hsrc, hdst, (hkeeps x _ hsrc).1⟩

end Compilation

end FrontEnd
