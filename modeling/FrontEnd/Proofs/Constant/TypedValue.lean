import FrontEnd.Proofs.Constant.FoldSteps
import FrontEnd.Proofs.Constant.LoweredCode
import FrontEnd.Proofs.Constant.TypedOperations
import FrontEnd.Proofs.Symbol.Declarations
import FrontEnd.Proofs.Typing.Inference

/-! Constants that were checked have values of the types that were found. -/

namespace FrontEnd

namespace Branch

variable {env : Env} {isBound : Name → Bool} {bindings : Name → Option Value} {b c : Branch}
  {type type' : TypeId}

/-- Only calls can be linked. -/
theorem kind_of_unlinked {k k' : ExprKind} (h : k'.unlinked = k.unlinked)
    (hk : ∀ callee args mangled, k ≠ .call callee args mangled) : k' = k := by
  cases k <;> cases k' <;> first
    | exact absurd rfl (hk _ _ _)
    | exact h
    | cases h

/-- Checking leaves constants constant, with the same names. -/
theorem Retyped.constant (h : b.Retyped c) (hc : b.isConstant isBound = true) :
    c.isConstant isBound = true ∧ c.names = b.names := by
  induction b, hc using constant_induct generalizing c with
  | literal root e v hc hk =>
    obtain ⟨hkind, -, -, -, -, hparts⟩ := h
    cases hparts (by rw [hk]; rfl)
    have hk' := (kind_of_unlinked hkind (by simp [hk])).trans hk
    simp [isConstant, names_mk, Expr.name?, hk, hk']
  | name root e n hc hk hflag hbound =>
    obtain ⟨hkind, -, hflag', -, -, hparts⟩ := h
    cases hparts (by rw [hk]; rfl)
    have hk' := (kind_of_unlinked hkind (by simp [hk])).trans hk
    simp [isConstant, names_mk, Expr.name?, hk, hk', hflag', hflag, hbound]
  | group root e i p hc hp hk ih =>
    obtain ⟨hkind, -, -, -, -, hparts⟩ := h
    obtain ⟨p', _, hpp, hnil, rfl⟩ := List.forall₂_cons_left_iff.1 (hparts (by rw [hk]; rfl))
    obtain rfl := List.forall₂_nil_left_iff.1 hnil
    have hk' := (kind_of_unlinked hkind (by simp [hk])).trans hk
    obtain ⟨hc', hn'⟩ := ih hpp
    simp [isConstant_group hk', hc', names_mk, Expr.name?, hk, hk', hn']
  | unary root e op i p hc hp hk hm ih =>
    obtain ⟨hkind, -, -, -, -, hparts⟩ := h
    obtain ⟨p', _, hpp, hnil, rfl⟩ := List.forall₂_cons_left_iff.1 (hparts (by rw [hk]; rfl))
    obtain rfl := List.forall₂_nil_left_iff.1 hnil
    have hk' := (kind_of_unlinked hkind (by simp [hk])).trans hk
    obtain ⟨hc', hn'⟩ := ih hpp
    simp [isConstant_unary hk', hc', hm, names_mk, Expr.name?, hk, hk', hn']
  | binary root e op i j l r hc hl hr hk ihl ihr =>
    obtain ⟨hkind, -, -, -, -, hparts⟩ := h
    obtain ⟨l', _, hll, hrest, rfl⟩ := List.forall₂_cons_left_iff.1 (hparts (by rw [hk]; rfl))
    obtain ⟨r', _, hrr, hnil, rfl⟩ := List.forall₂_cons_left_iff.1 hrest
    obtain rfl := List.forall₂_nil_left_iff.1 hnil
    have hk' := (kind_of_unlinked hkind (by simp [hk])).trans hk
    obtain ⟨hcl, hnl⟩ := ihl hll
    obtain ⟨hcr, hnr⟩ := ihr hrr
    simp [isConstant_binary hk', hcl, hcr, names_mk, Expr.name?, hk, hk', hnl, hnr]

/-- The root of a branch compares two values of which one is not a number. -/
def Unordered (bindings : Name → Option Value) (op : BinaryOp) : Branch → Prop
  | ⟨_, .expr e, [left, right]⟩ =>
    (∃ i j, e.kind = .binary op i j) ∧
      (OperatorGroup.of op = .equality ∨ OperatorGroup.of op = .comparison) ∧
      ∃ l r, left.value bindings = .ok l ∧ right.value bindings = .ok r ∧
        (l.isNaN = true ∨ r.isNaN = true)
  | _ => False

/-- How a checked constant ends: with a value of the type that was found, or at a division by
zero, or at a comparison in which something is not a number. -/
inductive Settles (bindings : Name → Option Value) (type : TypeId) (b : Branch) : Prop
  | value {v} : b.value bindings = .ok v → v.kind.type = type → Settles bindings type b
  | divisionByZero : b.value bindings = .error .divisionByZero → Settles bindings type b
  | unordered {op} {c : Branch} : b.value bindings = .error (.operands (Opcode.ofBinary op)) →
    c ∈ b.all → c.Unordered bindings op → Settles bindings type b

/-- What stops a part stops the whole. -/
theorem Settles.of_part (h : Settles bindings type c) (hc : c.all ⊆ b.all)
    (herr : ∀ err, c.value bindings = .error err → b.value bindings = .error err)
    (hok : ∀ v, c.value bindings = .ok v → v.kind.type = type → Settles bindings type' b) :
    Settles bindings type' b := by
  cases h with
  | value hv ht => exact hok _ hv ht
  | divisionByZero hv => exact .divisionByZero (herr _ hv)
  | unordered hv hd hu => exact .unordered (herr _ hv) (hc hd) hu

theorem settles_constant (ht : env.types.Basics) (hc : b.isConstant isBound = true)
    (hb : b.Checked env) (htype : b.type? = some type)
    (hn : ∀ name ∈ b.names, ∃ v, bindings name = some v ∧
      env.resolveVar name = some v.kind.type) : Settles bindings type b := by
  induction b, hc using constant_induct generalizing type with
  | literal root e v hc hk =>
    obtain rfl := Option.some.inj htype
    obtain ⟨types, -, htyped, -⟩ := hb.of_node (by rw [hk]; rfl)
    exact .value (v := v) (by simp [Branch.value, hk]) (htyped.of_literal hk).symm
  | name root e n hc hk hflag hbound =>
    obtain rfl := Option.some.inj htype
    obtain ⟨v, hv, hr⟩ := hn n (by simp [names_mk, Expr.name?, hk])
    obtain ⟨types, -, htyped, -⟩ := hb.of_node (by rw [hk]; rfl)
    exact .value (v := v) (by simp [Branch.value, hk, hv]) (htyped.of_var hk hr).symm
  | group root e i p hc hp hk ih =>
    obtain rfl := Option.some.inj htype
    obtain ⟨types, htypes, htyped, hparts⟩ := hb.of_node (by rw [hk]; rfl)
    obtain rfl := htyped.of_group hk
    have hvalue : value bindings ⟨root, .expr e, [p]⟩ = p.value bindings := value_group hk
    refine (ih (hparts p (by simp)) (by simpa using htypes) fun n hmem => hn n ?_).of_part
      (by simp [all_mk]) (fun err h => hvalue.trans h) fun v hv ht => .value (hvalue.trans hv) ht
    simpa [names_mk, Expr.name?, hk] using hmem
  | unary root e op i p hc hp hk hm ih =>
    obtain rfl := Option.some.inj htype
    obtain ⟨types, htypes, htyped, hparts⟩ := hb.of_node (by rw [hk]; rfl)
    obtain ⟨operand, rfl, hcheck⟩ := htyped.of_unary hk
    have hvalue : value bindings ⟨root, .expr e, [p]⟩ = _ := value_unary hk
    refine (ih (hparts p (by simp)) (by simpa using htypes) fun n hmem => hn n ?_).of_part
      (by simp [all_mk]) (fun err h => by rw [hvalue, h]; rfl) ?_
    · simpa [names_mk, Expr.name?, hk] using hmem
    · rintro v hv rfl
      obtain ⟨htype, hcode⟩ := ht.value_unary hcheck
      rw [hv] at hvalue
      cases hop : Opcode.ofUnary? op with
      | none => exact .value (hvalue.trans (by rw [hop]; rfl)) htype.symm
      | some code =>
        obtain ⟨w, hw, hwt⟩ := hcode code hop
        exact .value (hvalue.trans (by rw [hop]; exact hw)) hwt
  | binary root e op i j l r hc hl hr hk ihl ihr =>
    obtain rfl := Option.some.inj htype
    obtain ⟨types, htypes, htyped, hparts⟩ := hb.of_node (by rw [hk]; rfl)
    obtain ⟨left, right, rfl, hcheck⟩ := htyped.of_binary hk
    have hvalue : value bindings ⟨root, .expr e, [l, r]⟩ = _ := value_binary hk
    simp only [List.map_cons, List.map_nil, List.cons.injEq, and_true] at htypes
    refine (ihl (hparts l (by simp)) htypes.1 fun n hmem => hn n ?_).of_part
      (by simp [all_mk]) (fun err h => by rw [hvalue, h]; rfl) ?_
    · simp [names_mk, hmem]
    rintro lv hlv rfl
    refine (ihr (hparts r (by simp)) htypes.2 fun n hmem => hn n ?_).of_part
      (by simp [all_mk]) (fun err h => by rw [hvalue, hlv, h]; rfl) ?_
    · simp [names_mk, hmem]
    rintro rv hrv rfl
    have hresult : value bindings ⟨root, .expr e, [l, r]⟩ =
        Machine.binary (Opcode.ofBinary op) lv rv := by
      rw [hvalue, hlv, hrv]
      rfl
    have houtcome := ht.outcome_binary hcheck
    rw [← hresult] at houtcome
    generalize hv : value bindings ⟨root, .expr e, [l, r]⟩ = result at houtcome
    cases houtcome with
    | value ht => exact .value hv ht
    | divisionByZero => exact .divisionByZero hv
    | unordered hop hnan =>
      exact .unordered hv (mem_all_self _) ⟨⟨i, j, hk⟩, hop, lv, rv, hlv, hrv, hnan⟩

end Branch

namespace Folder

variable {env : Env} {f : Folder} {depth : Nat} {tree : Tree} {b : Branch} {id : ExprId}

/-- What evaluation comes to. -/
inductive Evaluates (bindings : Name → Option Value) (b : Branch) :
    Except (Halt EvalError) Value → Prop
  | computed : b.isConstant (Lowering.bound bindings) = true →
    Evaluates bindings b (Halt.liftCause (b.value bindings))
  | notConstant : b.isConstant (Lowering.bound bindings) = false →
    Evaluates bindings b (.error (.cause .notConstant))
  | crowded : Evaluates bindings b (.error (.cause .tooManyConstants))

theorem evaluates (f : Folder) (depth : Nat) (h : tree.Holds [b]) (hb : b.root = .expr id) :
    Evaluates (f.binding · depth) b (f.evaluate depth tree id) := by
  have hmeets := Lowering.lowers_expr h hb (f.binding · depth)
  have hlower : f.lower depth tree id =
    Lowering.expr tree (Lowering.bound (f.binding · depth)) id .empty := rfl
  unfold evaluate
  rw [hlower]
  cases hrun : Lowering.expr tree (Lowering.bound (f.binding · depth)) id .empty with
  | ok _ chunk =>
    have hlow := hmeets.of_ok hrun
    obtain ⟨-, -, hvalue⟩ := hlow.of_empty
    dsimp only
    rw [hvalue]
    exact .computed hlow.constant
  | error err chunk =>
    cases hmeets.of_error hrun with
    | notConstant hnot => exact .notConstant hnot
    | crowded _ => exact .crowded

/-- A constant that was checked without a report evaluates to a value of the type that was found,
unless it divides by zero, or has too many literals or names, or compares something that is not a
number. -/
theorem evaluates_to_checked_type {q : Queue} {type : TypeId} {s : CheckState}
    (ht : env.types.Basics) (h : tree.Holds [b]) (hb : b.root = .expr id)
    (hc : b.isConstant (f.isBound · depth) = true)
    (hn : ∀ name ∈ b.names, ∃ v, f.binding name depth = some v ∧
      env.resolveVar name = some v.kind.type)
    (hq : q.Sound) (hrun : Check.infer env id ⟨tree, q⟩ = .ok type s)
    (hquiet : s.reports.reports = #[]) :
    (∃ v, f.evaluate depth s.tree id = .ok v ∧ ∀ span, (Expr.ofValue v span).type = type) ∨
    f.evaluate depth s.tree id = .error (.cause .divisionByZero) ∨
    f.evaluate depth s.tree id = .error (.cause .tooManyConstants) ∨
    ∃ b' op c, s.tree.Holds [b'] ∧ b'.root = .expr id ∧
      f.evaluate depth s.tree id = .error (.cause (.operands (Opcode.ofBinary op))) ∧
      c ∈ b'.all ∧ c.Unordered (f.binding · depth) op := by
  obtain ⟨b', hholds, hretyped, htype, hleads⟩ :=
    Check.infer_ok (.top [] []) h hb hq hrun
  have hb' : b'.root = .expr id := hretyped.root_eq.trans hb
  obtain ⟨hc', hnames⟩ := hretyped.constant hc
  have hsettles : b'.Settles (f.binding · depth) type := Branch.settles_constant ht hc'
    (hleads.quiet hquiet).2 htype fun name hname => hn name (hnames ▸ hname)
  have hevaluates := evaluates f depth hholds hb'
  generalize hresult : f.evaluate depth s.tree id = result at hevaluates
  cases hevaluates with
  | notConstant hnot =>
    rw [show b'.isConstant (Lowering.bound (f.binding · depth)) = true from hc'] at hnot
    cases hnot
  | crowded => exact .inr (.inr (.inl rfl))
  | computed =>
    cases hsettles with
    | value hv ht =>
      rw [hv]
      exact .inl ⟨_, rfl, fun _ => ht⟩
    | divisionByZero hv =>
      rw [hv]
      exact .inr (.inl rfl)
    | unordered hv hmem hunordered =>
      rw [hv]
      exact .inr (.inr (.inr ⟨b', _, _, hholds, hb', rfl, hmem, hunordered⟩))

/-- `N < 2` for a constant `N` is checked, and then has a value. -/
theorem comparison_evaluates :
    let constant (kind : ExprKind) : Expr := { Expr.new kind ⟨0, 1⟩ with isConstant := true }
    let tree := Tree.ofExprs [constant (.var ⟨9⟩), constant (.literal (.int 2)),
      constant (.binary .lt ⟨0⟩ ⟨1⟩)]
    let symbols : Symbols :=
      { Symbols.empty with vars := (OpenTable.insert .empty ⟨⟨9⟩, 0⟩ .integer).2 }
    let env : Env :=
      ⟨.ofBasics, Interner.withReserve 0, symbols, .top, Lines.ofText "", 0⟩
    let f := empty.bind ⟨⟨9⟩, 0⟩ (.int 1)
    ∃ s, Check.infer env ⟨2⟩ ⟨tree, Queue.withConfig .standard⟩ = .ok .bool s ∧
      f.evaluate 0 s.tree ⟨2⟩ ≠ .error (.cause .notConstant) := by
  intro constant tree symbols env f
  let leaf (slot : Nat) (kind : ExprKind) : Branch := ⟨.expr ⟨slot⟩, .expr (constant kind), []⟩
  let b : Branch := ⟨.expr ⟨2⟩, .expr (constant (.binary .lt ⟨0⟩ ⟨1⟩)),
    [leaf 0 (.var ⟨9⟩), leaf 1 (.literal (.int 2))]⟩
  have hall : b.all = [b, leaf 0 (.var ⟨9⟩), leaf 1 (.literal (.int 2))] := by
    simp [b, leaf, Branch.all_mk]
  have hb : tree.Holds [b] := by
    refine ⟨Tree.sound_ofExprs _, ?_, ?_⟩
    · simp only [Branch.allIn_cons, Branch.allIn_nil, List.append_nil, hall, List.forall_mem_cons]
      exact ⟨⟨rfl, trivial, rfl⟩, ⟨rfl, trivial, rfl⟩, ⟨rfl, trivial, rfl⟩, by simp⟩
    · simp only [Branch.roots, Branch.allIn_cons, Branch.allIn_nil, List.append_nil, hall]
      decide
  have hvalue : f.binding ⟨9⟩ 0 = some (.int 1) := by
    simp [f, binding, bindingAt_bind]
  have hvars : (OpenTable.empty : VarTable).Sound := Symbols.sound_empty.vars
  have hvar : env.resolveVar ⟨9⟩ = some .integer := by
    simp [env, symbols, Env.resolveVar, Env.candidates, Scope.top, Scope.searched,
      VarTable.resolve, hvars.get?_insert]
  have hrun : ∃ s, Check.infer env ⟨2⟩ ⟨tree, Queue.withConfig .standard⟩ = .ok .bool s ∧
      s.reports.reports = #[] := by
    let typed (e : Expr) (type : TypeId) : Expr := { e with type }
    have hleft : Check.inferWithin env 3 ⟨0⟩ ⟨tree, Queue.withConfig .standard⟩ =
        .ok .integer ⟨Tree.ofExprs [typed (constant (.var ⟨9⟩)) .integer,
          constant (.literal (.int 2)), constant (.binary .lt ⟨0⟩ ⟨1⟩)],
            Queue.withConfig .standard⟩ := by
      have hname : Check.inferVar env ⟨9⟩ ⟨0, 1⟩ = pure .integer := by
        rw [Check.inferVar, hvar]
      show (Check.inferVar env ⟨9⟩ ⟨0, 1⟩ >>= fun type => do
        Check.record ⟨0⟩ type
        return type) ⟨tree, Queue.withConfig .standard⟩ = _
      rw [hname]
      rfl
    refine ⟨⟨Tree.ofExprs [typed (constant (.var ⟨9⟩)) .integer,
      typed (constant (.literal (.int 2))) .integer, typed (constant (.binary .lt ⟨0⟩ ⟨1⟩)) .bool],
      Queue.withConfig .standard⟩, ?_, rfl⟩
    show ((Check.inferWithin env 3 ⟨0⟩ >>= fun left => do
      let right ← Check.inferWithin env 3 ⟨1⟩
      Check.applyBinary env BinaryOp.lt.symbol .lt left right ⟨0, 1⟩) >>= fun type => do
        Check.record ⟨2⟩ type
        return type) ⟨tree, Queue.withConfig .standard⟩ = _
    rw [bind_assoc, bind_of_ok hleft]
    rfl
  obtain ⟨s, hrun, hquiet⟩ := hrun
  refine ⟨s, hrun, fun hnot => ?_⟩
  have hconstant : b.isConstant (f.isBound · 0) = true := by
    show ((true && (f.binding ⟨9⟩ 0).isSome) && true) = true
    rw [hvalue]
    rfl
  have hnames (name : Name) (hname : name ∈ b.names) : ∃ v, f.binding name 0 = some v ∧
      env.resolveVar name = some v.kind.type := by
    obtain rfl : name = ⟨9⟩ := by simpa [b, leaf, constant, Expr.new, Branch.names_mk, Expr.name?]
      using hname
    exact ⟨.int 1, hvalue, hvar⟩
  have hresult := evaluates_to_checked_type TypeTable.basics_ofBasics hb rfl hconstant hnames
    (Queue.sound_withConfig _) hrun hquiet
  rw [hnot] at hresult
  simp at hresult

end Folder

end FrontEnd
