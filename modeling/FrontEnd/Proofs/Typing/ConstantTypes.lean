import FrontEnd.Proofs.Constant.Evaluation
import FrontEnd.Proofs.Typing.Inference
import FrontEnd.Proofs.Typing.TypingGrowth

/-! A constant has a basic type, whatever is reported of it. -/

namespace FrontEnd

namespace TypeTable

variable {types : TypeTable} {id left right type : TypeId} {n : Nat}

/-- Basic types are the ones at their own handles. -/
def Anchored (types : TypeTable) : Prop := ∀ id b, types.kind id = .ok (.basic b) → id = b.id

theorem Anchored.of_rank? (h : types.Anchored) (hr : types.rank? id = .ok (some n)) :
    ∃ b : BasicType, id = b.id := by
  obtain ⟨kind, hk, hr⟩ := bind_ok hr
  cases kind with
  | basic b => exact ⟨b, h id b hk⟩
  | _ => cases hr

theorem Anchored.of_isNumeric (h : types.Anchored) (hn : types.isNumeric id = .ok true) :
    ∃ b : BasicType, id = b.id := by
  obtain ⟨rank, hr, hn⟩ := bind_ok hn
  cases rank with
  | none => cases hn
  | some n => exact h.of_rank? hr

theorem Anchored.of_isIntegral (h : types.Anchored) (hn : types.isIntegral id = .ok true) :
    ∃ b : BasicType, id = b.id := by
  obtain ⟨rank, hr, hn⟩ := bind_ok hn
  cases rank with
  | none => cases hn
  | some n => exact h.of_rank? hr

/-- Where both operands are of basic types, the wider type is one of them. -/
theorem basic_of_wider {p : TypeId → Except Fault Bool}
    (hp : ∀ id, p id = .ok true → ∃ b : BasicType, id = b.id)
    (h : (do
      if ← OperatorGroup.both p left right then return some (← types.wider left right)
      return none) = Except.ok (some type)) : ∃ b : BasicType, type = b.id := by
  obtain ⟨fits, hfits, h⟩ := bind_ok h
  cases fits with
  | false => cases h
  | true =>
    obtain ⟨wide, hwide, h⟩ := bind_ok h
    cases h
    obtain ⟨fits, hleft, hfits⟩ := bind_ok hfits
    cases fits with
    | false => cases hfits
    | true => exact (wider_eq hwide).elim (fun he => he ▸ hp _ hleft) fun he => he ▸ hp _ hfits

theorem Anchored.basic_of_accepts (h : types.Anchored) {group : OperatorGroup}
    (ha : group.accepts types left right = .ok (some type)) : ∃ b : BasicType, type = b.id := by
  cases group with
  | term | factor => exact basic_of_wider (fun _ => h.of_isNumeric) ha
  | bitwise => exact basic_of_wider (fun _ => h.of_isIntegral) ha
  | equality =>
    obtain ⟨numeric, -, ha⟩ := bind_ok ha
    cases numeric with
    | true =>
      cases ha
      exact ⟨.bool, rfl⟩
    | false =>
      obtain ⟨equal, -, ha⟩ := bind_ok ha
      cases equal with
      | false => cases ha
      | true =>
        refine ⟨.bool, ?_⟩
        simp only [if_true, Pure.pure, Except.pure, Except.ok.injEq] at ha
        split at ha <;> simp_all [TypeId.bool]
  | comparison =>
    obtain ⟨numeric, -, ha⟩ := bind_ok ha
    cases numeric with
    | true =>
      cases ha
      exact ⟨.bool, rfl⟩
    | false => cases ha
  | logical =>
    refine ⟨.bool, ?_⟩
    simp only [OperatorGroup.accepts, Pure.pure, Except.pure, Except.ok.injEq] at ha
    split at ha <;> simp_all [TypeId.bool]

/-- The nominal type of a rejected application is basic, and so are all that are accepted. -/
theorem Anchored.basic_of_checkBinary (h : types.Anchored) {op : BinaryOp} {result : Application}
    (hc : checkBinary types op left right = .ok result) : ∃ b : BasicType, result.type = b.id := by
  have hnominal : ∃ b : BasicType, (OperatorGroup.of op).nominal = b.id := by
    cases OperatorGroup.of op <;> first | exact ⟨.bool, rfl⟩ | exact ⟨.integer, rfl⟩
  unfold checkBinary at hc
  dsimp only at hc
  split at hc
  · cases hc
    exact hnominal
  · obtain ⟨found, ha, hc⟩ := bind_ok hc
    cases found with
    | none =>
      cases hc
      exact hnominal
    | some type =>
      cases hc
      exact h.basic_of_accepts ha

theorem Anchored.basic_of_checkUnary (h : types.Anchored) {op : UnaryOp} {operand : TypeId}
    {result : Application} (hc : checkUnary types op operand = .ok result) :
    ∃ b : BasicType, result.type = b.id := by
  have hnominal : ∃ b : BasicType, op.nominal = b.id := by
    cases op <;> first | exact ⟨.bool, rfl⟩ | exact ⟨.integer, rfl⟩
  unfold checkUnary at hc
  split at hc
  · cases hc
    exact hnominal
  · obtain ⟨fits, ha, hc⟩ := bind_ok hc
    cases fits with
    | false =>
      cases hc
      exact hnominal
    | true =>
      cases hc
      cases op with
      | neg | plus | preInc | preDec => exact h.of_isNumeric ha
      | bitNot => exact h.of_isIntegral ha
      | not => exact ⟨.bool, of_decide_eq_true (Except.ok.inj ha)⟩

end TypeTable

namespace Check

variable {env : Env} {isBound : Name → Bool} {b : Branch} {i : ExprId} {tree : Tree} {q : Queue}
  {type : TypeId} {u : CheckState}

theorem type_of_settle {result : Application} {span : Span} {message : Check String}
    {label : String} {s : CheckState}
    (h : settle env result span message label s = .ok type u) : type = result.type := by
  unfold settle at h
  split at h
  · cases h
    rfl
  · obtain ⟨_, _, -, h⟩ := bind_eq_ok h
    obtain ⟨_, _, -, h⟩ := bind_eq_ok h
    cases h
    rfl

theorem inferWithin_ok {depth : Nat} {s : CheckState}
    (h : inferWithin env depth i s = .ok type u) :
    ∃ d v, inferNode env (inferWithin env d) i s = .ok type v := by
  cases depth with
  | zero => cases h
  | succ depth =>
    obtain ⟨_, v, hnode, h⟩ := bind_eq_ok h
    obtain ⟨_, _, -, h⟩ := bind_eq_ok h
    cases h
    exact ⟨depth, v, hnode⟩

theorem ofExcept_ok {α : Type} {x : Except Fault α} {a : α} {s : CheckState}
    (h : (ofExcept x : Check α) s = .ok a u) : x = .ok a := by
  cases x with
  | error f => cases h
  | ok b =>
    cases h
    rfl

theorem expr_held {e : Expr} {ps : List Branch} (ht : tree.Holds [⟨.expr i, .expr e, ps⟩])
    (q : Queue) : Check.expr i ⟨tree, q⟩ = .ok e ⟨tree, q⟩ := by
  have hplug : tree.Holds ((Hole.top [] []).plug ⟨.expr i, .expr e, ps⟩) := ht
  exact expr_plugged hplug q

theorem basic_of_inferWithin {depth : Nat} (h : env.types.Anchored)
    (hnames : ∀ name, isBound name = true → ∃ b : BasicType, env.resolveVar name = some b.id)
    (hc : b.isConstant isBound = true) (ht : tree.Holds [b]) (hb : b.root = .expr i)
    (hrun : inferWithin env depth i ⟨tree, q⟩ = .ok type u) : ∃ b : BasicType, type = b.id := by
  -- Only a group has the type of its part; that of an operator is basic whatever its operands are.
  induction b, hc using Branch.constant_induct generalizing depth i u with
  | literal root e v _ hk =>
    obtain rfl : root = .expr i := hb
    obtain ⟨depth, w, hrun⟩ := inferWithin_ok hrun
    unfold inferNode at hrun
    rw [bind_of_ok (expr_held ht q)] at hrun
    simp only [hk] at hrun
    cases hrun
    exact ⟨v.kind.basic, v.kind.id_basic.symm⟩
  | name root e name _ hk _ hname =>
    obtain rfl : root = .expr i := hb
    obtain ⟨depth, w, hrun⟩ := inferWithin_ok hrun
    obtain ⟨b, hb⟩ := hnames name hname
    unfold inferNode at hrun
    rw [bind_of_ok (expr_held ht q)] at hrun
    simp only [hk, inferVar, hb] at hrun
    cases hrun
    exact ⟨b, rfl⟩
  | group root e j p _ _ hk ih =>
    obtain rfl : root = .expr i := hb
    obtain ⟨depth, w, hrun⟩ := inferWithin_ok hrun
    unfold inferNode at hrun
    rw [bind_of_ok (expr_held ht q)] at hrun
    simp only [hk] at hrun
    have hp : p.root = .expr j := by
      simpa [Tree.children, Tree.exprChildren, hk] using ht.root.children.symm
    exact ih ht.opened.1 hp hrun
  | unary root e op j p _ _ hk _ ih =>
    obtain rfl : root = .expr i := hb
    obtain ⟨depth, w, hrun⟩ := inferWithin_ok hrun
    unfold inferNode at hrun
    rw [bind_of_ok (expr_held ht q)] at hrun
    simp only [hk] at hrun
    obtain ⟨operand, _, -, hrun⟩ := bind_eq_ok hrun
    obtain ⟨result, _, hresult, hrun⟩ := bind_eq_ok hrun
    rw [type_of_settle hrun]
    exact h.basic_of_checkUnary (ofExcept_ok hresult)
  | binary root e op j k l r _ _ _ hk =>
    obtain rfl : root = .expr i := hb
    obtain ⟨depth, w, hrun⟩ := inferWithin_ok hrun
    unfold inferNode at hrun
    rw [bind_of_ok (expr_held ht q)] at hrun
    simp only [hk] at hrun
    obtain ⟨left, _, -, hrun⟩ := bind_eq_ok hrun
    obtain ⟨right, _, -, hrun⟩ := bind_eq_ok hrun
    obtain ⟨result, _, hresult, hrun⟩ := bind_eq_ok hrun
    rw [type_of_settle hrun]
    exact h.basic_of_checkBinary (ofExcept_ok hresult)

/-- If the names of constants stand for variables of basic types, a constant has a basic type. -/
theorem basic_of_infer (h : env.types.Anchored)
    (hnames : ∀ name, isBound name = true → ∃ b : BasicType, env.resolveVar name = some b.id)
    (hc : b.isConstant isBound = true) (ht : tree.Holds [b]) (hb : b.root = .expr i)
    (hrun : infer env i ⟨tree, q⟩ = .ok type u) : ∃ b : BasicType, type = b.id := by
  obtain ⟨s, _, hget, hrun⟩ := bind_eq_ok hrun
  cases hget
  exact basic_of_inferWithin h hnames hc ht hb hrun

/-- A variable has the type that is declared, or else that of its initializer. -/
theorem type_of_checkInitializer {name : Name} {declared : TypeId} {s : CheckState}
    (hrun : checkInitializer env name declared i s = .ok type u) :
    declared ≠ .invalid ∧ type = declared ∨ ∃ v, infer env i s = .ok type v := by
  obtain ⟨found, v, hinfer, hrun⟩ := bind_eq_ok hrun
  by_cases hd : declared = .invalid
  · rw [if_pos hd] at hrun
    cases hrun
    exact .inr ⟨_, hinfer⟩
  · rw [if_neg hd] at hrun
    obtain ⟨fits, w, -, hrun⟩ := bind_eq_ok hrun
    cases fits with
    | true =>
      cases hrun
      exact .inl ⟨hd, rfl⟩
    | false =>
      obtain ⟨_, _, -, hrun⟩ := bind_eq_ok hrun
      obtain ⟨_, _, -, hrun⟩ := bind_eq_ok hrun
      obtain ⟨_, _, -, hrun⟩ := bind_eq_ok hrun
      obtain ⟨_, _, -, hrun⟩ := bind_eq_ok hrun
      cases hrun
      exact .inl ⟨hd, rfl⟩

end Check

end FrontEnd
