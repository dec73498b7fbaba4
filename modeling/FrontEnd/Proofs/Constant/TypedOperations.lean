import FrontEnd.Constant.Machine
import FrontEnd.Proofs.Types.BasicTypes
import FrontEnd.Typing.Operators

/-!
What the checker accepts of an operator and what the machine calculates: the kinds of values follow
the types that were found.
-/

namespace FrontEnd

/-! ### Doubles -/

open Float.Model in
theorem compare_swap_isSome (x y : UnpackedFloat) (hx : x.isNaN = false) (hy : y.isNaN = false) :
    ∃ order, UnpackedFloat.compare x y = some order ∧
      UnpackedFloat.compare y x = some order.swap := by
  cases x with
  | notANumber => cases hx
  | infinity s =>
    cases y with
    | notANumber => cases hy
    | infinity s' => cases s <;> cases s' <;> exact ⟨_, rfl, rfl⟩
    | _ => cases s <;> exact ⟨_, rfl, rfl⟩
  | zero s =>
    cases y with
    | notANumber => cases hy
    | infinity s' | finite s' => cases s' <;> exact ⟨_, rfl, rfl⟩
    | zero s' => exact ⟨_, rfl, rfl⟩
  | finite s m e hm =>
    cases y with
    | notANumber => cases hy
    | infinity s' => cases s' <;> cases s <;> exact ⟨_, rfl, rfl⟩
    | zero s' => cases s <;> exact ⟨_, rfl, rfl⟩
    | finite s' m' e' hm' =>
      have hswap : (compare e' e).then (compare m' m) =
          ((compare e e').then (compare m m')).swap := by
        rw [Ordering.swap_then, ← Std.OrientedCmp.eq_swap, ← Std.OrientedCmp.eq_swap]
      have hback : some ((compare e' e).then (compare m' m)) =
          some ((compare e e').then (compare m m')).swap := congrArg some hswap
      have hnegative : some ((compare e' e).then (compare m' m)).swap =
          some ((compare e e').then (compare m m')).swap.swap := congrArg (some ·.swap) hswap
      cases s <;> cases s' <;>
        first | exact ⟨_, rfl, rfl⟩ | exact ⟨_, rfl, hback⟩ | exact ⟨_, rfl, hnegative⟩

/-- Two doubles that are numbers have an order. -/
theorem lt_or_lt_or_beq {a b : Float} (ha : a.isNaN = false) (hb : b.isNaN = false) :
    a < b ∨ b < a ∨ (a == b) = true := by
  obtain ⟨order, hab, hba⟩ := compare_swap_isSome a.toModel.unpack b.toModel.unpack ha hb
  have hbeq {x y : Option Ordering} (h : x = y) : (x == y) = true := beq_iff_eq.2 h
  cases order with
  | lt => exact .inl (decide_eq_true (hbeq hab))
  | gt => exact .inr (.inl (decide_eq_true (hbeq hba)))
  | eq => exact .inr (.inr (hbeq hab))

/-! ### Results of operators -/

/-- The value is not a number when it is read as a double. -/
def Value.isNaN (v : Value) : Bool := v.asDouble?.any Float.isNaN

namespace Machine

variable {op : BinaryOp} {l r : Value} {k : ValueKind}

/-- The result is a value of one kind, or a division has no result. -/
def Yields (k : ValueKind) (result : Except EvalError Value) : Prop :=
  (∃ v, result = .ok v ∧ v.kind = k) ∨ result = .error .divisionByZero

/-- Operators that calculate in the wider kind of their operands. -/
def Calculates (op : BinaryOp) (k : ValueKind) : Prop :=
  match OperatorGroup.of op with
  | .term | .factor => True
  | .bitwise => k.isIntegral = true
  | _ => False

theorem yields_ite {c : Prop} [Decidable c] {v : Value} (hv : v.kind = k) :
    Yields k (if c then .error .divisionByZero else .ok v) := by
  split
  · exact .inr rfl
  · exact .inl ⟨v, rfl, hv⟩

theorem yields_char (ho : Calculates op .char) (a b : UInt8) :
    Yields .char (.char <$> charArithmetic (Opcode.ofBinary op) a b) := by
  cases op <;> first
    | exact .inl ⟨_, rfl, rfl⟩
    | exact ho.elim
    | (simp only [Opcode.ofBinary, charArithmetic, apply_ite (Functor.map Value.char)]
       exact yields_ite rfl)

theorem yields_int (ho : Calculates op .integer) (a b : Int32) :
    Yields .integer (.int <$> intArithmetic (Opcode.ofBinary op) a b) := by
  cases op <;> first
    | exact .inl ⟨_, rfl, rfl⟩
    | exact ho.elim
    | (simp only [Opcode.ofBinary, intArithmetic, apply_ite (Functor.map Value.int)]
       exact yields_ite rfl)

theorem yields_long (ho : Calculates op .long) (a b : Int64) :
    Yields .long (.long <$> longArithmetic (Opcode.ofBinary op) a b) := by
  cases op <;> first
    | exact .inl ⟨_, rfl, rfl⟩
    | exact ho.elim
    | (simp only [Opcode.ofBinary, longArithmetic, apply_ite (Functor.map Value.long)]
       exact yields_ite rfl)

theorem yields_float (ho : Calculates op .float) (a b : Float32) :
    Yields .float (.float <$> floatArithmetic (Opcode.ofBinary op) a b) := by
  cases op <;> first
    | exact .inl ⟨_, rfl, rfl⟩
    | cases ho

theorem yields_double (ho : Calculates op .double) (a b : Float) :
    Yields .double (.double <$> doubleArithmetic (Opcode.ofBinary op) a b) := by
  cases op <;> first
    | exact .inl ⟨_, rfl, rfl⟩
    | cases ho

/-- Arithmetic on two numbers stays in their wider kind. -/
theorem yields_arithmetic (ho : Calculates op k) (hw : l.kind.wider r.kind = some k) :
    Yields k (arithmetic (Opcode.ofBinary op) l r) := by
  have hread {α : Type} {mk : α → Value} {as? : Value → Option α}
      {f : α → α → Except EvalError α} (hl : (as? l).isSome) (hr : (as? r).isSome)
      (hf : ∀ a b, Yields k (mk <$> f a b)) :
      Yields k (mk <$> both (Opcode.ofBinary op) as? f l r) := by
    obtain ⟨a, ha⟩ := Option.isSome_iff_exists.1 hl
    obtain ⟨b, hb⟩ := Option.isSome_iff_exists.1 hr
    simp only [both, ha, hb]
    exact hf a b
  unfold arithmetic
  rw [hw]
  cases k with
  | char =>
    refine hread ?_ ?_ (yields_char ho) <;> cases l <;> cases r <;> first | rfl | cases hw
  | integer =>
    refine hread ?_ ?_ (yields_int ho) <;> cases l <;> cases r <;> first | rfl | cases hw
  | long =>
    refine hread ?_ ?_ (yields_long ho) <;> cases l <;> cases r <;> first | rfl | cases hw
  | float =>
    refine hread ?_ ?_ (yields_float ho) <;> cases l <;> cases r <;> first | rfl | cases hw
  | double =>
    refine hread ?_ ?_ (yields_double ho) <;> cases l <;> cases r <;> first | rfl | cases hw
  | bool => cases l <;> cases r <;> cases hw

/-- Two numbers compare unless one of them is none. -/
theorem compare_numbers {code : Opcode} (hw : l.kind.wider r.kind = some k) :
    (∃ order, compare code l r = .ok order) ∨
      compare code l r = .error (.operands code) ∧ (l.isNaN = true ∨ r.isNaN = true) := by
  unfold compare
  rw [hw]
  dsimp only
  cases hint : k.isIntegral with
  | true =>
    obtain ⟨a, b, ha, hb⟩ : ∃ a b, l.asLong? = some a ∧ r.asLong? = some b := by
      cases k <;> cases hint <;> cases l <;> cases r <;>
        first | exact ⟨_, _, rfl, rfl⟩ | cases hw
    unfold both
    rw [if_pos rfl, ha, hb]
    exact .inl ⟨_, rfl⟩
  | false =>
    obtain ⟨a, b, ha, hb⟩ : ∃ a b, l.asDouble? = some a ∧ r.asDouble? = some b := by
      cases l <;> cases r <;> first | exact ⟨_, _, rfl, rfl⟩ | cases hw
    unfold both
    rw [if_neg Bool.false_ne_true, ha, hb, Value.isNaN, Value.isNaN, ha, hb]
    dsimp only [Option.any_some]
    split
    · exact .inl ⟨_, rfl⟩
    · split
      · exact .inl ⟨_, rfl⟩
      · split
        · exact .inl ⟨_, rfl⟩
        next hlt hgt heq =>
          refine .inr ⟨rfl, ?_⟩
          cases hna : a.isNaN with
          | true => exact .inl rfl
          | false =>
            cases hnb : b.isNaN with
            | true => exact .inr rfl
            | false =>
              rcases lt_or_lt_or_beq hna hnb with h | h | h
              · exact absurd h hlt
              · exact absurd h hgt
              · exact absurd h heq

/-! ### Checked operators -/

/-- Outcomes of an operator whose operands were checked: a value of the type that was found, or a
division by zero, or a comparison in which something is not a number. -/
inductive Outcome (op : BinaryOp) (l r : Value) (type : TypeId) : Except EvalError Value → Prop
  | value {v : Value} : v.kind.type = type → Outcome op l r type (.ok v)
  | divisionByZero : Outcome op l r type (.error .divisionByZero)
  | unordered : OperatorGroup.of op = .equality ∨ OperatorGroup.of op = .comparison →
    l.isNaN = true ∨ r.isNaN = true →
    Outcome op l r type (.error (.operands (Opcode.ofBinary op)))

theorem Yields.outcome {result : Except EvalError Value} (h : Yields k result) :
    Outcome op l r k.type result := by
  rcases h with ⟨v, rfl, rfl⟩ | rfl
  · exact .value rfl
  · exact .divisionByZero

/-- An order tells a bool. -/
theorem outcome_map {α : Type} {result : Except EvalError α} (f : α → Bool)
    (hop : OperatorGroup.of op = .equality ∨ OperatorGroup.of op = .comparison)
    (h : (∃ a, result = .ok a) ∨ result = .error (.operands (Opcode.ofBinary op)) ∧
      (l.isNaN = true ∨ r.isNaN = true)) :
    Outcome op l r .bool ((fun a => Value.bool (f a)) <$> result) := by
  rcases h with ⟨a, rfl⟩ | ⟨rfl, hnan⟩
  · exact .value rfl
  · exact .unordered hop hnan

theorem wider_of_ne_bool (hl : l.kind ≠ .bool) (hr : r.kind ≠ .bool) :
    ∃ k, l.kind.wider r.kind = some k := by
  simp [ValueKind.wider, hl, hr]

end Machine

namespace TypeTable.Basics

variable {types : TypeTable} {l r v : Value} {type : TypeId}

theorem both_numeric (ht : types.Basics) (k m : ValueKind) :
    OperatorGroup.both types.isNumeric k.type m.type = .ok (k != .bool && m != .bool) := by
  simp only [OperatorGroup.both, ht.isNumeric_type, Bind.bind, Except.bind, Pure.pure, Except.pure]
  cases k != .bool <;> rfl

theorem both_integral (ht : types.Basics) (k m : ValueKind) :
    OperatorGroup.both types.isIntegral k.type m.type = .ok (k.isIntegral && m.isIntegral) := by
  simp only [OperatorGroup.both, ht.isIntegral_type, Bind.bind, Except.bind, Pure.pure, Except.pure]
  cases k.isIntegral <;> rfl

theorem accepts_of_checkBinary {op : BinaryOp} {k m : ValueKind}
    (h : checkBinary types op k.type m.type = .ok (.accepted type)) :
    (OperatorGroup.of op).accepts types k.type m.type = .ok (some type) := by
  simp only [checkBinary, k.type_ne_invalid, m.type_ne_invalid, or_self, if_false] at h
  cases ha : (OperatorGroup.of op).accepts types k.type m.type with
  | error f => simp [ha, Bind.bind, Except.bind] at h
  | ok found =>
    rw [ha] at h
    cases found with
    | none => cases h
    | some found =>
      cases h
      rfl

/-- What the checker accepts, the machine calculates in the type that the checker found. -/
theorem outcome_binary (ht : types.Basics) {op : BinaryOp}
    (h : checkBinary types op l.kind.type r.kind.type = .ok (.accepted type)) :
    Machine.Outcome op l r type (Machine.binary (Opcode.ofBinary op) l r) := by
  have ha := accepts_of_checkBinary h
  cases hg : OperatorGroup.of op <;> rw [hg] at ha
  case term | factor =>
    simp only [OperatorGroup.accepts, ht.both_numeric] at ha
    cases hl : l.kind != .bool <;> cases hr : r.kind != .bool <;>
      simp [hl, hr, Bind.bind, Except.bind, Pure.pure, Except.pure] at ha
    obtain ⟨k, hw⟩ := Machine.wider_of_ne_bool (bne_iff_ne.1 hl) (bne_iff_ne.1 hr)
    simp [ht.wider_type _ _ hw] at ha
    subst ha
    have hop : Machine.Calculates op k := by simp [Machine.Calculates, hg]
    cases op <;> first
      | exact (Machine.yields_arithmetic hop hw).outcome
      | cases hg
  case bitwise =>
    simp only [OperatorGroup.accepts, ht.both_integral] at ha
    cases hl : l.kind.isIntegral <;> cases hr : r.kind.isIntegral <;>
      simp [hl, hr, Bind.bind, Except.bind, Pure.pure, Except.pure] at ha
    obtain ⟨k, hw, hint⟩ : ∃ k, l.kind.wider r.kind = some k ∧ k.isIntegral = true := by
      revert hl hr
      cases l.kind <;> cases r.kind <;> decide
    simp [ht.wider_type _ _ hw] at ha
    subst ha
    have hop : Machine.Calculates op k := by simpa [Machine.Calculates, hg] using hint
    cases op <;> first
      | exact (Machine.yields_arithmetic hop hw).outcome
      | cases hg
  case equality =>
    simp only [OperatorGroup.accepts, ht.both_numeric, ht.equal_type, l.kind.type_ne_void,
      if_false, Bind.bind, Except.bind, Pure.pure, Except.pure] at ha
    split at ha
    next hboth =>
      obtain rfl := Option.some.inj (Except.ok.inj ha)
      rw [Bool.and_eq_true] at hboth
      obtain ⟨k, hw⟩ := Machine.wider_of_ne_bool (bne_iff_ne.1 hboth.1) (bne_iff_ne.1 hboth.2)
      have hequal (code : Opcode) :
          Machine.equal code l r = (· == .eq) <$> Machine.compare code l r := by
        cases l <;> first | rfl | cases hboth.1
      cases op <;> first
        | (simp only [Opcode.ofBinary, Machine.binary, hequal, ← comp_map]
           exact Machine.outcome_map _ (.inl rfl) (Machine.compare_numbers hw))
        | cases hg
    next hboth =>
      split at ha
      next hsame =>
        obtain rfl := Option.some.inj (Except.ok.inj ha)
        obtain ⟨a, rfl⟩ : ∃ a, l = .bool a := by
          cases l <;> cases r <;> first | exact ⟨_, rfl⟩ | exact absurd rfl hboth | cases hsame
        cases r <;> cases hsame
        cases op <;> first | exact .value rfl | cases hg
      next => cases ha
  case comparison =>
    simp only [OperatorGroup.accepts, ht.both_numeric] at ha
    cases hl : l.kind != .bool <;> cases hr : r.kind != .bool <;>
      simp [hl, hr, Bind.bind, Except.bind, Pure.pure, Except.pure] at ha
    subst ha
    obtain ⟨k, hw⟩ := Machine.wider_of_ne_bool (bne_iff_ne.1 hl) (bne_iff_ne.1 hr)
    cases op <;> first
      | exact Machine.outcome_map _ (.inr rfl) (Machine.compare_numbers hw)
      | cases hg
  case logical =>
    simp only [OperatorGroup.accepts, Pure.pure, Except.pure, Except.ok.injEq] at ha
    split at ha
    next hboth =>
      obtain rfl := Option.some.inj ha
      obtain ⟨hl, hr⟩ := hboth
      cases l <;> cases hl
      cases r <;> cases hr
      cases op <;> first
        | exact .value rfl
        | cases hg
    next => cases ha

/-- A unary operator that the checker accepts yields a value of the type of its operand. -/
theorem value_unary (ht : types.Basics) {op : UnaryOp}
    (h : checkUnary types op v.kind.type = .ok (.accepted type)) :
    type = v.kind.type ∧ ∀ code, Opcode.ofUnary? op = some code →
      ∃ w, Machine.unary code v = .ok w ∧ w.kind.type = type := by
  simp only [checkUnary, v.kind.type_ne_invalid, if_false] at h
  cases ha : op.accepts types v.kind.type with
  | error f => simp [ha, Bind.bind, Except.bind] at h
  | ok accepted =>
    rw [ha] at h
    cases accepted with
    | false => cases h
    | true =>
      cases h
      refine ⟨rfl, fun code hcode => ?_⟩
      cases op <;> cases hcode <;>
        simp only [UnaryOp.accepts, ht.isNumeric_type, ht.isIntegral_type, Pure.pure, Except.pure,
          Except.ok.injEq] at ha <;>
        cases v <;> first
          | exact ⟨_, rfl, rfl⟩
          | cases ha

end TypeTable.Basics

end FrontEnd
