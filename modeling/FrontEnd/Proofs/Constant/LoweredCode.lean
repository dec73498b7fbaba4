import FrontEnd.Constant.Machine
import FrontEnd.Proofs.Constant.Evaluation
import FrontEnd.Proofs.Grammar.Outcome
import Mathlib.Data.List.Dedup

/-!
The code of an expression computes the value of its branch. A stretch of code is told by what it
does to any stack before any other code; the tables that it refers to may grow behind it.
-/

namespace FrontEnd

/-! ### Operations -/

namespace Machine

/-- What an operator objects to. -/
def Objects (err : EvalError) : Prop := err = .divisionByZero ∨ ∃ op, err = .operands op

theorem objects_unary {op : Opcode} {v : Value} {err : EvalError} (h : unary op v = .error err) :
    Objects err := by
  unfold unary at h
  split at h <;> cases h
  exact .inr ⟨op, rfl⟩

theorem objects_both {α β : Type} {op : Opcode} {as? : Value → Option α}
    {f : α → α → Except EvalError β} {l r : Value} {err : EvalError}
    (hf : ∀ a b, f a b = .error err → Objects err) (h : both op as? f l r = .error err) :
    Objects err := by
  unfold both at h
  split at h
  · exact hf _ _ h
  · cases h
    exact .inr ⟨op, rfl⟩

theorem objects_map {α β : Type} {f : α → β} {r : Except EvalError α} {err : EvalError}
    (h : f <$> r = .error err) (hr : r = .error err → Objects err) : Objects err := by
  cases r with
  | ok a => cases h
  | error err' =>
    obtain rfl := Except.error.inj h
    exact hr rfl

theorem objects_arithmetic {op : Opcode} {l r : Value} {err : EvalError}
    (h : arithmetic op l r = .error err) : Objects err := by
  unfold arithmetic at h
  split at h
  · refine objects_map h (objects_both fun a b hf => ?_)
    unfold charArithmetic at hf
    split at hf <;> grind [Objects]
  · refine objects_map h (objects_both fun a b hf => ?_)
    unfold intArithmetic at hf
    split at hf <;> grind [Objects]
  · refine objects_map h (objects_both fun a b hf => ?_)
    unfold longArithmetic at hf
    split at hf <;> grind [Objects]
  · refine objects_map h (objects_both fun a b hf => ?_)
    unfold floatArithmetic at hf
    split at hf <;> grind [Objects]
  · refine objects_map h (objects_both fun a b hf => ?_)
    unfold doubleArithmetic at hf
    split at hf <;> grind [Objects]
  all_goals
    cases h
    exact .inr ⟨op, rfl⟩

theorem objects_compare {op : Opcode} {l r : Value} {err : EvalError}
    (h : compare op l r = .error err) : Objects err := by
  unfold compare at h
  cases hk : l.kind.wider r.kind with
  | none =>
    rw [hk] at h
    cases h
    exact .inr ⟨op, rfl⟩
  | some kind =>
    rw [hk] at h
    dsimp only at h
    cases hi : kind.isIntegral with
    | true =>
      rw [hi, if_pos rfl] at h
      exact objects_both (fun a b hf => by cases hf) h
    | false =>
      rw [hi, if_neg Bool.false_ne_true] at h
      refine objects_both (fun a b hf => ?_) h
      grind [Objects]

theorem objects_equal {op : Opcode} {l r : Value} {err : EvalError}
    (h : equal op l r = .error err) : Objects err := by
  unfold equal at h
  split at h
  · cases h
  · exact objects_map h objects_compare

theorem objects_binary {op : Opcode} {l r : Value} {err : EvalError}
    (h : binary op l r = .error err) : Objects err := by
  unfold binary at h
  split at h
  case h_1 | h_2 =>
    split at h
    · cases h
    · cases h
      exact .inr ⟨_, rfl⟩
  case h_3 | h_4 => exact objects_map h objects_equal
  case h_9 => exact objects_arithmetic h
  all_goals exact objects_map h objects_compare

end Machine

/-! ### Code -/

namespace Chunk

variable {c d e : Chunk} {bindings : Name → Option Value}
  {f g : List Value → Except EvalError (List Value)} {op : Opcode} {name : Name} {v : Value}

/-- The tables of `c` are the first entries of those of `d`. -/
structure Grows (c d : Chunk) : Prop where
  constants : c.constants.toList <+: d.constants.toList
  names : c.names.toList <+: d.names.toList

theorem Grows.refl (c : Chunk) : c.Grows c := ⟨List.prefix_refl _, List.prefix_refl _⟩

theorem Grows.trans (h : c.Grows d) (h' : d.Grows e) : c.Grows e :=
  ⟨h.constants.trans h'.constants, h.names.trans h'.names⟩

/-- From `c` to `d`, code was appended that does `f` to the stack. -/
structure Appends (bindings : Name → Option Value) (c d : Chunk)
    (f : List Value → Except EvalError (List Value)) : Prop where
  grows : c.Grows d
  code : ∃ code, d.code.toList = c.code.toList ++ code ∧ ∀ e, d.Grows e → ∀ rest stack,
    Machine.exec e bindings (code ++ rest) stack = f stack >>= Machine.exec e bindings rest

theorem Appends.trans (h : Appends bindings c d f) (h' : Appends bindings d e g) :
    Appends bindings c e fun stack => f stack >>= g := by
  obtain ⟨hg, code, hcode, hrun⟩ := h
  obtain ⟨hg', code', hcode', hrun'⟩ := h'
  refine ⟨hg.trans hg', code ++ code', by rw [hcode', hcode, List.append_assoc], ?_⟩
  intro k hk rest stack
  rw [List.append_assoc, hrun k (hg'.trans hk)]
  cases f stack with
  | error err => rfl
  | ok stack => exact hrun' k hk rest stack

theorem Appends.congr (h : Appends bindings c d f) (hfg : ∀ stack, f stack = g stack) :
    Appends bindings c d g := by
  obtain rfl : f = g := funext hfg
  exact h

/-- No name stands twice in the table, and no table is too long for its indices. -/
structure Fits (c : Chunk) : Prop where
  nodup : c.names.toList.Nodup
  constants : c.constants.size ≤ tableLimit
  names : c.names.size ≤ tableLimit

theorem fits_empty : empty.Fits := ⟨List.nodup_nil, by decide, by decide⟩

theorem toNat_index {index : Nat} (h : index < tableLimit) : index.toUInt8.toNat = index :=
  Nat.mod_eq_of_lt h

theorem appends_op (hp : op ≠ .push) (hl : op ≠ .load) :
    Appends bindings c (c.op op) (Machine.apply op) := by
  refine ⟨⟨List.prefix_refl _, List.prefix_refl _⟩, [op.byte], by simp [Chunk.op], ?_⟩
  intro e _ rest stack
  simp [Machine.exec, Opcode.ofByte?_byte, hp, hl]

/-- A push or load puts what it finds at its index on the stack. -/
theorem appends_indexed {index : Nat} (hg : c.Grows d) (hc : d.code = c.code)
    (hop : op = .push ∨ op = .load) (hi : index < tableLimit) {r : Except EvalError Value}
    (hf : ∀ e, d.Grows e → Machine.fetch e bindings op index = r) :
    Appends bindings c (d.indexed op index) fun stack => (· :: stack) <$> r := by
  refine ⟨⟨hg.constants, hg.names⟩, [op.byte, index.toUInt8], by simp [indexed, hc], ?_⟩
  intro e he rest stack
  have hfetch := hf e ⟨he.constants, he.names⟩
  simp only [List.cons_append, List.nil_append, Machine.exec, Opcode.ofByte?_byte, hop, if_true,
    toNat_index hi, hfetch]
  cases r <;> rfl

/-- The outcome of pushing a constant. -/
theorem pushConstant_spec (h : c.Fits) (bindings : Name → Option Value) (v : Value) :
    (∃ d, c.pushConstant v = .ok d ∧ d.Fits ∧ d.constants.toList = c.constants.toList ++ [v] ∧
      d.names = c.names ∧ Appends bindings c d fun stack => .ok (v :: stack)) ∨
    c.pushConstant v = .error .tooManyConstants ∧ c.constants.size = tableLimit := by
  unfold pushConstant
  by_cases hlt : c.constants.size < tableLimit
  · refine .inl ⟨_, if_pos hlt, ⟨h.nodup, by simpa [indexed] using Nat.succ_le_of_lt hlt, h.names⟩,
      by simp [indexed], rfl, ?_⟩
    refine (appends_indexed (c := c) (d := ⟨c.code, c.constants.push v, c.names⟩)
      (r := .ok v) ?_ rfl
      (.inl rfl) hlt ?_).congr fun stack => rfl
    · exact ⟨by simp, List.prefix_refl _⟩
    · intro e he
      obtain ⟨more, hmore⟩ := he.constants
      have hat : e.constants[c.constants.size]? = some v := by
        rw [← Array.getElem?_toList, ← hmore]
        simp
      simp [Machine.fetch, hat]
  · exact .inr ⟨if_neg hlt, Nat.le_antisymm h.constants (Nat.le_of_not_lt hlt)⟩

/-- The outcome of loading a name. -/
theorem load_spec (h : c.Fits) (bindings : Name → Option Value) (name : Name) :
    (∃ d, c.load name = .ok d ∧ d.Fits ∧ d.constants = c.constants ∧
      (∀ n, n ∈ d.names.toList ↔ n ∈ c.names.toList ∨ n = name) ∧
      Appends bindings c d fun stack =>
        (· :: stack) <$> (bindings name).elim (.error .unbound) .ok) ∨
    c.load name = .error .tooManyConstants ∧ c.names.size = tableLimit ∧ name ∉ c.names.toList := by
  have hfetch {d e : Chunk} {index : Nat} (hd : d.names[index]? = some name) (he : d.Grows e) :
      Machine.fetch e bindings .load index = (bindings name).elim (.error .unbound) .ok := by
    have hat : e.names[index]? = some name := by
      rw [← Array.getElem?_toList] at hd ⊢
      obtain ⟨hlt, rfl⟩ := List.getElem?_eq_some_iff.1 hd
      exact List.prefix_iff_getElem?.1 he.names index hlt
    cases hb : bindings name <;> simp [Machine.fetch, hat, hb]
  unfold load
  cases hf : c.names.finIdxOf? name with
  | some index =>
    obtain ⟨hat, -⟩ := Array.finIdxOf?_eq_some_iff.1 hf
    have hmem : name ∈ c.names.toList := hat ▸ Array.getElem_mem_toList index.isLt
    replace hat : c.names[index.val]? = some name := by simp [← hat]
    refine .inl ⟨_, rfl, ⟨h.nodup, h.constants, h.names⟩, rfl, ?_, ?_⟩
    · intro n
      constructor
      · exact .inl
      · rintro (hn | rfl)
        · exact hn
        · exact hmem
    · exact appends_indexed (Grows.refl c) rfl (.inr rfl) (Nat.lt_of_lt_of_le index.isLt h.names)
        fun e he => hfetch hat he
  | none =>
    have hnot : name ∉ c.names.toList := by
      rw [Array.mem_toList_iff]
      exact Array.finIdxOf?_eq_none_iff.1 hf
    by_cases hlt : c.names.size < tableLimit
    · refine .inl ⟨_, if_pos hlt, ⟨?_, h.constants, ?_⟩, rfl, ?_, ?_⟩
      · simpa [indexed] using List.Nodup.concat hnot h.nodup
      · simpa [indexed] using Nat.succ_le_of_lt hlt
      · intro n
        simp [indexed]
      · refine appends_indexed (c := c) (d := ⟨c.code, c.constants, c.names.push name⟩)
          ⟨List.prefix_refl _, by simp⟩ rfl (.inr rfl) hlt ?_
        intro e he
        exact hfetch (by simp) he
    · exact .inr ⟨if_neg hlt, Nat.le_antisymm h.names (Nat.le_of_not_lt hlt), hnot⟩

end Chunk

namespace Lowering

variable {tree : Tree} {bindings : Name → Option Value} {b p left right : Branch} {c d : Chunk}
  {id : ExprId} {e : Expr} {parts bs : List Branch}

/-- The names that a binding environment binds. -/
def bound (bindings : Name → Option Value) (name : Name) : Bool := (bindings name).isSome

/-- The code of a branch was appended to `c`. -/
structure Lowered (bindings : Name → Option Value) (b : Branch) (c d : Chunk) : Prop where
  constant : b.isConstant (bound bindings) = true
  fits : d.Fits
  constants : d.constants.toList = c.constants.toList ++ b.literals
  names : ∀ n, n ∈ d.names.toList ↔ n ∈ c.names.toList ∨ n ∈ b.names
  appends : Chunk.Appends bindings c d fun stack => (· :: stack) <$> b.value bindings

/-- No tables have room for what `c` and the branch refer to. -/
def Crowded (b : Branch) (c : Chunk) : Prop :=
  tableLimit < c.constants.size + b.literals.length ∨
    ∀ names : List Name, c.names.toList ⊆ names → b.names ⊆ names → tableLimit < names.dedup.length

/-- Why a branch has no code behind `c`. -/
inductive Refused (bindings : Name → Option Value) (b : Branch) (c : Chunk) : Halt EvalError → Prop
  | notConstant : b.isConstant (bound bindings) = false → Refused bindings b c (.cause .notConstant)
  | crowded : Crowded b c → Refused bindings b c (.cause .tooManyConstants)

theorem meets_emit {step : Chunk → Except EvalError Chunk} {Q : Unit → Chunk → Prop}
    {E : Halt EvalError → Chunk → Prop} (hok : ∀ d, step c = .ok d → Q () d)
    (herror : ∀ err, step c = .error err → E (.cause err) c) : Meets (emit step) c Q E := by
  refine meets_bind_of_ok (get_eq c) ?_
  cases hs : step c with
  | ok d => exact meets_set (hok d hs)
  | error err => exact meets_throw (herror err hs)

theorem lowers_literal {value : Value} (h : c.Fits) (hk : e.kind = .literal value) :
    Meets (emit (·.pushConstant value)) c
      (fun _ d => Lowered bindings ⟨.expr id, .expr e, []⟩ c d)
      fun err _ => Refused bindings ⟨.expr id, .expr e, []⟩ c err := by
  have hliterals : Branch.literals ⟨.expr id, .expr e, []⟩ = [value] := by
    simp [Branch.literals_mk, Expr.literal?, hk]
  have hnames : Branch.names ⟨.expr id, .expr e, []⟩ = [] := by
    simp [Branch.names_mk, Expr.name?, hk]
  obtain ⟨d, hd, hf, hc, hn, ha⟩ | ⟨he, hfull⟩ := Chunk.pushConstant_spec h bindings value
  · refine meets_emit (fun d' hd' => ?_) fun err herr => by simp [hd] at herr
    obtain rfl : d = d' := by simpa [hd] using hd'
    exact ⟨by simp [Branch.isConstant, hk], hf, by rw [hc, hliterals], by simp [hn, hnames],
      ha.congr fun stack => by simp [Branch.value, hk]⟩
  · refine meets_emit (fun d' hd' => by simp [he] at hd') fun err herr => ?_
    obtain rfl : EvalError.tooManyConstants = err := by simpa [he] using herr
    exact .crowded (.inl (by simp [hliterals, hfull]))

theorem lowers_name {name : Name} (h : c.Fits) (hk : e.kind = .var name)
    (hb : (e.isConstant && bound bindings name) = true) :
    Meets (emit (·.load name)) c
      (fun _ d => Lowered bindings ⟨.expr id, .expr e, []⟩ c d)
      fun err _ => Refused bindings ⟨.expr id, .expr e, []⟩ c err := by
  have hliterals : Branch.literals ⟨.expr id, .expr e, []⟩ = [] := by
    simp [Branch.literals_mk, Expr.literal?, hk]
  have hnames : Branch.names ⟨.expr id, .expr e, []⟩ = [name] := by
    simp [Branch.names_mk, Expr.name?, hk]
  obtain ⟨d, hd, hf, hc, hn, ha⟩ | ⟨he, hfull, hnot⟩ := Chunk.load_spec h bindings name
  · refine meets_emit (fun d' hd' => ?_) fun err herr => by simp [hd] at herr
    obtain rfl : d = d' := by simpa [hd] using hd'
    exact ⟨by simpa [Branch.isConstant, hk] using hb, hf, by simp [hc, hliterals],
      by simp [hn, hnames], ha.congr fun stack => by simp [Branch.value, hk]⟩
  · refine meets_emit (fun d' hd' => by simp [he] at hd') fun err herr => ?_
    obtain rfl : EvalError.tooManyConstants = err := by simpa [he] using herr
    refine .crowded (.inr fun names hc hnew => ?_)
    have hnodup : (name :: c.names.toList).Nodup := List.nodup_cons.2 ⟨hnot, h.nodup⟩
    have hsub : (name :: c.names.toList) ⊆ names.dedup := by
      intro n hn
      rw [List.mem_dedup]
      rcases List.mem_cons.1 hn with rfl | hn
      · exact hnew (by simp [hnames])
      · exact hc hn
    have := hnodup.length_le_of_subset hsub
    simp only [List.length_cons, Array.length_toList, hfull] at this
    omega

theorem Crowded.mono (h : Crowded b c) (hl : b.literals.length ≤ p.literals.length)
    (hn : b.names ⊆ p.names) : Crowded p c := by
  rcases h with h | h
  · exact .inl (by omega)
  · exact .inr fun names hc hp => h names hc (List.Subset.trans hn hp)

/-- A part that has no code leaves the whole without. -/
theorem Refused.part {err : Halt EvalError} (h : Refused bindings p c err)
    (hc : p.isConstant (bound bindings) = false → b.isConstant (bound bindings) = false)
    (hl : p.literals.length ≤ b.literals.length) (hn : p.names ⊆ b.names) :
    Refused bindings b c err := by
  cases h with
  | notConstant h => exact .notConstant (hc h)
  | crowded h => exact .crowded (h.mono hl hn)

/-- The same for a part whose code stands behind that of another. -/
theorem Refused.second {err : Halt EvalError} (h : Refused bindings right d err)
    (hd : Lowered bindings left c d)
    (hc : right.isConstant (bound bindings) = false → b.isConstant (bound bindings) = false)
    (hl : b.literals = left.literals ++ right.literals) (hn : b.names = left.names ++ right.names) :
    Refused bindings b c err := by
  cases h with
  | notConstant h => exact .notConstant (hc h)
  | crowded h =>
    refine .crowded ?_
    rcases h with h | h
    · left
      have hsize := congrArg List.length hd.constants
      simp only [Array.length_toList, List.length_append] at hsize
      simp only [hl, List.length_append]
      omega
    · right
      intro names hc hb
      rw [hn, List.append_subset] at hb
      refine h names (fun n hmem => ?_) hb.2
      rcases (hd.names n).1 hmem with hmem | hmem
      · exact hc hmem
      · exact hb.1 hmem

/-- An opcode behind the code of its operand. -/
theorem Lowered.unary {op : UnaryOp} {i : ExprId} {code : Opcode} (h : Lowered bindings p c d)
    (hk : e.kind = .unary op i) (hm : op.mutates = false) (hop : Opcode.ofUnary? op = some code) :
    Lowered bindings ⟨.expr id, .expr e, [p]⟩ c (d.op code) := by
  refine ⟨by simp [Branch.isConstant_unary hk, hm, h.constant],
    ⟨h.fits.nodup, h.fits.constants, h.fits.names⟩, ?_, ?_, ?_⟩
  · simpa [Branch.literals_mk, Expr.literal?, hk, Chunk.op] using h.constants
  · simpa [Branch.names_mk, Expr.name?, hk, Chunk.op] using h.names
  · have hcode : code ≠ .push ∧ code ≠ .load ∧
        ∀ v stack, Machine.apply code (v :: stack) = (· :: stack) <$> Machine.unary code v := by
      cases op <;> cases hop <;> simp [Machine.apply]
    refine (h.appends.trans (Chunk.appends_op hcode.1 hcode.2.1)).congr fun stack => ?_
    rw [Branch.value_unary hk, hop]
    cases p.value bindings with
    | error err => rfl
    | ok v => exact hcode.2.2 v stack

/-- What has no code of its own. -/
theorem Lowered.wrap (h : Lowered bindings p c d)
    (hk : (∃ i, e.kind = .group i) ∨
      ∃ op i, e.kind = .unary op i ∧ op.mutates = false ∧ Opcode.ofUnary? op = none) :
    Lowered bindings ⟨.expr id, .expr e, [p]⟩ c d := by
  obtain ⟨i, hk⟩ | ⟨op, i, hk, hm, hop⟩ := hk
  · exact ⟨by rw [Branch.isConstant_group hk, h.constant], h.fits,
      by simpa [Branch.literals_mk, Expr.literal?, hk] using h.constants,
      by simpa [Branch.names_mk, Expr.name?, hk] using h.names,
      h.appends.congr fun stack => by rw [Branch.value_group hk]⟩
  · refine ⟨by simp [Branch.isConstant_unary hk, hm, h.constant], h.fits,
      by simpa [Branch.literals_mk, Expr.literal?, hk] using h.constants,
      by simpa [Branch.names_mk, Expr.name?, hk] using h.names,
      h.appends.congr fun stack => ?_⟩
    rw [Branch.value_unary hk, hop]
    cases p.value bindings <;> rfl

/-- An opcode behind the code of both operands. -/
theorem Lowered.binary {op : BinaryOp} {i j : ExprId} {k : Chunk} (h : Lowered bindings left c d)
    (h' : Lowered bindings right d k) (hk : e.kind = .binary op i j) :
    Lowered bindings ⟨.expr id, .expr e, [left, right]⟩ c (k.op (Opcode.ofBinary op)) := by
  refine ⟨by rw [Branch.isConstant_binary hk, h.constant, h'.constant]; rfl,
    ⟨h'.fits.nodup, h'.fits.constants, h'.fits.names⟩, ?_, ?_, ?_⟩
  · simp [Branch.literals_mk, Expr.literal?, hk, Chunk.op, h'.constants, h.constants]
  · intro n
    simp only [Chunk.op, h'.names, h.names, Branch.names_mk, Expr.name?, hk]
    simp [or_assoc]
  · have hcode : Opcode.ofBinary op ≠ .push ∧ Opcode.ofBinary op ≠ .load ∧
        ∀ l r stack, Machine.apply (Opcode.ofBinary op) (r :: l :: stack) =
          (· :: stack) <$> Machine.binary (Opcode.ofBinary op) l r := by
      cases op <;> simp [Opcode.ofBinary, Machine.apply]
    refine ((h.appends.trans h'.appends).trans (Chunk.appends_op hcode.1 hcode.2.1)).congr
      fun stack => ?_
    rw [Branch.value_binary hk]
    cases left.value bindings with
    | error err => rfl
    | ok l =>
      cases right.value bindings with
      | error err => rfl
      | ok r => exact hcode.2.2 l r stack

/-- Code for a branch, from the leaves up. -/
theorem lowers_within {depth : Nat} (h : tree.Holds [b]) (hb : b.root = .expr id)
    (hd : Branch.exprCount [b] ≤ depth) (hc : c.Fits) :
    Meets (within tree (bound bindings) depth id) c (fun _ d => Lowered bindings b c d)
      fun err _ => Refused bindings b c err := by
  induction b using Branch.induct generalizing id depth c with
  | mk root n parts ih =>
    obtain ⟨e, _, heq, he, hparts⟩ := h.expr_of_root hb
    obtain ⟨rfl, rfl, rfl⟩ : root = .expr id ∧ n = .expr e ∧ parts = _ := by simpa using heq
    rw [Branch.exprCount_expr] at hd
    cases depth with
    | zero => omega
    | succ depth =>
      have hpart {p : Branch} {i : ExprId} {c : Chunk} (hp : p ∈ parts) (hi : p.root = .expr i)
          (hc : c.Fits) := ih p hp (h.part hp) hi
            (Nat.le_trans (Branch.exprCount_mem hp) (Nat.le_of_succ_le_succ hd)) hc
      have hread : (ofExcept (Halt.liftFault (tree.expr id)) : Lowering Expr) c = .ok e c := by
        rw [he]
        rfl
      refine meets_bind_of_ok hread ?_
      cases hk : e.kind with
      | literal value =>
        obtain rfl := Tree.parts_none hparts (by simp [hk, Tree.exprChildren])
        exact lowers_literal hc hk
      | var name =>
        obtain rfl := Tree.parts_none hparts (by simp [hk, Tree.exprChildren])
        dsimp only
        split
        next hflag => exact lowers_name hc hk hflag
        next hflag =>
          exact meets_throw (.notConstant (by simpa [Branch.isConstant, hk] using hflag))
      | group i =>
        obtain ⟨p, rfl, hp⟩ := Tree.parts_one hparts (i := .expr i)
          (by simp [hk, Tree.exprChildren])
        refine (hpart (by simp) hp hc).imp (fun _ d hd => hd.wrap (.inl ⟨i, hk⟩)) fun err _ he => ?_
        exact he.part (by rw [Branch.isConstant_group hk]; exact fun h => h)
          (by simp [Branch.literals_mk, Expr.literal?, hk])
          (by simp [Branch.names_mk, Expr.name?, hk])
      | unary op i =>
        obtain ⟨p, rfl, hp⟩ := Tree.parts_one hparts (i := .expr i)
          (by simp [hk, Tree.exprChildren])
        dsimp only
        cases hm : op.mutates with
        | true => exact meets_throw (.notConstant (by simp [Branch.isConstant_unary hk, hm]))
        | false =>
          refine Meets.bind (R := fun _ d => Lowered bindings p c d) ?_ ?_
          · refine (hpart (by simp) hp hc).imp (fun _ _ hd => hd) fun err _ he => ?_
            exact he.part (by rw [Branch.isConstant_unary hk, hm]; exact fun h => h)
              (by simp [Branch.literals_mk, Expr.literal?, hk])
              (by simp [Branch.names_mk, Expr.name?, hk])
          · intro _ d hd
            cases hop : Opcode.ofUnary? op with
            | none => exact meets_pure (hd.wrap (.inr ⟨op, i, hk, hm, hop⟩))
            | some code =>
              refine meets_emit (fun d' hd' => ?_) fun err herr => by cases herr
              obtain rfl := Except.ok.inj hd'
              exact hd.unary hk hm hop
      | binary op i j =>
        obtain ⟨l, r, rfl, hl, hr⟩ := Tree.parts_two hparts (i := .expr i) (j := .expr j)
          (by simp [hk, Tree.exprChildren])
        have hconstant : Branch.isConstant (bound bindings) ⟨.expr id, .expr e, [l, r]⟩ =
            (l.isConstant (bound bindings) && r.isConstant (bound bindings)) :=
          Branch.isConstant_binary hk
        refine Meets.bind (R := fun _ d => Lowered bindings l c d) ?_ ?_
        · refine (hpart (by simp) hl hc).imp (fun _ _ hd => hd) fun err _ he => ?_
          exact he.part (by rw [hconstant]; exact fun h => by rw [h]; rfl)
            (by simp [Branch.literals_mk, Expr.literal?, hk])
            (by simp [Branch.names_mk, Expr.name?, hk])
        intro _ d hd
        refine Meets.bind (R := fun _ k => Lowered bindings r d k) ?_ ?_
        · refine (hpart (by simp) hr hd.fits).imp (fun _ _ hd => hd) fun err _ he => ?_
          exact he.second hd (by rw [hconstant]; exact fun h => by rw [h, Bool.and_false])
            (by simp [Branch.literals_mk, Expr.literal?, hk])
            (by simp [Branch.names_mk, Expr.name?, hk])
        intro _ k hd'
        refine meets_emit (fun k' hk' => ?_) fun err herr => by cases herr
        obtain rfl := Except.ok.inj hk'
        exact hd.binary hd' hk
      | _ => exact meets_throw (.notConstant (by simp [Branch.isConstant, hk]))

theorem lowers_expr (h : tree.Holds [b]) (hb : b.root = .expr id) (bindings : Name → Option Value) :
    Meets (expr tree (bound bindings) id) .empty (fun _ d => Lowered bindings b .empty d)
      fun err _ => Refused bindings b .empty err :=
  lowers_within h hb (Nat.le_succ_of_le h.exprCount_le) Chunk.fits_empty

theorem Crowded.of_empty (h : Crowded b .empty) :
    tableLimit < b.literals.length ∨ tableLimit < b.names.dedup.length := by
  rcases h with h | h
  · exact .inl (by simpa [Chunk.empty] using h)
  · exact .inr (h b.names (by simp [Chunk.empty]) (List.Subset.refl _))

/-- A chunk that was filled from nothing holds what the branch refers to, and runs to its value. -/
theorem Lowered.of_empty (h : Lowered bindings b .empty c) :
    b.literals.length ≤ tableLimit ∧ b.names.dedup.length ≤ tableLimit ∧
      Machine.run c bindings = b.value bindings := by
  have hliterals : c.constants.size = b.literals.length := by
    simpa [Chunk.empty] using congrArg List.length h.constants
  have hnames : c.names.toList.Perm b.names.dedup := by
    refine (List.perm_ext_iff_of_nodup h.fits.nodup (List.nodup_dedup _)).2 fun n => ?_
    rw [List.mem_dedup, h.names]
    simp [Chunk.empty]
  have hlen := hnames.length_eq
  refine ⟨hliterals ▸ h.fits.constants, hlen ▸ h.fits.names, ?_⟩
  obtain ⟨code, hcode, hrun⟩ := h.appends.code
  have hexec := hrun c (Chunk.Grows.refl c) [] []
  rw [List.append_nil] at hexec
  rw [Machine.run, hcode, Chunk.empty, List.nil_append, hexec]
  cases b.value bindings <;> rfl

end Lowering

/-- The value of a constant branch exists unless an operator objects. -/
theorem Branch.objects_value {bindings : Name → Option Value} {b : Branch} {err : EvalError}
    (hc : b.isConstant (Lowering.bound bindings) = true) (h : b.value bindings = .error err) :
    Machine.Objects err := by
  induction b, hc using constant_induct generalizing err with
  | literal root e v _ hk => simp [value, hk] at h
  | name root e n _ hk _ hbound =>
    obtain ⟨v, hv⟩ := Option.isSome_iff_exists.1 hbound
    simp [value, hk, hv] at h
  | group root e i p _ _ hk ih => exact ih (value_group hk ▸ h)
  | unary root e op i p _ _ hk _ ih =>
    rw [value_unary hk] at h
    cases hv : p.value bindings with
    | error err' =>
      obtain rfl : err' = err := by simpa [hv, Bind.bind, Except.bind] using h
      exact ih hv
    | ok v =>
      rw [hv] at h
      cases hop : Opcode.ofUnary? op with
      | none => simp [hop, Bind.bind, Except.bind] at h
      | some code =>
        rw [hop] at h
        exact Machine.objects_unary h
  | binary root e op i j l r _ _ _ hk ihl ihr =>
    rw [value_binary hk] at h
    cases hl : l.value bindings with
    | error err' =>
      obtain rfl : err' = err := by simpa [hl, Bind.bind, Except.bind] using h
      exact ihl hl
    | ok lhs =>
      cases hr : r.value bindings with
      | error err' =>
        obtain rfl : err' = err := by simpa [hl, hr, Bind.bind, Except.bind] using h
        exact ihr hr
      | ok rhs =>
        rw [hl, hr] at h
        exact Machine.objects_binary h

/-- Code generation succeeds for exactly the constants that its tables have room for, and the
machine then finds their value: no run underflows its stack, leaves more than one value there,
meets a bad opcode or looks for a name in vain. -/
theorem Lowering.expr_computes_value {tree : Tree} {b : Branch} {id : ExprId} (h : tree.Holds [b])
    (hb : b.root = .expr id) (bindings : Name → Option Value) :
    ((∃ chunk, expr tree (bound bindings) id .empty = .ok () chunk) ↔
      b.isConstant (bound bindings) = true ∧ b.literals.length ≤ tableLimit ∧
        b.names.dedup.length ≤ tableLimit) ∧
    ∀ chunk, expr tree (bound bindings) id .empty = .ok () chunk →
      Machine.run chunk bindings = b.value bindings ∧
      ∀ err, Machine.run chunk bindings = .error err →
        err ≠ .stackUnderflow ∧ (∀ depth, err ≠ .unbalanced depth) ∧
          (∀ byte, err ≠ .badOpcode byte) ∧ err ≠ .unbound := by
  have hmeets := lowers_expr h hb bindings
  refine ⟨⟨?_, ?_⟩, ?_⟩
  · rintro ⟨chunk, hok⟩
    have hlow := hmeets.of_ok hok
    obtain ⟨hl, hn, -⟩ := hlow.of_empty
    exact ⟨hlow.constant, hl, hn⟩
  · rintro ⟨hc, hl, hn⟩
    cases hrun : expr tree (bound bindings) id .empty with
    | ok _ chunk => exact ⟨chunk, rfl⟩
    | error err chunk =>
      cases hmeets.of_error hrun with
      | notConstant hnot => simp [hc] at hnot
      | crowded hcrowd =>
        rcases hcrowd.of_empty with hcrowd | hcrowd <;> omega
  · intro chunk hok
    have hlow := hmeets.of_ok hok
    obtain ⟨-, -, hvalue⟩ := hlow.of_empty
    refine ⟨hvalue, fun err herr => ?_⟩
    obtain rfl | ⟨op, rfl⟩ := Branch.objects_value hlow.constant (hvalue ▸ herr) <;> simp

/-- The code of `(N + 1) / 0` objects to the last operator. -/
theorem Lowering.quotient_divides_by_zero :
    let constant (kind : ExprKind) : Expr := { Expr.new kind ⟨0, 1⟩ with isConstant := true }
    let sum := constant (.binary .add ⟨0⟩ ⟨1⟩)
    let quotient := constant (.binary .div ⟨3⟩ ⟨4⟩)
    let tree := Tree.ofExprs [constant (.var ⟨1⟩), constant (.literal (.int 1)), sum,
      constant (.group ⟨2⟩), constant (.literal (.int 0)), quotient]
    let bindings (name : Name) : Option Value := if name = ⟨1⟩ then some (.int 7) else none
    ∃ chunk, expr tree (bound bindings) ⟨5⟩ .empty = .ok () chunk ∧
      Machine.run chunk bindings = .error .divisionByZero := by
  intro constant sum quotient tree bindings
  let leaf (slot : Nat) (kind : ExprKind) : Branch := ⟨.expr ⟨slot⟩, .expr (constant kind), []⟩
  let total : Branch :=
    ⟨.expr ⟨2⟩, .expr sum, [leaf 0 (.var ⟨1⟩), leaf 1 (.literal (.int 1))]⟩
  let group : Branch := ⟨.expr ⟨3⟩, .expr (constant (.group ⟨2⟩)), [total]⟩
  let b : Branch := ⟨.expr ⟨5⟩, .expr quotient, [group, leaf 4 (.literal (.int 0))]⟩
  have hall : b.all = [b, group, total, leaf 0 (.var ⟨1⟩), leaf 1 (.literal (.int 1)),
      leaf 4 (.literal (.int 0))] := by
    simp [b, group, total, leaf, Branch.all_mk]
  have hb : tree.Holds [b] := by
    refine ⟨Tree.sound_ofExprs _, ?_, ?_⟩
    · simp only [Branch.allIn_cons, Branch.allIn_nil, List.append_nil, hall, List.forall_mem_cons]
      refine ⟨⟨rfl, trivial, rfl⟩, ⟨rfl, trivial, rfl⟩, ⟨rfl, trivial, rfl⟩, ⟨rfl, trivial, rfl⟩,
        ⟨rfl, trivial, rfl⟩, ⟨rfl, trivial, rfl⟩, by simp⟩
    · simp only [Branch.roots, Branch.allIn_cons, Branch.allIn_nil, List.append_nil, hall]
      decide
  have hspec := expr_computes_value hb rfl bindings
  obtain ⟨chunk, hchunk⟩ := hspec.1.2 ⟨rfl, by decide, by decide⟩
  exact ⟨chunk, hchunk, (hspec.2 chunk hchunk).1.trans rfl⟩

end FrontEnd
