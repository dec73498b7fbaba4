import FrontEnd.Grammar.Level
import FrontEnd.Proofs.Name.InternerGrowth
import FrontEnd.Proofs.Syntax.Branch
import FrontEnd.Proofs.Token.Position
import FrontEnd.Token.Literal

/-! The precedence grammar: terms, which of them need no further parentheses, and their tokens. -/

namespace FrontEnd

/-- Level on which an operator binds. -/
def BinaryOp.level : BinaryOp → Level
  | .add | .sub => .term
  | .mul | .div | .mod => .factor
  | .bitAnd => .bitAnd
  | .bitOr => .bitOr
  | .bitXor => .bitXor
  | .shl | .shr => .shift
  | .eq | .notEq => .equality
  | .lt | .ltEq | .gt | .gtEq => .compare
  | .and => .logAnd
  | .or => .logOr

/-- An expression, told by its texts and values. -/
inductive Term
  | literal (value : Value)
  | str (text : String)
  | var (name : String)
  | group (inner : Term)
  | unary (op : UnaryOp) (operand : Term)
  | binary (op : BinaryOp) (left right : Term)
  | assign (op : AssignOp) (target value : Term)
  | call (callee : String) (args : List Term)
  | member (object : Term) (field : String)

namespace Term

def level : Term → Level
  | .assign .. => .assign
  | .binary op .. => op.level
  | _ => .call

def canAssign : Term → Bool
  | .var _ => true
  | .member object _ => object.canAssign
  | _ => false

/-- No operator stands outside all parentheses. -/
def IsPostfix : Term → Prop
  | .unary .. | .binary .. | .assign .. => False
  | _ => True

mutual

/-- Every operand binds as tightly as its place asks for. -/
def Valid : Term → Prop
  | .literal _ | .str _ | .var _ => True
  | .group inner => inner.level ≠ .assign ∧ inner.Valid
  | .unary op operand =>
    operand.level = .call ∧ (op.mutates = true → operand.canAssign = true) ∧ operand.Valid
  | .binary op left right =>
    op.level.rank ≤ left.level.rank ∧ op.level.rank < right.level.rank ∧ left.Valid ∧ right.Valid
  | .assign _ target value => target.canAssign = true ∧ target.Valid ∧ value.Valid
  | .call _ args => ValidArgs args
  | .member object _ => object.IsPostfix ∧ object.Valid

def ValidArgs : List Term → Prop
  | [] => True
  | arg :: args => arg.level ≠ .assign ∧ arg.Valid ∧ ValidArgs args

end

mutual

/-- The tokens with which a term is written in a text. -/
def Spells (source : Array UInt8) : Term → List Token → Prop
  | .literal value, ts => ∃ t, ts = [t] ∧ literalValue? t.kind (t.lexeme source) = some value
  | .str text, ts =>
    ∃ t, ts = [t] ∧ t.kind = .stringLit ∧ Literal.stringContents (t.lexeme source) = text
  | .var name, ts => ∃ t, ts = [t] ∧ t.kind = .ident ∧ t.lexeme source = name
  | .group inner, ts => ∃ o xs c,
    ts = o :: xs ++ [c] ∧ o.kind = .openParen ∧ c.kind = .closeParen ∧ Spells source inner xs
  | .unary op operand, ts =>
    ∃ t xs, ts = t :: xs ∧ UnaryOp.ofToken? t.kind = some op ∧ Spells source operand xs
  | .binary op left right, ts => ∃ xs t ys, ts = xs ++ t :: ys ∧
    BinaryOp.ofToken? t.kind = some op ∧ Spells source left xs ∧ Spells source right ys
  | .assign op target value, ts => ∃ xs t ys, ts = xs ++ t :: ys ∧
    AssignOp.ofToken? t.kind = some op ∧ Spells source target xs ∧ Spells source value ys
  | .call callee args, ts => ∃ t o xs c, ts = t :: o :: xs ++ [c] ∧ t.kind = .ident ∧
    t.lexeme source = callee ∧ o.kind = .openParen ∧ c.kind = .closeParen ∧
    SpellsArgs source args xs
  | .member object field, ts => ∃ xs d t, ts = xs ++ [d, t] ∧ d.kind = .dot ∧ t.kind = .ident ∧
    t.lexeme source = field ∧ Spells source object xs

/-- Arguments are parted by commas. -/
def SpellsArgs (source : Array UInt8) : List Term → List Token → Prop
  | [], ts => ts = []
  | [arg], ts => Spells source arg ts
  | arg :: args, ts => ∃ xs c ys, ts = xs ++ c :: ys ∧ c.kind = .comma ∧ Spells source arg xs ∧
    SpellsArgs source args ys

end

/-- A branch of a tree shows a term. -/
inductive Shows (names : Interner) : Branch → Term → Prop
  | literal {id e value} : e.kind = .literal value → e.canAssign = false →
    Shows names ⟨.expr id, .expr e, []⟩ (.literal value)
  | str {id e n text} : e.kind = .str n → names.Has n text → e.canAssign = false →
    Shows names ⟨.expr id, .expr e, []⟩ (.str text)
  | var {id e n name} : e.kind = .var n → names.Has n name → e.canAssign = true →
    Shows names ⟨.expr id, .expr e, []⟩ (.var name)
  | group {id e i b inner} : e.kind = .group i → e.canAssign = false → Shows names b inner →
    Shows names ⟨.expr id, .expr e, [b]⟩ (.group inner)
  | unary {id e i b op operand} : e.kind = .unary op i → e.canAssign = false →
    Shows names b operand → Shows names ⟨.expr id, .expr e, [b]⟩ (.unary op operand)
  | binary {id e i j b c op left right} : e.kind = .binary op i j → e.canAssign = false →
    Shows names b left → Shows names c right →
    Shows names ⟨.expr id, .expr e, [b, c]⟩ (.binary op left right)
  | assign {id e i j b c op target value} : e.kind = .assign op i j → e.canAssign = false →
    Shows names b target → Shows names c value →
    Shows names ⟨.expr id, .expr e, [b, c]⟩ (.assign op target value)
  | call {id e n range mangled callee bs args} : e.kind = .call n range mangled →
    names.Has n callee → e.canAssign = false → bs.length = args.length →
    (∀ p ∈ bs.zip args, Shows names p.1 p.2) →
    Shows names ⟨.expr id, .expr e, bs⟩ (.call callee args)
  | member {id e i n b object field} : e.kind = .member i n → names.Has n field →
    e.canAssign = object.canAssign → Shows names b object →
    Shows names ⟨.expr id, .expr e, [b]⟩ (.member object field)

end Term

/-- At a handle a tree holds a term. -/
def Tree.Shows (t : Tree) (names : Interner) (id : ExprId) (e : Term) : Prop :=
  ∃ b, b.root = .expr id ∧ t.Holds [b] ∧ Term.Shows names b e

namespace Term

variable {source : Array UInt8} {e : Term} {ts xs ys : List Token} {b : Branch}
  {names names' : Interner}

/-! ### Levels -/

theorem level_of_binary {k : TokenKind} {op : BinaryOp} (h : BinaryOp.ofToken? k = some op) :
    Level.of k = op.level := by
  cases k <;> simp only [BinaryOp.ofToken?, Option.some.injEq, reduceCtorEq] at h <;>
    (subst h; rfl)

theorem level_of_assign {k : TokenKind} {op : AssignOp} (h : AssignOp.ofToken? k = some op) :
    Level.of k = .assign := by
  cases k <;> simp only [AssignOp.ofToken?, reduceCtorEq] at h <;> rfl

theorem binary_of_level {k : TokenKind} (h : Level.of k ≠ .none) (ha : Level.of k ≠ .assign)
    (hc : Level.of k ≠ .call) : ∃ op, BinaryOp.ofToken? k = some op := by
  cases k <;> first | exact ⟨_, rfl⟩ | simp [Level.of] at h ha hc

theorem rank_level (op : BinaryOp) :
    Level.assign.rank < op.level.rank ∧ op.level.rank < Level.call.rank := by
  cases op <;> decide

theorem level_ne (op : BinaryOp) :
    op.level ≠ .none ∧ op.level ≠ .assign ∧ op.level ≠ .call := by
  cases op <;> decide

theorem rank_next (op : BinaryOp) : op.level.next.rank = op.level.rank + 1 := by
  cases op <;> rfl

theorem rank_le_call (l : Level) : l.rank ≤ Level.call.rank := by
  cases l <;> decide

theorem eq_call_of_rank {l : Level} (h : Level.call.rank ≤ l.rank) : l = .call := by
  revert h
  cases l <;> decide

theorem eq_none_of_rank {l : Level} (h : l.rank < Level.assign.rank) : l = .none := by
  revert h
  cases l <;> decide

theorem IsPostfix.level (h : e.IsPostfix) : e.level = .call := by
  cases e <;> first | rfl | cases h

theorem isPostfix_of_canAssign (h : e.canAssign = true) : e.IsPostfix := by
  cases e <;> trivial

theorem level_ne_assign {op : BinaryOp} (h : op.level.rank ≤ e.level.rank) :
    e.level ≠ .assign := by
  have hop := (rank_level op).1
  intro he
  rw [he] at h
  omega

/-- A term that is no assignment binds more tightly than one. -/
theorem rank_level_of_ne (h : e.level ≠ .assign) : Level.assign.rank < e.level.rank := by
  cases e with
  | binary op left right => exact (rank_level op).1
  | assign op target value => exact absurd rfl h
  | _ => exact Nat.lt_of_sub_eq_succ rfl

theorem rank_assign_le (e : Term) : Level.assign.rank ≤ e.level.rank := by
  by_cases h : e.level = .assign
  · exact Nat.le_of_eq (by rw [h])
  · exact Nat.le_of_lt (rank_level_of_ne h)

/-! ### Tokens -/

theorem kind_of_literal {k : TokenKind} {text : String} {value : Value}
    (h : literalValue? k text = some value) :
    k = .intLit ∨ k = .longLit ∨ k = .floatLit ∨ k = .doubleLit ∨ k = .charLit ∨ k = .kwTrue ∨
      k = .kwFalse := by
  cases k <;> simp_all [literalValue?]

/-- Tokens of which terms are made. -/
def Plain (t : Token) : Prop := t.kind ≠ .error ∧ t.kind ≠ .eof ∧ t.kind ≠ .kwFunc

theorem plain_of_kind {t : Token} {k : TokenKind} (h : t.kind = k)
    (hk : k ≠ .error ∧ k ≠ .eof ∧ k ≠ .kwFunc) : Plain t := by
  subst h
  exact hk

theorem plain_of_literal {t : Token} {value : Value}
    (h : literalValue? t.kind (t.lexeme source) = some value) : Plain t := by
  rcases kind_of_literal h with h | h | h | h | h | h | h <;> exact plain_of_kind h (by decide)

theorem plain_of_unary {t : Token} {op : UnaryOp} (h : UnaryOp.ofToken? t.kind = some op) :
    Plain t := by
  refine ⟨?_, ?_, ?_⟩ <;> intro hk <;> simp [hk, UnaryOp.ofToken?] at h

theorem plain_of_level {t : Token} (h : Level.of t.kind ≠ .none) : Plain t := by
  refine ⟨?_, ?_, ?_⟩ <;> intro hk <;> simp [hk, Level.of] at h

theorem plain_of_binary {t : Token} {op : BinaryOp} (h : BinaryOp.ofToken? t.kind = some op) :
    Plain t := by
  refine plain_of_level ?_
  rw [level_of_binary h]
  cases op <;> decide

theorem plain_of_assign {t : Token} {op : AssignOp} (h : AssignOp.ofToken? t.kind = some op) :
    Plain t := by
  refine plain_of_level ?_
  rw [level_of_assign h]
  decide

mutual

theorem plain_of_spells : ∀ (e : Term) (ts : List Token), Spells source e ts →
    ts ≠ [] ∧ ∀ t ∈ ts, Plain t
  | .literal value, ts, h => by
    rw [Spells] at h
    obtain ⟨t, rfl, h⟩ := h
    simpa using plain_of_literal h
  | .str text, ts, h => by
    rw [Spells] at h
    obtain ⟨t, rfl, h, -⟩ := h
    simpa using plain_of_kind h (by decide)
  | .var name, ts, h => by
    rw [Spells] at h
    obtain ⟨t, rfl, h, -⟩ := h
    simpa using plain_of_kind h (by decide)
  | .group inner, ts, h => by
    rw [Spells] at h
    obtain ⟨o, xs, c, rfl, ho, hc, hi⟩ := h
    have hxs := (plain_of_spells inner xs hi).2
    simpa [or_imp, forall_and] using
      ⟨plain_of_kind ho (by decide), hxs, plain_of_kind hc (by decide)⟩
  | .unary op operand, ts, h => by
    rw [Spells] at h
    obtain ⟨t, xs, rfl, ht, ho⟩ := h
    simpa using ⟨plain_of_unary ht, (plain_of_spells operand xs ho).2⟩
  | .binary op left right, ts, h => by
    rw [Spells] at h
    obtain ⟨xs, t, ys, rfl, ht, hl, hr⟩ := h
    simpa [or_imp, forall_and] using
      ⟨(plain_of_spells left xs hl).2, plain_of_binary ht, (plain_of_spells right ys hr).2⟩
  | .assign op target value, ts, h => by
    rw [Spells] at h
    obtain ⟨xs, t, ys, rfl, ht, hl, hr⟩ := h
    simpa [or_imp, forall_and] using
      ⟨(plain_of_spells target xs hl).2, plain_of_assign ht, (plain_of_spells value ys hr).2⟩
  | .call callee args, ts, h => by
    rw [Spells] at h
    obtain ⟨t, o, xs, c, rfl, ht, -, ho, hc, ha⟩ := h
    simpa [or_imp, forall_and] using ⟨plain_of_kind ht (by decide), plain_of_kind ho (by decide),
      plain_of_spellsArgs args xs ha, plain_of_kind hc (by decide)⟩
  | .member object field, ts, h => by
    rw [Spells] at h
    obtain ⟨xs, d, t, rfl, hd, ht, -, ho⟩ := h
    simpa [or_imp, forall_and] using ⟨(plain_of_spells object xs ho).2,
      plain_of_kind hd (by decide), plain_of_kind ht (by decide)⟩

theorem plain_of_spellsArgs : ∀ (args : List Term) (ts : List Token), SpellsArgs source args ts →
    ∀ t ∈ ts, Plain t
  | [], ts, h => by
    rw [SpellsArgs] at h
    simp [h]
  | [arg], ts, h => by
    rw [SpellsArgs] at h
    exact (plain_of_spells arg ts h).2
  | arg :: a :: args, ts, h => by
    rw [SpellsArgs] at h
    · obtain ⟨xs, c, ys, rfl, hc, hx, hy⟩ := h
      simpa [or_imp, forall_and] using ⟨(plain_of_spells arg xs hx).2,
        plain_of_kind hc (by decide), plain_of_spellsArgs (a :: args) ys hy⟩
    · simp

end

theorem Spells.plain (h : Spells source e ts) : ts ≠ [] ∧ ∀ t ∈ ts, Plain t :=
  plain_of_spells e ts h

/-- A term in front is not an error. -/
theorem Spells.front {w : Window} (h : Spells source e ts) (ha : w.Ahead ts) :
    w.current.kind ≠ .error := by
  obtain ⟨hne, hplain⟩ := h.plain
  cases ts with
  | nil => exact absurd rfl hne
  | cons t ts =>
    obtain ⟨rfl, -⟩ := Window.ahead_cons.1 ha
    exact (hplain _ (by simp)).1

theorem first_of_spells : ∀ (e : Term) (ts : List Token), Spells source e ts →
    ∃ t rest, ts = t :: rest ∧ t.kind ≠ .closeParen
  | .literal value, ts, h => by
    rw [Spells] at h
    obtain ⟨t, rfl, h⟩ := h
    refine ⟨t, [], rfl, fun hk => ?_⟩
    simp [hk, literalValue?] at h
  | .str text, ts, h => by
    rw [Spells] at h
    obtain ⟨t, rfl, h, -⟩ := h
    exact ⟨t, [], rfl, by simp [h]⟩
  | .var name, ts, h => by
    rw [Spells] at h
    obtain ⟨t, rfl, h, -⟩ := h
    exact ⟨t, [], rfl, by simp [h]⟩
  | .group inner, ts, h => by
    rw [Spells] at h
    obtain ⟨o, xs, c, rfl, ho, -⟩ := h
    exact ⟨o, _, rfl, by simp [ho]⟩
  | .unary op operand, ts, h => by
    rw [Spells] at h
    obtain ⟨t, xs, rfl, ht, -⟩ := h
    refine ⟨t, xs, rfl, fun hk => ?_⟩
    simp [hk, UnaryOp.ofToken?] at ht
  | .binary op left right, ts, h => by
    rw [Spells] at h
    obtain ⟨xs, t, ys, rfl, -, hl, -⟩ := h
    obtain ⟨first, rest, rfl, hk⟩ := first_of_spells left xs hl
    exact ⟨first, _, rfl, hk⟩
  | .assign op target value, ts, h => by
    rw [Spells] at h
    obtain ⟨xs, t, ys, rfl, -, hl, -⟩ := h
    obtain ⟨first, rest, rfl, hk⟩ := first_of_spells target xs hl
    exact ⟨first, _, rfl, hk⟩
  | .call callee args, ts, h => by
    rw [Spells] at h
    obtain ⟨t, o, xs, c, rfl, ht, -⟩ := h
    exact ⟨t, _, rfl, by simp [ht]⟩
  | .member object field, ts, h => by
    rw [Spells] at h
    obtain ⟨xs, d, t, rfl, -, -, -, ho⟩ := h
    obtain ⟨first, rest, rfl, hk⟩ := first_of_spells object xs ho
    exact ⟨first, _, rfl, hk⟩

/-- Arguments in front are no error and no closing parenthesis. -/
theorem SpellsArgs.front {arg : Term} {args : List Term} {w : Window}
    (h : SpellsArgs source (arg :: args) ts) (ha : w.Ahead ts) :
    w.current.kind ≠ .error ∧ w.current.kind ≠ .closeParen := by
  have hplain := plain_of_spellsArgs _ _ h
  obtain ⟨t, rest, rfl, hk⟩ : ∃ t rest, ts = t :: rest ∧ t.kind ≠ .closeParen := by
    cases args with
    | nil =>
      rw [SpellsArgs] at h
      exact first_of_spells arg ts h
    | cons a args =>
      rw [SpellsArgs] at h
      · obtain ⟨xs, c, ys, rfl, -, hx, -⟩ := h
        obtain ⟨first, rest, rfl, hk⟩ := first_of_spells arg xs hx
        exact ⟨first, _, rfl, hk⟩
      · simp
  obtain ⟨rfl, -⟩ := Window.ahead_cons.1 ha
  exact ⟨(hplain _ (by simp)).1, hk⟩

/-! ### Branches -/

/-- Names keep their texts, so a branch goes on showing its term. -/
theorem Shows.mono (h : Shows names b e) (hg : names.Grows names') : Shows names' b e := by
  induction h with
  | literal hk ha => exact .literal hk ha
  | str hk hn ha => exact .str hk (hg _ _ hn) ha
  | var hk hn ha => exact .var hk (hg _ _ hn) ha
  | group hk ha _ ih => exact .group hk ha ih
  | unary hk ha _ ih => exact .unary hk ha ih
  | binary hk ha _ _ ihl ihr => exact .binary hk ha ihl ihr
  | assign hk ha _ _ iht ihv => exact .assign hk ha iht ihv
  | call hk hn ha hlen _ ih => exact .call hk (hg _ _ hn) ha hlen ih
  | member hk hn ha _ ih => exact .member hk (hg _ _ hn) ha ih

/-- The node of a term knows whether it can be assigned. -/
theorem Shows.node (h : Shows names b e) :
    ∃ id x parts, b = ⟨.expr id, .expr x, parts⟩ ∧ x.canAssign = e.canAssign := by
  cases h with
  | literal _ ha => exact ⟨_, _, _, rfl, ha⟩
  | str _ _ ha => exact ⟨_, _, _, rfl, ha⟩
  | var _ _ ha => exact ⟨_, _, _, rfl, ha⟩
  | group _ ha _ => exact ⟨_, _, _, rfl, ha⟩
  | unary _ ha _ => exact ⟨_, _, _, rfl, ha⟩
  | binary _ ha _ _ => exact ⟨_, _, _, rfl, ha⟩
  | assign _ ha _ _ => exact ⟨_, _, _, rfl, ha⟩
  | call _ _ ha _ _ => exact ⟨_, _, _, rfl, ha⟩
  | member _ _ ha _ => exact ⟨_, _, _, rfl, ha⟩

end Term

end FrontEnd
