import FrontEnd.Proofs.Grammar.Reading

/-!
Every term in precedence order is read back. Reading of a term ends where its infix forms would
go on, so that the operand of a further infix form is covered too.
-/

namespace FrontEnd

/-- Reading of infix forms ends in front of a token of this level. -/
def Level.Stops (l least : Level) (isValue : Bool) : Prop :=
  l = .none ∨ l.rank < least.rank ∨ (l = .assign ∧ isValue = true)

namespace Term

variable {e : Term} {k : TokenKind}

/-- The term may stand where infix operators must bind as tightly as `least`. -/
def Fits (e : Term) (least : Level) (isValue : Bool) : Prop :=
  least.rank ≤ e.level.rank ∧ (isValue = true → e.level ≠ .assign)

/-- A token that does not belong to the term if it comes after it. -/
def Follows : Term → TokenKind → Prop
  | .assign .., k => Level.of k = .none
  | .binary op .., k => (Level.of k).rank ≤ op.level.rank
  | .unary .., k => Level.of k ≠ .call
  | _, _ => True

theorem follows_of_none (h : Level.of k = .none) (e : Term) : e.Follows k := by
  cases e <;> simp [Follows, h, Level.rank, Level.ctorIdx]

theorem follows_of_postfix (h : e.IsPostfix) (k : TokenKind) : e.Follows k := by
  cases e <;> trivial

theorem follows_of_le (h : (Level.of k).rank ≤ e.level.rank) (hc : Level.of k ≠ .call)
    (ha : e.level ≠ .assign) : e.Follows k := by
  cases e with
  | assign op target value => exact absurd rfl ha
  | binary op left right => exact h
  | unary op operand => exact hc
  | _ => trivial

/-- What stops the right operand of a binary operator lets the whole go on to the left. -/
theorem stops_of_rank {op : BinaryOp} (h : (Level.of k).rank ≤ op.level.rank)
    (isValue : Bool) : (Level.of k).Stops op.level.next isValue := by
  exact .inr (.inl (by rw [rank_next]; omega))

/-- An operator that binds tightly enough is read. -/
theorem not_stops {op : BinaryOp} {least : Level} (h : least.rank ≤ op.level.rank)
    (isValue : Bool) : ¬ op.level.Stops least isValue := by
  obtain ⟨hn, ha, -⟩ := level_ne op
  rintro (h' | h' | ⟨h', -⟩)
  · exact hn h'
  · omega
  · exact ha h'

theorem not_stops_call (least : Level) (isValue : Bool) :
    ¬ Level.call.Stops least isValue := by
  have := rank_le_call least
  rintro (h | h | ⟨h, -⟩)
  · cases h
  · omega
  · cases h

end Term

namespace Parse

variable {source : Array UInt8} {e inner operand left right target value object : Term}
  {ts xs ys : List Token} {s t : ParseState} {bs cs : List Branch} {least : Level} {isValue : Bool}
  {m n : Nat} {parse : Productions}

/-! ### One step -/

theorem infixes_stop {id : ExprId} (h : (Level.of s.window.current.kind).Stops least isValue) :
    infixes parse id least isValue s = .ok id s := by
  unfold infixes
  rw [bind_of_ok (current_eq s)]
  unfold Level.Stops at h
  dsimp only
  rw [if_pos h]
  rfl

theorem infixes_assign {id : ExprId} (h : Level.of s.window.current.kind = .assign)
    (hs : ¬ (Level.of s.window.current.kind).Stops least isValue) :
    infixes parse id least isValue s =
      (assignment parse id >>= fun whole => parse (.infixes whole least isValue)) s := by
  unfold infixes
  rw [bind_of_ok (current_eq s)]
  unfold Level.Stops at hs
  dsimp only
  rw [if_neg hs, h]

theorem infixes_call {id : ExprId} (h : Level.of s.window.current.kind = .call)
    (hs : ¬ (Level.of s.window.current.kind).Stops least isValue) :
    infixes parse id least isValue s =
      (postfixForm parse id >>= fun whole => parse (.infixes whole least isValue)) s := by
  unfold infixes
  rw [bind_of_ok (current_eq s)]
  unfold Level.Stops at hs
  dsimp only
  rw [if_neg hs, h]

theorem infixes_binary {id : ExprId} {op : BinaryOp}
    (h : Level.of s.window.current.kind = op.level)
    (hs : ¬ (Level.of s.window.current.kind).Stops least isValue) :
    infixes parse id least isValue s =
      (binary parse id op.level >>= fun whole => parse (.infixes whole least isValue)) s := by
  unfold infixes
  rw [bind_of_ok (current_eq s)]
  unfold Level.Stops at hs
  dsimp only
  rw [if_neg hs, h]
  cases op <;> rfl

theorem unary_of_none (h : UnaryOp.ofToken? s.window.current.kind = none) :
    unary parse s = primary parse s := by
  unfold unary
  rw [bind_of_ok (current_eq s), h]

theorem primary_literal {v : Value} {text : String}
    (h : literalValue? s.window.current.kind text = some v) :
    unary parse s = literal s.window.current s := by
  rcases Term.kind_of_literal h with hk | hk | hk | hk | hk | hk | hk
  all_goals
    rw [unary_of_none (by rw [hk]; rfl)]
    unfold primary
    rw [bind_of_ok (current_eq s), hk]

theorem primary_string (h : s.window.current.kind = .stringLit) :
    unary parse s = stringLiteral s.window.current s := by
  rw [unary_of_none (by rw [h]; rfl)]
  unfold primary
  rw [bind_of_ok (current_eq s), h]

theorem primary_name (h : s.window.current.kind = .ident) : unary parse s = nameExpr s := by
  rw [unary_of_none (by rw [h]; rfl)]
  unfold primary
  rw [bind_of_ok (current_eq s), h]

theorem primary_group (h : s.window.current.kind = .openParen) :
    unary parse s = group parse s := by
  rw [unary_of_none (by rw [h]; rfl)]
  unfold primary
  rw [bind_of_ok (current_eq s), h]

/-! ### Reading of one term -/

/-- These tokens are next, and then one that is no error. -/
structure Front (source : Array UInt8) (s : ParseState) (ts : List Token) (bs : List Branch) :
    Prop where
  sound : s.Sound
  free : s.NoConstants
  source : s.window.source = source
  ahead : s.window.Ahead ts
  stop : (s.window.drop ts.length).current.kind ≠ .error
  holds : s.tree.Holds bs

theorem Front.took (f : Front source s ts bs) (h : s.Took n t) (ha : t.window.Ahead xs)
    (hs : (t.window.drop xs.length).current.kind ≠ .error) (hh : t.tree.Holds cs) :
    Front source t xs cs where
  sound := h.sound
  free := h.noConstants f.free
  source := by rw [h.window, Window.source_drop, f.source]
  ahead := ha
  stop := hs
  holds := hh

/-- Wherever the term may stand, reading goes on after it with its node as left operand. -/
def Reads (source : Array UInt8) (e : Term) (ts : List Token) : Prop :=
  ∀ {least isValue n m s bs} {Q : ExprId → ParseState → Prop}, e.Fits least isValue →
    Front source s ts bs → e.Follows (s.window.drop ts.length).current.kind →
    3 * ts.length + m ≤ n →
    (∀ j id t, m ≤ j → Yields s e ts.length bs id t →
      Meets (within j (.infixes id least isValue)) t Q Exhausted) →
    Meets (within n (.expr least isValue)) s Q Exhausted

/-- Reading stops after the term. -/
theorem Reads.whole (h : Reads source e ts) (hf : e.Fits least isValue)
    (f : Front source s ts bs) (hu : e.Follows (s.window.drop ts.length).current.kind)
    (hs : (Level.of (s.window.drop ts.length).current.kind).Stops least isValue)
    (hn : 3 * ts.length + 1 ≤ n) :
    Meets (within n (.expr least isValue)) s (Yields s e ts.length bs) Exhausted := by
  refine h hf f hu hn fun j id t hj hy => ?_
  obtain ⟨j, rfl⟩ := Nat.exists_eq_add_of_le' hj
  have ⟨b, ht, _⟩ := hy
  refine meets_of_ok (infixes_stop ?_) hy
  rwa [ht.window]

/-- A term that begins with no operand of another one. -/
theorem reads_of_unary (hne : 0 < ts.length)
    (h : ∀ s bs n, Front source s ts bs → e.Follows (s.window.drop ts.length).current.kind →
      3 * ts.length ≤ n + 1 →
      Meets (unary (within n)) s (Yields s e ts.length bs) Exhausted) : Reads source e ts := by
  intro least isValue n m s bs Q _ f hu hn next
  obtain ⟨n, rfl⟩ : ∃ k, n = k + 1 := ⟨n - 1, by omega⟩
  exact Meets.bind (h s bs n f hu (by omega)) fun id t hy => next n id t (by omega) hy

/-! ### Operands -/

theorem reads_literal {token : Token} {v : Value}
    (h : literalValue? token.kind (token.lexeme source) = some v) :
    Reads source (.literal v) [token] := by
  refine reads_of_unary (by simp) fun s bs n f _ _ => ?_
  obtain ⟨rfl, -⟩ := Window.ahead_cons.1 f.ahead
  have hadv := ParseState.took_advanced f.sound f.stop
  refine Meets.congr ?_ (primary_literal h)
  refine meets_bind_of_ok (get_eq s) (meets_bind_of_ok (advance_eq s) ?_)
  rw [Window.lexeme, f.source, h]
  have hholds : s.advanced.tree.Holds ([] ++ bs) := f.holds
  refine meets_addNode hadv.sound hholds trivial rfl fun id t ht _ hh => ?_
  exact ⟨_, hadv.trans ht, hh, rfl, .literal rfl rfl⟩

theorem reads_str {token : Token} (h : token.kind = .stringLit) :
    Reads source (.str (Literal.stringContents (token.lexeme source))) [token] := by
  refine reads_of_unary (by simp) fun s bs n f _ _ => ?_
  obtain ⟨rfl, -⟩ := Window.ahead_cons.1 f.ahead
  have hadv := ParseState.took_advanced f.sound f.stop
  refine Meets.congr ?_ (primary_string h)
  refine meets_bind_of_ok (get_eq s) (meets_bind_of_ok (advance_eq s) ?_)
  refine (meets_intern hadv.sound).bind ?_
  rintro name t ⟨ht, htree, hname⟩
  have hholds : t.tree.Holds ([] ++ bs) := htree ▸ f.holds
  refine meets_addNode ht.sound hholds trivial rfl fun id u hu hnames hh => ?_
  rw [Window.lexeme, f.source] at hname
  exact ⟨_, (hadv.trans ht).trans hu, hh, rfl, .str rfl (hnames ▸ hname) rfl⟩

theorem reads_var {token : Token} (h : token.kind = .ident) :
    Reads source (.var (token.lexeme source)) [token] := by
  refine reads_of_unary (by simp) fun s bs n f _ _ => ?_
  obtain ⟨rfl, -⟩ := Window.ahead_cons.1 f.ahead
  refine Meets.congr ?_ (primary_name h)
  refine (meets_expectName f.sound h f.stop).bind ?_
  rintro ⟨name, span⟩ t ⟨ht, htree, hname⟩
  refine meets_bind_of_ok (isConstantName_run name t) ?_
  rw [(ht.noConstants f.free).constants_eq]
  have hholds : t.tree.Holds ([] ++ bs) := htree ▸ f.holds
  refine meets_addNode ht.sound hholds trivial rfl fun id u hu hnames hh => ?_
  rw [f.source] at hname
  exact ⟨_, ht.trans hu, hh, rfl, .var rfl (hnames ▸ hname) rfl⟩

theorem reads_group {o c : Token} (hi : Reads source inner xs) (hs : inner.Spells source xs)
    (hl : inner.level ≠ .assign) (ho : o.kind = .openParen) (hc : c.kind = .closeParen) :
    Reads source (.group inner) (o :: xs ++ [c]) := by
  refine reads_of_unary (by simp) fun s bs n f _ hn => ?_
  obtain ⟨hox, hlast⟩ := Window.ahead_append.1 f.ahead
  obtain ⟨rfl, hxs⟩ := Window.ahead_cons.1 hox
  obtain ⟨hcur, -⟩ := Window.ahead_cons.1 hlast
  have hstop := f.stop
  simp only [List.length_append, List.length_cons, List.length_nil] at hn hcur hstop
  have h₁ := ParseState.took_advanced f.sound (hs.front hxs)
  have hend : (s.advanced.window.drop xs.length).current = c := by
    rw [h₁.window, Window.drop_drop, Nat.add_comm, hcur]
  have hnone : Level.of (s.advanced.window.drop xs.length).current.kind = .none := by
    rw [hend, hc]
    rfl
  have f₁ : Front source s.advanced xs bs := by
    refine f.took h₁ (by rwa [h₁.window]) ?_ f.holds
    rw [hend, hc]
    decide
  refine Meets.congr ?_ (primary_group ho)
  refine meets_bind_of_ok (advance_eq s) ?_
  refine (hi.whole ⟨Nat.le_of_lt (Term.rank_level_of_ne hl), fun _ => hl⟩ f₁
    (Term.follows_of_none hnone _) (.inl hnone) (by omega)).bind ?_
  rintro id t ⟨b, ht, hh, hroot, hshow⟩
  have h₂ := h₁.trans ht
  have h₃ := h₂.advanced (by rwa [show 1 + xs.length + 1 = xs.length + 1 + (0 + 1) by omega])
  obtain ⟨i, x, parts, rfl, -⟩ := hshow.node
  cases hroot
  refine meets_bind_of_ok (expect_eq (by rw [ht.window, hend, hc])) ?_
  refine meets_bind_of_ok (spanFrom_eq _ _) (meets_bind_of_ok (expr_eq hh) ?_)
  have hholds : t.advanced.tree.Holds ([_] ++ bs) := hh
  refine meets_addNode h₃.sound hholds trivial rfl fun id' u hu hnames hh' => ?_
  refine ⟨_, ?_, hh', rfl, .group rfl rfl (hnames ▸ hshow)⟩
  simpa [Nat.add_comm] using h₃.trans hu

theorem reads_unary {op : UnaryOp} {token : Token} (hx : Reads source operand xs)
    (hs : operand.Spells source xs) (hl : operand.level = .call)
    (hm : op.mutates = true → operand.canAssign = true)
    (ht : UnaryOp.ofToken? token.kind = some op) :
    Reads source (.unary op operand) (token :: xs) := by
  refine reads_of_unary (by simp) fun s bs n f hu hn => ?_
  obtain ⟨rfl, hxs⟩ := Window.ahead_cons.1 f.ahead
  have hstop := f.stop
  simp only [List.length_cons] at hn hstop hu
  have h₁ := ParseState.took_advanced f.sound (hs.front hxs)
  have hend : s.advanced.window.drop xs.length = s.window.drop (xs.length + 1) := by
    rw [h₁.window, Window.drop_drop, Nat.add_comm]
  have hcall : Level.of (s.window.drop (xs.length + 1)).current.kind ≠ .call := hu
  have f₁ : Front source s.advanced xs bs :=
    f.took h₁ (by rwa [h₁.window]) (by rwa [hend]) f.holds
  have hfits : operand.Fits .call true := ⟨by rw [hl], by simp [hl]⟩
  have hfollows : operand.Follows (s.advanced.window.drop xs.length).current.kind := by
    rw [hend]
    exact Term.follows_of_le (hl ▸ Term.rank_le_call _) hcall (by simp [hl])
  have hstops : (Level.of (s.advanced.window.drop xs.length).current.kind).Stops .call true := by
    rw [hend]
    refine .inr (.inl (Nat.lt_of_le_of_ne (Term.rank_le_call _) fun he => hcall ?_))
    exact Term.eq_call_of_rank (Nat.le_of_eq he.symm)
  unfold unary
  refine meets_bind_of_ok (current_eq s) ?_
  rw [ht]
  refine meets_bind_of_ok (advance_eq s) ?_
  refine (hx.whole hfits f₁ hfollows hstops (by omega)).bind ?_
  rintro id t ⟨b, ht, hh, hroot, hshow⟩
  obtain ⟨i, x, parts, rfl, hcan⟩ := hshow.node
  cases hroot
  refine meets_bind_of_ok (expr_eq hh) ?_
  have hmutates : (op.mutates && !x.canAssign) = false := by
    cases h : op.mutates with
    | false => rfl
    | true => simp [hcan, hm h]
  dsimp only
  rw [hmutates, if_neg Bool.false_ne_true]
  have hholds : t.tree.Holds ([_] ++ bs) := hh
  refine meets_addNode ht.sound hholds trivial rfl fun id' u hu hnames hh' => ?_
  refine ⟨_, ?_, hh', rfl, .unary rfl rfl (hnames ▸ hshow)⟩
  simpa [Nat.add_comm] using (h₁.trans ht).trans hu

/-! ### Infix forms -/

/-- After the left operand an operator is next, and then the right operand. -/
theorem Front.split {token : Token} (f : Front source s (xs ++ token :: ys) bs)
    (ht : token.kind ≠ .error) :
    Front source s xs bs ∧ (s.window.drop xs.length).current = token ∧
      (s.window.drop (xs.length + 1)).Ahead ys := by
  obtain ⟨hxs, hrest⟩ := Window.ahead_append.1 f.ahead
  obtain ⟨hcur, hys⟩ := Window.ahead_cons.1 hrest
  rw [Window.bump_drop] at hys
  exact ⟨{ f with ahead := hxs, stop := by rwa [hcur] }, hcur, hys⟩

/-- Behind the operator the right operand is next. -/
theorem Front.behind {token : Token} (f : Front source s (xs ++ token :: ys) bs)
    (hs : right.Spells source ys) (ht : token.kind ≠ .error) (h : s.Took xs.length t)
    (hh : t.tree.Holds cs) :
    s.Took (xs.length + 1) t.advanced ∧ Front source t.advanced ys cs ∧
      t.advanced.window.drop ys.length = s.window.drop (xs ++ token :: ys).length := by
  obtain ⟨-, -, hys⟩ := f.split ht
  have h' := h.advanced (hs.front hys)
  have hend : t.advanced.window.drop ys.length = s.window.drop (xs ++ token :: ys).length := by
    rw [h'.window, Window.drop_drop, List.length_append, List.length_cons]
    congr 1
    omega
  exact ⟨h', f.took h' (by rwa [h'.window]) (by rw [hend]; exact f.stop) hh, hend⟩

/-- An infix form: its left operand is read, and then what stands behind that. -/
theorem reads_form {token : Token} (whole : Term) (ys : List Token)
    (form : Productions → ExprId → Parse ExprId) (hl : Reads source left xs)
    (ht : token.kind ≠ .error) (hfollows : left.Follows token.kind)
    (hfits : ∀ {least isValue}, whole.Fits least isValue → left.Fits least isValue)
    (hinfixes : ∀ {parse : Productions} {least isValue id s}, whole.Fits least isValue →
      s.window.current = token → infixes parse id least isValue s =
        (form parse id >>= fun id => parse (.infixes id least isValue)) s)
    (hform : ∀ {s t i x parts bs n}, Front source s (xs ++ token :: ys) bs →
      whole.Follows (s.window.drop (xs ++ token :: ys).length).current.kind →
      s.Took xs.length t → t.window.current = token →
      t.tree.Holds (⟨.expr i, .expr x, parts⟩ :: bs) → x.canAssign = left.canAssign →
      Term.Shows t.names ⟨.expr i, .expr x, parts⟩ left → 3 * ys.length + 1 ≤ n →
      Meets (form (within n) i) t (Yields s whole (xs.length + 1 + ys.length) bs) Exhausted) :
    Reads source whole (xs ++ token :: ys) := by
  intro least isValue n m s bs Q hfit f hu hn next
  obtain ⟨f₀, hcur, -⟩ := f.split ht
  have hlen : (xs ++ token :: ys).length = xs.length + 1 + ys.length := by
    rw [List.length_append, List.length_cons]
    omega
  refine hl (m := 3 * ys.length + m + 2) (hfits hfit) f₀ (by rwa [hcur]) (by omega) ?_
  rintro j id t hj ⟨b, ht, hh, hroot, hshow⟩
  obtain ⟨j, rfl⟩ : ∃ k, j = k + 1 := ⟨j - 1, by omega⟩
  obtain ⟨i, x, parts, rfl, hcan⟩ := hshow.node
  cases hroot
  have hkind : t.window.current = token := by rw [ht.window, hcur]
  refine Meets.congr ?_ (hinfixes hfit hkind)
  exact (hform f hu ht hkind hh hcan hshow (by omega)).bind fun id u hy =>
    next j id u (by omega) (hlen ▸ hy)

theorem reads_binary {op : BinaryOp} {token : Token} (hl : Reads source left xs)
    (hr : Reads source right ys) (hs : right.Spells source ys)
    (hle : op.level.rank ≤ left.level.rank) (hlt : op.level.rank < right.level.rank)
    (ht : BinaryOp.ofToken? token.kind = some op) :
    Reads source (.binary op left right) (xs ++ token :: ys) := by
  have hlevel := Term.level_of_binary ht
  have hassign := Term.level_ne_assign hle
  have htoken := (Term.plain_of_binary ht).1
  refine @reads_form _ _ _ token _ ys (binary · · op.level) @hl htoken
    (Term.follows_of_le (by rwa [hlevel]) (hlevel ▸ (Term.level_ne op).2.2) hassign)
    (fun hfit => ⟨Nat.le_trans hfit.1 hle, fun _ => hassign⟩)
    (fun {_ _ isValue _ _} hfit hcur => ?_)
    fun {s t i x parts bs n} f hu h₁ hcur hh₁ _ hshow hn => ?_
  · rw [← hcur] at hlevel
    exact infixes_binary hlevel (hlevel ▸ Term.not_stops hfit.1 isValue)
  have hu : (Level.of (s.window.drop (xs ++ token :: ys).length).current.kind).rank ≤
    op.level.rank := hu
  obtain ⟨h₂, f₂, hend⟩ := f.behind hs htoken h₁ hh₁
  have hfollows : right.Follows (t.advanced.window.drop ys.length).current.kind := by
    rw [hend]
    refine Term.follows_of_le (by omega) (fun he => ?_) (Term.level_ne_assign (Nat.le_of_lt hlt))
    have := (Term.rank_level op).2
    rw [he] at hu
    omega
  unfold binary
  refine meets_bind_of_ok (current_eq t) ?_
  rw [hcur, ht]
  refine meets_bind_of_ok (advance_eq t) ?_
  refine (hr.whole ⟨by rwa [Term.rank_next], fun _ => Term.level_ne_assign (Nat.le_of_lt hlt)⟩ f₂
    hfollows (by rw [hend]; exact Term.stops_of_rank hu true) hn).bind ?_
  rintro id u ⟨c, h₃, hh₃, hroot, hshow'⟩
  obtain ⟨i', x', parts', rfl, -⟩ := hshow'.node
  cases hroot
  refine meets_bind_of_ok (expr_eq hh₃.swap) (meets_bind_of_ok (expr_eq hh₃) ?_)
  have hh : u.tree.Holds ([_, _] ++ bs) := hh₃.swap
  refine meets_addNode h₃.sound hh trivial rfl fun id v hv hnames hh' => ?_
  refine ⟨_, (h₂.trans h₃).trans hv, hh', rfl, .binary rfl rfl ?_ ?_⟩
  · exact hnames ▸ hshow.mono h₃.names
  · exact hnames ▸ hshow'

theorem reads_assign {op : AssignOp} {token : Token} (hl : Reads source target xs)
    (hr : Reads source value ys) (hs : value.Spells source ys) (hc : target.canAssign = true)
    (ht : AssignOp.ofToken? token.kind = some op) :
    Reads source (.assign op target value) (xs ++ token :: ys) := by
  have hlevel := Term.level_of_assign ht
  have hpost := Term.isPostfix_of_canAssign hc
  have htoken := (Term.plain_of_assign ht).1
  refine @reads_form _ _ _ token _ ys assignment @hl htoken
    (Term.follows_of_postfix hpost _)
    (fun {least isValue} hfit => ⟨?_, fun _ => hpost.level ▸ nofun⟩)
    (fun {_ least isValue _ _} hfit hcur => ?_)
    fun {s t i x parts bs n} f hu h₁ hcur hh₁ hcan hshow hn => ?_
  · rw [hpost.level]
    exact Term.rank_le_call least
  · rw [← hcur] at hlevel
    refine infixes_assign hlevel (hlevel ▸ ?_)
    have hrank : least.rank ≤ Level.assign.rank := hfit.1
    rintro (h | h | ⟨-, h⟩)
    · cases h
    · omega
    · exact hfit.2 h rfl
  have hu : Level.of (s.window.drop (xs ++ token :: ys).length).current.kind = .none := hu
  obtain ⟨h₂, f₂, hend⟩ := f.behind hs htoken h₁ hh₁
  unfold assignment
  refine meets_bind_of_ok (current_eq t) ?_
  rw [hcur, ht]
  refine meets_bind_of_ok (advance_eq t) ?_
  refine (hr.whole ⟨Term.rank_assign_le value, by simp⟩ f₂ (Term.follows_of_none (hend ▸ hu) _)
    (.inl (hend ▸ hu)) hn).bind ?_
  rintro id u ⟨c, h₃, hh₃, hroot, hshow'⟩
  obtain ⟨i', x', parts', rfl, -⟩ := hshow'.node
  cases hroot
  refine meets_bind_of_ok (expr_eq hh₃.swap) (meets_bind_of_ok (expr_eq hh₃) ?_)
  dsimp only
  rw [hcan, hc, if_pos rfl]
  have hh : u.tree.Holds ([_, _] ++ bs) := hh₃.swap
  refine meets_addNode h₃.sound hh trivial rfl fun id v hv hnames hh' => ?_
  refine ⟨_, (h₂.trans h₃).trans hv, hh', rfl, .assign rfl rfl ?_ ?_⟩
  · exact hnames ▸ hshow.mono h₃.names
  · exact hnames ▸ hshow'

theorem reads_member {d token : Token} (ho : Reads source object xs) (hp : object.IsPostfix)
    (hd : d.kind = .dot) (ht : token.kind = .ident) :
    Reads source (.member object (token.lexeme source)) (xs ++ [d, token]) := by
  have hdot : d.kind ≠ .error := by rw [hd]; decide
  refine @reads_form _ _ _ d _ [token] postfixForm @ho hdot
    (Term.follows_of_postfix hp _)
    (fun {least _} _ => ⟨hp.level ▸ Term.rank_le_call least, fun _ => hp.level ▸ nofun⟩)
    (fun {_ least isValue _ s} _ hcur => ?_)
    fun {s t i x parts bs n} f hu h₁ hcur hh₁ hcan hshow hn => ?_
  · have hcall : Level.of s.window.current.kind = .call := by rw [hcur, hd]; rfl
    exact infixes_call hcall (hcall ▸ Term.not_stops_call least isValue)
  obtain ⟨-, -, hrest⟩ := f.split hdot
  obtain ⟨hfield, -⟩ := Window.ahead_cons.1 hrest
  have h₂ := h₁.advanced (by rw [hfield, ht]; decide)
  have hname : t.advanced.window.current = token := by rw [h₂.window, hfield]
  have hlen : (xs ++ [d, token]).length = xs.length + 2 := by simp
  have hstop : t.advanced.window.bump.current.kind ≠ .error := by
    rw [h₂.window, Window.bump_drop, show xs.length + 1 + 1 = xs.length + 2 by rfl, ← hlen]
    exact f.stop
  refine meets_bind_of_ok (expr_eq hh₁) (meets_bind_of_ok (eat_eq (hcur ▸ hd)) ?_)
  rw [if_pos rfl]
  unfold member
  refine (meets_expectName h₂.sound (hname ▸ ht) hstop).bind ?_
  rintro ⟨field, span⟩ u ⟨h₃, htree, hfield'⟩
  have hh : u.tree.Holds ([_] ++ bs) := htree ▸ hh₁
  refine meets_addNode h₃.sound hh trivial rfl fun id v hv hnames hh' => ?_
  refine ⟨_, (h₂.trans h₃).trans hv, hh', rfl, .member rfl ?_ hcan ?_⟩
  · rw [hname, h₂.window, Window.source_drop, f.source] at hfield'
    exact hnames ▸ hfield'
  · exact hnames ▸ hshow.mono h₃.names

/-! ### Calls -/

/-- The handles of nodes that show the arguments of a call. -/
def YieldsArgs (s : ParseState) (args : List Term) (size : Nat) (bs : List Branch)
    (ids : List ExprId) (t : ParseState) : Prop :=
  ∃ parts, s.Took size t ∧ t.tree.Holds (parts ++ bs) ∧ parts.map Branch.root = ids.map .expr ∧
    parts.length = args.length ∧ ∀ p ∈ parts.zip args, Term.Shows t.names p.1 p.2

/-- Arguments in front of a closing parenthesis are read. -/
def ReadsArgs (source : Array UInt8) (args : List Term) (ts : List Token) : Prop :=
  ∀ {n s bs}, Front source s ts bs → (s.window.drop ts.length).current.kind = .closeParen →
    3 * ts.length + 2 ≤ n → Meets (within n .args) s (YieldsArgs s args ts.length bs) Exhausted

theorem readsArgs_last {arg : Term} (ha : Reads source arg ts) (hl : arg.level ≠ .assign) :
    ReadsArgs source [arg] ts := by
  intro n s bs f hend hn
  obtain ⟨n, rfl⟩ : ∃ k, n = k + 1 := ⟨n - 1, by omega⟩
  have hnone : Level.of (s.window.drop ts.length).current.kind = .none := by rw [hend]; rfl
  refine (ha.whole ⟨Term.rank_assign_le arg, fun _ => hl⟩ f (Term.follows_of_none hnone _)
    (.inl hnone) (by omega)).bind ?_
  rintro id t ⟨b, h₁, hh, hroot, hshow⟩
  refine meets_bind_of_ok (eat_ne (by rw [h₁.window, hend]; decide)) ?_
  rw [if_neg Bool.false_ne_true]
  exact meets_pure ⟨[b], h₁, hh, by simp [hroot], rfl, by simpa using hshow⟩

theorem readsArgs_more {arg : Term} {args : List Term} {c : Token} (ha : Reads source arg xs)
    (hl : arg.level ≠ .assign) (hc : c.kind = .comma) (hr : ReadsArgs source args ys)
    (hys : ∀ w : Window, w.Ahead ys → w.current.kind ≠ .error) :
    ReadsArgs source (arg :: args) (xs ++ c :: ys) := by
  intro n s bs f hend hn
  obtain ⟨n, rfl⟩ : ∃ k, n = k + 1 := ⟨n - 1, by omega⟩
  have hcomma : c.kind ≠ .error := by rw [hc]; decide
  obtain ⟨f₀, hcur, hahead⟩ := f.split hcomma
  have hlen : (xs ++ c :: ys).length = xs.length + 1 + ys.length := by
    rw [List.length_append, List.length_cons]
    omega
  have hnone : Level.of (s.window.drop xs.length).current.kind = .none := by rw [hcur, hc]; rfl
  refine (ha.whole ⟨Term.rank_assign_le arg, fun _ => hl⟩ f₀ (Term.follows_of_none hnone _)
    (.inl hnone) (by omega)).bind ?_
  rintro id t ⟨b, h₁, hh₁, hroot, hshow⟩
  have h₂ := h₁.advanced (hys _ hahead)
  have hlast : t.advanced.window.drop ys.length = s.window.drop (xs ++ c :: ys).length := by
    rw [h₂.window, Window.drop_drop, hlen]
  refine meets_bind_of_ok (eat_eq (by rw [h₁.window, hcur, hc])) ?_
  rw [if_pos rfl]
  have f₂ : Front source t.advanced ys (b :: bs) :=
    f.took h₂ (by rwa [h₂.window]) (by rw [hlast]; exact f.stop) hh₁
  refine (hr f₂ (by rw [hlast, hend]) (by omega)).bind ?_
  rintro ids u ⟨parts, h₃, hh₃, hroots, hcount, hshows⟩
  refine meets_pure ⟨b :: parts, hlen ▸ h₂.trans h₃, hh₃.perm List.perm_middle,
    by simp [hroot, hroots],
    by simp [hcount], ?_⟩
  simp only [List.zip_cons_cons, List.mem_cons, forall_eq_or_imp]
  exact ⟨hshow.mono h₃.names, hshows⟩

/-- The name of a function becomes the call, and the arguments its children. -/
theorem meets_makeCall {left : ExprId} {old : Expr} {callee : Name} {ids : List ExprId}
    {span : Span} {parts : List Branch} {Q : ExprId → ParseState → Prop} (h : s.Sound)
    (hh : s.tree.Holds (parts ++ ⟨.expr left, .expr old, []⟩ :: bs))
    (hroots : parts.map Branch.root = ids.map .expr)
    (next : ∀ range t, s.Took 0 t → t.names = s.names → t.tree.Holds
      (⟨.expr left, .expr (Expr.new (.call callee range none) span), parts⟩ :: bs) → Q left t) :
    Meets (makeCall left callee ids span) s Q Exhausted := by
  have hlist := (hh.addExprList ids).perm List.perm_middle
  obtain ⟨tree, hset, hp⟩ :=
    hlist.places (Expr.new (.call callee (s.tree.addExprList ids).1 none) span)
  have hcall := hlist.rewritten (.refl (parts ++ bs)) hp ?_ ?_
  · exact meets_of_ok (makeCall_eq hset) (next _ _ (h.took.tree hp.sound) rfl hcall)
  · simp [Tree.Covers, Expr.new, Tree.addExprList, ← Array.length_toList]
  · simp [Tree.children, Expr.new, Tree.exprChildren, Tree.exprList_addExprList, hroots]

theorem meets_endCall {args : List Term} {callee : Name} {name : String} {left : ExprId}
    {x : Expr} {ids : List ExprId} (hx : x.kind = .var callee)
    (hname : s.names.Has callee name)
    (hy : YieldsArgs s args n (⟨.expr left, .expr x, []⟩ :: bs) ids t)
    (hc : (s.window.drop n).current.kind = .closeParen)
    (hstop : (s.window.drop (n + 1)).current.kind ≠ .error) :
    Meets (endCall left x ids) t (Yields s (.call name args) (n + 1) bs) Exhausted := by
  obtain ⟨parts, h₁, hh, hroots, hcount, hshows⟩ := hy
  have h₂ := h₁.advanced hstop
  refine meets_bind_of_ok (expect_eq (by rw [h₁.window, hc])) ?_
  refine meets_bind_of_ok (spanFrom_eq _ _) ?_
  rw [callEnd_of_var hx]
  refine meets_makeCall h₂.sound hh hroots fun range u hu hnames hh' => ?_
  refine ⟨_, h₂.trans hu, hh', rfl, .call rfl ?_ rfl hcount ?_⟩
  · exact hnames ▸ h₁.names _ _ hname
  · exact hnames ▸ hshows

theorem reads_call {args : List Term} {token o c : Token}
    (ha : args = [] ∧ xs = [] ∨ ReadsArgs source args xs ∧
      ∀ w : Window, w.Ahead xs → w.current.kind ≠ .error ∧ w.current.kind ≠ .closeParen)
    (ht : token.kind = .ident) (ho : o.kind = .openParen) (hc : c.kind = .closeParen) :
    Reads source (.call (token.lexeme source) args) (token :: o :: xs ++ [c]) := by
  have hopen : o.kind ≠ .error := by rw [ho]; decide
  have hcall : Level.of o.kind = .call := by rw [ho]; rfl
  have hvar : Reads source (.var (token.lexeme source)) [token] := reads_var ht
  refine @reads_form _ _ [token] o _ (xs ++ [c]) postfixForm @hvar hopen trivial
    (fun {least _} _ => ⟨Term.rank_le_call least, by simp [Term.level]⟩)
    (fun {_ least isValue _ s} _ hcur => ?_)
    fun {s t i x parts bs n} f hu h₁ hcur hh₁ _ hshow hn => ?_
  · rw [← hcur] at hcall
    exact infixes_call hcall (hcall ▸ Term.not_stops_call least isValue)
  obtain ⟨-, -, hrest⟩ := f.split hopen
  obtain ⟨hxs, hlast⟩ := Window.ahead_append.1 hrest
  obtain ⟨hlast, -⟩ := Window.ahead_cons.1 hlast
  cases hshow with
  | @var _ _ callee _ hkind hname hcan =>
  have hafter : (s.window.drop 2).current.kind ≠ .error := by
    rcases ha with ⟨-, rfl⟩ | ⟨-, hfront⟩
    · have : (s.window.drop 2).current = c := hlast
      rw [this, hc]
      decide
    · exact (hfront _ hxs).1
  have h₂ : s.Took 2 t.advanced := h₁.advanced hafter
  have hclose : (t.advanced.window.drop xs.length).current.kind = .closeParen := by
    rw [h₂.window]
    exact (congrArg Token.kind hlast).trans hc
  have hbehind : (t.advanced.window.drop (xs.length + 1)).current.kind ≠ .error := by
    have hstop := f.stop
    simp only [List.length_append, List.length_cons, List.length_nil] at hstop
    rwa [h₂.window, Window.drop_drop,
      show 2 + (xs.length + 1) = 0 + 1 + (xs.length + (0 + 1) + 1) by omega]
  have hx : t.advanced.names.Has callee (token.lexeme source) := hname
  refine Meets.imp (R := Yields s (.call (token.lexeme source) args) _ bs)
    (Q := Yields t.advanced (.call (token.lexeme source) args) (xs.length + 1) bs) ?_
    (fun id u ⟨b, h₃, hh₃, hroot, hshow⟩ => ⟨b, ?_, hh₃, hroot, hshow⟩) fun _ _ he => he
  · refine meets_bind_of_ok (expr_eq hh₁) (meets_bind_of_ok (eat_ne (by simp [hcur, ho])) ?_)
    rw [if_neg Bool.false_ne_true]
    unfold call
    refine meets_bind_of_ok (expect_eq (hcur ▸ ho)) ?_
    rcases ha with ⟨rfl, rfl⟩ | ⟨hreads, hfront⟩
    · refine meets_bind_of_ok (currentIs_eq hclose) ?_
      rw [if_pos rfl]
      refine meets_bind_of_ok rfl (meets_endCall hkind hx ?_ hclose hbehind)
      exact ⟨[], h₂.sound.took, hh₁, rfl, rfl, by simp⟩
    · have hahead : t.advanced.window.Ahead xs := by rwa [h₂.window]
      have hsome := (hfront _ hahead).2
      have f₂ : Front source t.advanced xs (_ :: bs) :=
        f.took h₂ hahead (by rw [hclose]; decide) hh₁
      refine meets_bind_of_ok (currentIs_ne hsome) ?_
      rw [if_neg Bool.false_ne_true]
      have hroom : 3 * xs.length + 2 ≤ n := by
        rw [List.length_append, List.length_singleton] at hn
        omega
      exact (hreads f₂ hclose hroom).bind fun ids u hy => meets_endCall hkind hx hy hclose hbehind
  · have hlen : [token].length + 1 + (xs ++ [c]).length = 2 + (xs.length + 1) := by simp
    exact hlen ▸ h₂.trans h₃

/-! ### All terms -/

mutual

theorem reads : ∀ (e : Term) (ts : List Token), e.Valid → e.Spells source ts → Reads source e ts
  | .literal v, ts, _, hs => by
    rw [Term.Spells] at hs
    obtain ⟨token, rfl, h⟩ := hs
    exact reads_literal h
  | .str text, ts, _, hs => by
    rw [Term.Spells] at hs
    obtain ⟨token, rfl, h, rfl⟩ := hs
    exact reads_str h
  | .var name, ts, _, hs => by
    rw [Term.Spells] at hs
    obtain ⟨token, rfl, h, rfl⟩ := hs
    exact reads_var h
  | .group inner, ts, hv, hs => by
    rw [Term.Valid] at hv
    rw [Term.Spells] at hs
    obtain ⟨o, xs, c, rfl, ho, hc, hi⟩ := hs
    exact reads_group (reads inner xs hv.2 hi) hi hv.1 ho hc
  | .unary op operand, ts, hv, hs => by
    rw [Term.Valid] at hv
    rw [Term.Spells] at hs
    obtain ⟨token, xs, rfl, ht, ho⟩ := hs
    exact reads_unary (reads operand xs hv.2.2 ho) ho hv.1 hv.2.1 ht
  | .binary op left right, ts, hv, hs => by
    rw [Term.Valid] at hv
    rw [Term.Spells] at hs
    obtain ⟨xs, token, ys, rfl, ht, hl, hr⟩ := hs
    obtain ⟨hle, hlt, hvl, hvr⟩ := hv
    exact reads_binary (reads left xs hvl hl) (reads right ys hvr hr) hr hle hlt ht
  | .assign op target value, ts, hv, hs => by
    rw [Term.Valid] at hv
    rw [Term.Spells] at hs
    obtain ⟨xs, token, ys, rfl, ht, hl, hr⟩ := hs
    obtain ⟨hc, hvl, hvr⟩ := hv
    exact reads_assign (reads target xs hvl hl) (reads value ys hvr hr) hr hc ht
  | .call callee args, ts, hv, hs => by
    rw [Term.Valid] at hv
    rw [Term.Spells] at hs
    obtain ⟨token, o, xs, c, rfl, ht, rfl, ho, hc, ha⟩ := hs
    refine reads_call ?_ ht ho hc
    cases args with
    | nil =>
      rw [Term.SpellsArgs] at ha
      exact .inl ⟨rfl, ha⟩
    | cons arg args =>
      exact .inr ⟨readsArgs (arg :: args) xs (by simp) hv ha, fun w hw => ha.front hw⟩
  | .member object field, ts, hv, hs => by
    rw [Term.Valid] at hv
    rw [Term.Spells] at hs
    obtain ⟨xs, d, token, rfl, hd, ht, rfl, ho⟩ := hs
    exact reads_member (reads object xs hv.2 ho) hv.1 hd ht

theorem readsArgs : ∀ (args : List Term) (ts : List Token), args ≠ [] → Term.ValidArgs args →
    Term.SpellsArgs source args ts → ReadsArgs source args ts
  | [], ts, hne, _, _ => absurd rfl hne
  | [arg], ts, _, hv, hs => by
    rw [Term.ValidArgs] at hv
    rw [Term.SpellsArgs] at hs
    exact readsArgs_last (reads arg ts hv.2.1 hs) hv.1
  | arg :: a :: args, ts, _, hv, hs => by
    rw [Term.ValidArgs] at hv
    rw [Term.SpellsArgs] at hs
    · obtain ⟨xs, c, ys, rfl, hc, hx, hy⟩ := hs
      exact readsArgs_more (reads arg xs hv.2.1 hx) hv.1 hc
        (readsArgs (a :: args) ys (by simp) hv.2.2 hy) fun w hw => (hy.front hw).1
    · simp

end

/-- A term in front of a token that is no infix operator is read, unless a storage runs out. -/
theorem meets_term {e : Term} (hv : e.Valid) (hs : e.Spells s.window.source (s.window.take n))
    (h : s.Sound) (hf : s.NoConstants) (hstop : (s.window.drop n).current.kind ≠ .error)
    (hnone : Level.of (s.window.drop n).current.kind = .none) (hh : s.tree.Holds bs) :
    Meets (production (.expr .assign false)) s (Yields s e n bs) Exhausted := by
  have hlen := Window.length_take s.window n
  have f : Front s.window.source s (s.window.take n) bs :=
    ⟨h, hf, rfl, s.window.ahead_take n, by rwa [hlen], hh⟩
  have hunread : n ≤ s.window.unread := Window.le_unread fun t ht => (hs.plain.2 t ht).2.1
  have hreads : Reads s.window.source e (s.window.take n) := reads e _ hv hs
  have hfits : e.Fits .assign false := ⟨Term.rank_assign_le e, by simp⟩
  have hwhole : Meets (within (8 * (s.window.unread + 1)) (.expr .assign false)) s
      (Yields s e (s.window.take n).length bs) Exhausted :=
    hreads.whole hfits f (Term.follows_of_none (hlen.symm ▸ hnone) e) (.inl (hlen.symm ▸ hnone))
      (by omega)
  rw [hlen] at hwhole
  exact meets_bind_of_ok (get_eq s) hwhole

end Parse

end FrontEnd
