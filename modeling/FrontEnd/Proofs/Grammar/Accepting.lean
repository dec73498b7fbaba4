import FrontEnd.Proofs.Grammar.Climbing
import FrontEnd.Proofs.Grammar.SteadyStatements

/-! Whatever is read without a report is a term in precedence order. -/

namespace FrontEnd

/-- From `s` to `t`, so many tokens later, nothing was reported although it would have been seen;
no token began a function literal. -/
structure ParseState.Quiet (s : ParseState) (k : Nat) (t : ParseState) : Prop where
  heeds : s.reports.Heeds
  size : t.reports.reports.size = s.reports.reports.size
  free : s.NoConstants
  noFunc : ∀ token ∈ s.window.take k, token.kind ≠ .kwFunc

namespace Parse

variable {s t u : ParseState} {i j k m n : Nat} {bs xs : List Branch} {id left : ExprId}
  {parse : Productions} {least : Level} {isValue : Bool}

/-- A quiet stretch has quiet parts. -/
theorem quiet_split (h : s.Quiet (i + j) u) (ht : s.Onto m t) (hu : t.Onto n u) :
    s.Quiet i t ∧ (s.Took i t → t.Quiet j u) := by
  have hle := ht.reports
  have hle' := hu.reports
  have hsize := h.size
  refine ⟨⟨h.heeds, by omega, h.free, fun token hm => h.noFunc token ?_⟩, fun htook => ?_⟩
  · rw [Window.take_add]
    exact List.mem_append_left _ hm
  · refine ⟨htook.reports ▸ h.heeds, by omega, htook.noConstants h.free, fun token hm => ?_⟩
    refine h.noFunc token ?_
    rw [Window.take_add]
    rw [htook.window] at hm
    exact List.mem_append_right _ hm

/-! ### Steps that were made -/

theorem advance_ok {token : Token} (h : advance s = .ok token t) :
    token = s.window.current ∧ t = s.advanced := by
  rw [advance_eq] at h
  cases h
  exact ⟨rfl, rfl⟩

/-- Only one token is taken if none of the next ones is reported. -/
theorem exists_drop_advanced (h : s.Sound) : ∃ k, s.advanced.window = s.window.drop (k + 1) ∧
    (s.Quiet (k + 1) s.advanced → k = 0 ∧ s.Took 1 s.advanced) := by
  obtain ⟨n, hn, -⟩ := s.window.bump.skipErrors_eq
  have hwindow : s.advanced.window = s.window.drop (n + 1) := by
    simp [ParseState.advanced, hn, Window.drop_succ]
  by_cases herror : s.window.bump.current.kind = .error
  · refine ⟨n, hwindow, fun hq => ?_⟩
    -- The first error token was reported, and no report is taken back.
    obtain ⟨e, he⟩ := Option.ne_none_iff_exists'.1 (h.marks.bump.1 herror)
    have hgrow := hq.heeds.emitLexical (Report.on (.lexical e) e.message
      s.window.bump.current.span e.message) s.window.bump.current.line s.window.bump.current.col
    have hrest := ((h.reports.reportToken s.window.bump.current).accounts_tokens
      s.window.bump.bump.skipErrors.1).2.size_le
    have hsize := hq.size
    simp only [ParseState.advanced, Window.skipErrors_error herror, List.foldl_cons] at hsize
    simp only [reportToken, he] at hgrow hrest hsize
    omega
  · exact ⟨0, by simp [ParseState.advanced, Window.skipErrors_of_ne herror, Window.drop_succ],
      fun _ => ⟨rfl, ParseState.took_advanced h herror⟩⟩

theorem expect_ok {kind : TokenKind} {token : Token} (h : expect kind s = .ok token t) :
    s.window.current.kind = kind ∧ t = s.advanced := by
  by_cases hk : s.window.current.kind = kind
  · rw [expect_eq hk] at h
    cases h
    exact ⟨hk, rfl⟩
  · unfold expect at h
    rw [bind_of_ok (currentIs_ne hk), if_neg Bool.false_ne_true] at h
    cases h

theorem eat_ok {kind : TokenKind} {b : Bool} (h : eat kind s = .ok b t) :
    b = true ∧ s.window.current.kind = kind ∧ t = s.advanced ∨
      b = false ∧ s.window.current.kind ≠ kind ∧ t = s := by
  by_cases hk : s.window.current.kind = kind
  · rw [eat_eq hk] at h
    cases h
    exact .inl ⟨rfl, hk, rfl⟩
  · rw [eat_ne hk] at h
    cases h
    exact .inr ⟨rfl, hk, rfl⟩

/-- A report that was made is seen. -/
theorem report_ok {code : ErrorCode} {span : Span} {message label : String} {a : Unit}
    (h : report code span message label s = .ok a t) (hq : s.reports.Heeds) :
    s.reports.reports.size < t.reports.reports.size := by
  obtain ⟨_, _, hget, h⟩ := bind_eq_ok h
  cases hget
  obtain ⟨reports, u, hr, h⟩ := bind_eq_ok h
  obtain ⟨he, rfl⟩ := ofFault_ok hr
  cases h
  obtain ⟨r, rfl⟩ := Queue.emitSpanned_ok he
  exact hq r

/-- A run that goes on after a report is not quiet. -/
theorem not_quiet_of_report {α : Type} {p : Parse α} {code : ErrorCode} {span : Span}
    {message label : String} {a : α}
    (h : (report code span message label >>= fun _ => p) s = .ok a t) (hp : Loud m p)
    (hs : s.Sound) (hcode : code.stage ≠ .lexer) : ¬ s.Quiet k t := by
  intro hq
  obtain ⟨_, u, hr, h⟩ := bind_eq_ok h
  have hgrow := report_ok hr hq.heeds
  have hrest := (hp.ok h ((steady_report (k := m) hcode _ _ _).ok hr hs).sound
    (pos_of_report hr hs)).reports
  have hsize := hq.size
  omega

/-- Where reading goes on to a report, it was not quiet. -/
theorem not_quiet_behind {p : Parse ExprId} {code : ErrorCode} {span : Span}
    {message label : String} (o : s.Onto 1 u) (hk : u.window = s.window.drop k)
    (htook : s.Quiet k u → s.Took k u)
    (h : (report code span message label >>= fun _ => p) u = .ok id t) (hp : Loud 1 p)
    (hcode : code.stage ≠ .lexer) : ∃ n, t.window = s.window.drop n ∧ ¬ s.Quiet n t := by
  have o' := (steady_report_bind hcode fun _ => hp).ok h o.sound
  obtain ⟨n, hn⟩ := o'.window
  refine ⟨k + n, by rw [hn, hk, Window.drop_drop], fun hq => ?_⟩
  obtain ⟨q, r⟩ := quiet_split hq o o'
  exact not_quiet_of_report h hp o.sound hcode (r (htook q))

theorem expr_ok {x : Expr} (h : expr id s = .ok x t) : t = s := by
  obtain ⟨_, _, hget, h⟩ := bind_eq_ok h
  cases hget
  exact (ofFault_ok h).2

theorem addNode_ok {x : Expr} (h : addNode x s = .ok id t) :
    ∃ tree, s.tree.addExpr x = .ok (id, tree) ∧ t = { s with tree } := by
  obtain ⟨_, _, hget, h⟩ := bind_eq_ok h
  cases hget
  obtain ⟨r, u, hr, h⟩ := bind_eq_ok h
  obtain ⟨ha, rfl⟩ := ofStorage_ok hr
  cases h
  exact ⟨_, ha, rfl⟩

/-- The new node stands over the branches that were read last. -/
theorem addNode_took {x : Expr} (h : addNode x s = .ok id t) (hs : s.Sound)
    (hh : s.tree.Holds (xs ++ bs)) (hc : s.tree.Covers (.expr x))
    (hch : s.tree.children (.expr x) = xs.map Branch.root) :
    s.Took 0 t ∧ t.tree.Holds (⟨.expr id, .expr x, xs⟩ :: bs) := by
  obtain ⟨tree, ha, rfl⟩ := addNode_ok h
  have hu := hh.addExpr ha hc hch
  exact ⟨hs.took.tree hu.sound, hu⟩

theorem addNode_window {x : Expr} (h : addNode x s = .ok id t) :
    t.window = s.window ∧ t.names = s.names := by
  obtain ⟨tree, -, rfl⟩ := addNode_ok h
  exact ⟨rfl, rfl⟩

theorem expectName_ok {r : Name × Span} (h : expectName s = .ok r t) (hs : s.Sound) :
    s.window.current.kind = .ident ∧ t.window = s.advanced.window ∧ t.tree = s.tree ∧
      s.advanced.Took 0 t ∧ t.names.Has r.1 (s.window.current.lexeme s.window.source) := by
  have hadv := onto_advanced hs 0
  obtain ⟨b, u, hb, h⟩ := bind_eq_ok h
  by_cases hk : s.window.current.kind = .ident
  · rw [currentIs_eq hk] at hb
    cases hb
    obtain ⟨token, u, ht, h⟩ := bind_eq_ok h
    obtain ⟨rfl, rfl⟩ := advance_ok ht
    obtain ⟨_, _, hget, h⟩ := bind_eq_ok h
    cases hget
    obtain ⟨name, v, hi, h⟩ := bind_eq_ok h
    cases h
    obtain ⟨htook, htree, hname⟩ := (meets_intern hadv.sound).of_ok hi
    have hsource : s.advanced.window.source = s.window.source := by
      obtain ⟨n, hn⟩ := hadv.window
      rw [hn, Window.source_drop]
    rw [Window.lexeme, hsource] at hname
    exact ⟨hk, htook.window, htree, htook, hname⟩
  · rw [currentIs_ne hk] at hb
    cases hb
    cases h

/-! ### What a production accepts -/

/-- What was read from `s` to `t`, if it was quiet: a term of which `C` holds together with the
next token. -/
def Accepted (C : Term → TokenKind → Prop) (s : ParseState) (id : ExprId) (t : ParseState) : Prop :=
  ∃ k, t.window = s.window.drop k ∧ (s.Quiet k t → ∀ bs, s.tree.Holds bs → ∃ e,
    Yields s e k bs id t ∧ e.Valid ∧ e.Spells s.window.source (s.window.take k) ∧
      e.Follows t.window.current.kind ∧ C e t.window.current.kind)

/-- The same where the term `l` was read before as left operand. -/
def Extended (P : Term → Prop) (C : Term → TokenKind → Prop) (s : ParseState) (left id : ExprId)
    (t : ParseState) : Prop :=
  ∃ k, t.window = s.window.drop k ∧ (s.Quiet k t → ∀ bs b l pre, s.tree.Holds (b :: bs) →
    b.root = .expr left → Term.Shows s.names b l → l.Valid → l.Spells s.window.source pre →
    l.Follows s.window.current.kind → P l → ∃ e, Yields s e k bs id t ∧ e.Valid ∧
      e.Spells s.window.source (pre ++ s.window.take k) ∧ e.Follows t.window.current.kind ∧
      C e t.window.current.kind)

theorem Extended.imp {P P' : Term → Prop} {C C' : Term → TokenKind → Prop}
    (h : Extended P C s left id t) (hP : ∀ l, l.Follows s.window.current.kind → P' l → P l)
    (hC : ∀ e, C e t.window.current.kind → C' e t.window.current.kind) :
    Extended P' C' s left id t := by
  obtain ⟨k, hk, hall⟩ := h
  refine ⟨k, hk, fun hq bs b l pre hh hroot hshow hv hsp hfol hp => ?_⟩
  obtain ⟨e, hy, hv', hsp', hfol', hc⟩ :=
    hall hq bs b l pre hh hroot hshow hv hsp hfol (hP l hfol hp)
  exact ⟨e, hy, hv', hsp', hfol', hC e hc⟩

/-- The same for arguments. -/
def AcceptedArgs (s : ParseState) (ids : List ExprId) (t : ParseState) : Prop :=
  ∃ k, t.window = s.window.drop k ∧ (s.Quiet k t → ∀ bs, s.tree.Holds bs → ∃ args,
    YieldsArgs s args k bs ids t ∧ args ≠ [] ∧ Term.ValidArgs args ∧
      Term.SpellsArgs s.window.source args (s.window.take k))

/-- How an expression ends. -/
def Ends (least : Level) (isValue : Bool) (e : Term) (k : TokenKind) : Prop :=
  e.Fits least isValue ∧ (Level.of k).Stops least isValue

/-- Productions that accept only terms in precedence order. -/
structure Accepting (parse : Productions) : Prop where
  steady : ∀ q, Steady q.reach (parse q)
  expr : ∀ {least isValue s id t}, s.Sound → parse (.expr least isValue) s = .ok id t →
    Accepted (Ends least isValue) s id t
  infixes : ∀ {left least isValue s id t}, s.Sound →
    parse (.infixes left least isValue) s = .ok id t →
    Extended (fun l => l.Fits least isValue) (Ends least isValue) s left id t
  args : ∀ {s ids t}, s.Sound → parse .args s = .ok ids t → AcceptedArgs s ids t

/-! ### Operands -/

theorem accepted_literal (hs : s.Sound) (h : literal s.window.current s = .ok id t) :
    Accepted (fun e _ => e.IsPostfix) s id t := by
  obtain ⟨_, _, hget, h⟩ := bind_eq_ok h
  cases hget
  obtain ⟨token, s₁, hadv, h⟩ := bind_eq_ok h
  obtain ⟨rfl, rfl⟩ := advance_ok hadv
  obtain ⟨k, hk, htake⟩ := exists_drop_advanced hs
  have o₁ := onto_advanced hs 1
  cases hv : literalValue? s.window.current.kind (s.window.lexeme s.window.current) with
  | some v =>
    rw [hv] at h
    have o₂ := (steady_addConstant (k := 1) ..).ok h o₁.sound
    refine ⟨k + 1, (addNode_window h).1.trans hk, fun hq bs hh => ?_⟩
    obtain ⟨q₁, -⟩ := quiet_split (j := 0) hq o₁ o₂
    obtain ⟨rfl, ht⟩ := htake q₁
    have hh' : s.advanced.tree.Holds ([] ++ bs) := hh
    obtain ⟨hu, hheld⟩ := addNode_took h o₁.sound hh' trivial rfl
    refine ⟨.literal v, ⟨_, ht.trans hu, hheld, rfl, .literal rfl rfl⟩, ?_, ?_, trivial, trivial⟩
    · rw [Term.Valid]
      trivial
    · rw [Term.Spells]
      exact ⟨_, rfl, hv⟩
  | none =>
    rw [hv] at h
    obtain ⟨n, hn, hnot⟩ := not_quiet_behind o₁ hk
      (fun hq => by
        obtain ⟨rfl, ht⟩ := htake hq
        exact ht) h (steady_errorExpr (k := 1) _).loud (by decide)
    exact ⟨n, hn, fun hq => absurd hq hnot⟩

theorem accepted_str (hs : s.Sound) (hkind : s.window.current.kind = .stringLit)
    (h : stringLiteral s.window.current s = .ok id t) :
    Accepted (fun e _ => e.IsPostfix) s id t := by
  obtain ⟨_, _, hget, h⟩ := bind_eq_ok h
  cases hget
  obtain ⟨token, s₁, hadv, h⟩ := bind_eq_ok h
  obtain ⟨rfl, rfl⟩ := advance_ok hadv
  obtain ⟨k, hk, htake⟩ := exists_drop_advanced hs
  have o₁ := onto_advanced hs 1
  obtain ⟨name, s₂, hi, h⟩ := bind_eq_ok h
  obtain ⟨t₂, htree, hname⟩ := (meets_intern o₁.sound).of_ok hi
  have o₂ := (steady_intern (k := 1) ..).ok hi o₁.sound
  have o₃ := (steady_addExpr (k := 1) ..).ok h t₂.sound
  refine ⟨k + 1, (addNode_window h).1.trans (t₂.window.trans hk), fun hq bs hh => ?_⟩
  obtain ⟨q₁, -⟩ := quiet_split (j := 0) hq o₁ (o₂.trans o₃)
  obtain ⟨rfl, ht⟩ := htake q₁
  have hh' : s₂.tree.Holds ([] ++ bs) := htree ▸ hh
  obtain ⟨hu, hheld⟩ := addNode_took h t₂.sound hh' trivial rfl
  have hname' := (addNode_window h).2 ▸ hname
  refine ⟨_, ⟨_, (ht.trans t₂).trans hu, hheld, rfl, .str rfl hname' rfl⟩, ?_, ?_, trivial,
    trivial⟩
  · rw [Term.Valid]
    trivial
  · rw [Term.Spells]
    exact ⟨_, rfl, hkind, rfl⟩

theorem accepted_name (hs : s.Sound) (h : nameExpr s = .ok id t) :
    Accepted (fun e _ => e.IsPostfix) s id t := by
  obtain ⟨⟨name, span⟩, s₁, hn, h⟩ := bind_eq_ok h
  obtain ⟨hkind, hwindow, htree, t₁, hname⟩ := expectName_ok hn hs
  obtain ⟨k, hk, htake⟩ := exists_drop_advanced hs
  have o₀ := onto_advanced hs 1
  have o₁ := (steady_expectName (k := 1)).ok hn hs
  obtain ⟨is, s₂, hc, h⟩ := bind_eq_ok h
  obtain ⟨his, rfl⟩ : s₁.constants name = is ∧ s₁ = s₂ := by
    rw [isConstantName_run] at hc
    cases hc
    exact ⟨rfl, rfl⟩
  cases is with
  | true =>
    have hfree : ¬ s₁.NoConstants := by
      intro hfree
      rw [hfree.constants_eq] at his
      cases his
    have o₂ := (steady_addConstant (k := 1) ..).ok h o₁.sound
    refine ⟨k + 1, (addNode_window h).1.trans (hwindow.trans hk), fun hq => ?_⟩
    obtain ⟨q₁, -⟩ := quiet_split (j := 0) hq o₁ o₂
    obtain ⟨rfl, ht⟩ := htake ⟨q₁.heeds, t₁.reports ▸ q₁.size, q₁.free, q₁.noFunc⟩
    exact absurd ((ht.trans t₁).noConstants hq.free) hfree
  | false =>
    have o₂ := (steady_addTarget (k := 1) ..).ok h o₁.sound
    refine ⟨k + 1, (addNode_window h).1.trans (hwindow.trans hk), fun hq bs hh => ?_⟩
    obtain ⟨q₁, -⟩ := quiet_split (j := 0) hq o₁ o₂
    obtain ⟨rfl, ht⟩ := htake ⟨q₁.heeds, t₁.reports ▸ q₁.size, q₁.free, q₁.noFunc⟩
    have hh' : s₁.tree.Holds ([] ++ bs) := htree ▸ hh
    obtain ⟨hu, hheld⟩ := addNode_took h t₁.sound hh' trivial rfl
    have hname' := (addNode_window h).2 ▸ hname
    refine ⟨_, ⟨_, (ht.trans t₁).trans hu, hheld, rfl, .var rfl hname' rfl⟩, ?_, ?_, trivial,
      trivial⟩
    · rw [Term.Valid]
      trivial
    · rw [Term.Spells]
      exact ⟨_, rfl, hkind, rfl⟩

theorem accepted_group (a : Accepting parse) (hs : s.Sound)
    (hkind : s.window.current.kind = .openParen) (h : group parse s = .ok id t) :
    Accepted (fun e _ => e.IsPostfix) s id t := by
  obtain ⟨token, s₁, hadv, h⟩ := bind_eq_ok h
  obtain ⟨rfl, rfl⟩ := advance_ok hadv
  obtain ⟨k₁, hk₁, htake₁⟩ := exists_drop_advanced hs
  have o₁ := onto_advanced hs 1
  obtain ⟨inner, s₂, hi, h⟩ := bind_eq_ok h
  obtain ⟨k₂, hk₂, hinner⟩ := a.expr o₁.sound hi
  have o₂ := (a.steady .value).ok hi o₁.sound
  obtain ⟨c, s₃, hc, h⟩ := bind_eq_ok h
  obtain ⟨hclose, rfl⟩ := expect_ok hc
  obtain ⟨k₃, hk₃, htake₃⟩ := exists_drop_advanced o₂.sound
  have o₃ := onto_advanced o₂.sound 1
  obtain ⟨_, _, hspan, h⟩ := bind_eq_ok h
  cases hspan
  obtain ⟨x, _, hx, h⟩ := bind_eq_ok h
  obtain rfl := expr_ok hx
  have o₄ := (steady_addConstant (k := 1) ..).ok h o₃.sound
  refine ⟨k₁ + 1 + (k₂ + (k₃ + 1)), ?_, fun hq bs hh => ?_⟩
  · rw [(addNode_window h).1, hk₃, hk₂, hk₁, Window.drop_drop, Window.drop_drop]
  obtain ⟨q₁, r₁⟩ := quiet_split hq o₁ (o₂.trans (o₃.trans o₄))
  obtain ⟨rfl, t₁⟩ := htake₁ q₁
  obtain ⟨q₂, r₂⟩ := quiet_split (r₁ t₁) o₂ (o₃.trans o₄)
  obtain ⟨e, ⟨b, t₂, hh₂, hroot, hshow⟩, hv, hsp, -, hfits, -⟩ := hinner q₂ bs hh
  obtain ⟨q₃, -⟩ := quiet_split (j := 0) (r₂ t₂) o₃ o₄
  obtain ⟨rfl, t₃⟩ := htake₃ q₃
  obtain ⟨i, y, parts, rfl, -⟩ := hshow.node
  cases hroot
  have hh' : s₂.advanced.tree.Holds ([_] ++ bs) := hh₂
  obtain ⟨hu, hheld⟩ := addNode_took h t₃.sound hh' trivial rfl
  have hshow' := (addNode_window h).2 ▸ hshow
  refine ⟨.group e, ⟨_, ?_, hheld, rfl, .group rfl rfl hshow'⟩, ?_, ?_, trivial, trivial⟩
  · exact t₁.trans (t₂.trans (t₃.trans hu))
  · rw [Term.Valid]
    exact ⟨hfits.2 rfl, hv⟩
  · rw [Term.Spells]
    refine ⟨s.window.current, s.advanced.window.take k₂, s₂.window.current, ?_, hkind, hclose, ?_⟩
    · rw [show 0 + 1 + (k₂ + (0 + 1)) = 1 + (k₂ + 1) by omega, Window.take_one_add,
        Window.take_add_one, t₂.window, t₁.window]
      rfl
    · rwa [t₁.source] at hsp

theorem accepted_lambda (a : Accepting parse) (hs : s.Sound)
    (hkind : s.window.current.kind = .kwFunc) (h : lambda parse s = .ok id t) :
    Accepted (fun e _ => e.IsPostfix) s id t := by
  obtain ⟨token, s₁, hadv, h⟩ := bind_eq_ok h
  obtain ⟨rfl, rfl⟩ := advance_ok hadv
  obtain ⟨k, hk, -⟩ := exists_drop_advanced hs
  have o₁ := onto_advanced hs 1
  have hrest : Steady 1 (do
      let type ← signature parse
      let body ← functionBody parse type
      addExpr (.lambda type body) (← spanFrom s.window.current.span)) :=
    (steady_signature a.steady).bind fun _ => (steady_functionBody a.steady _).bind fun _ =>
      (steady_spanFrom _).bind fun _ => steady_addExpr ..
  obtain ⟨n, hn⟩ := (hrest.ok h o₁.sound).window
  refine ⟨1 + (k + n), ?_, fun hq => ?_⟩
  · rw [hn, hk, Window.drop_drop]
    congr 1
    omega
  · refine absurd hkind (hq.noFunc _ ?_)
    rw [Window.take_one_add]
    exact List.mem_cons_self

theorem accepted_primary (a : Accepting parse) (hs : s.Sound) (h : primary parse s = .ok id t) :
    Accepted (fun e _ => e.IsPostfix) s id t := by
  have hall : Meets (primary parse) s (fun id t => Accepted (fun e _ => e.IsPostfix) s id t)
      fun _ _ => True := by
    have hliteral : Meets (literal s.window.current) s
        (fun id t => Accepted (fun e _ => e.IsPostfix) s id t) fun _ _ => True :=
      meets_intro (fun _ _ h => accepted_literal hs h) fun _ _ _ => trivial
    refine meets_bind_of_ok (current_eq s) ?_
    split
    any_goals exact hliteral
    · rename_i hkind
      exact meets_intro (fun _ _ h => accepted_str hs hkind h) fun _ _ _ => trivial
    · exact meets_intro (fun _ _ h => accepted_name hs h) fun _ _ _ => trivial
    · rename_i hkind
      exact meets_intro (fun _ _ h => accepted_group a hs hkind h) fun _ _ _ => trivial
    · rename_i hkind
      exact meets_intro (fun _ _ h => accepted_lambda a hs hkind h) fun _ _ _ => trivial
    · exact meets_of_error rfl trivial
  exact hall.of_ok h

/-- Behind an operator, an operand is read. -/
theorem accepted_operand (a : Accepting parse) (hs : s.Sound)
    (h : parse (.expr least isValue) s.advanced = .ok id t) :
    s.Onto 1 t ∧ ∃ k, t.window = s.window.drop k ∧ (s.Quiet k t → ∀ bs, s.tree.Holds bs →
      ∃ e ts, Yields s e k bs id t ∧ e.Valid ∧ e.Spells s.window.source ts ∧
        s.window.take k = s.window.current :: ts ∧
        Ends least isValue e t.window.current.kind) := by
  obtain ⟨k₁, hk₁, htake⟩ := exists_drop_advanced hs
  have o₁ := onto_advanced hs 1
  obtain ⟨k₂, hk₂, hoperand⟩ := a.expr o₁.sound h
  have o₂ := (a.steady (.expr least isValue)).ok h o₁.sound
  refine ⟨o₁.trans o₂, k₁ + 1 + k₂, by rw [hk₂, hk₁, Window.drop_drop], fun hq bs hh => ?_⟩
  obtain ⟨q₁, r₁⟩ := quiet_split hq o₁ o₂
  obtain ⟨rfl, t₁⟩ := htake q₁
  obtain ⟨e, ⟨b, t₂, hh₂, hroot, hshow⟩, hv, hsp, -, hends⟩ := hoperand (r₁ t₁) bs hh
  refine ⟨e, s.advanced.window.take k₂, ⟨b, t₁.trans t₂, hh₂, hroot, hshow⟩, hv,
    t₁.source ▸ hsp, ?_, hends⟩
  rw [show 0 + 1 + k₂ = 1 + k₂ by omega, Window.take_one_add, t₁.window]

theorem accepted_unary (a : Accepting parse) (hs : s.Sound) (h : unary parse s = .ok id t) :
    Accepted (fun e _ => e.level = .call) s id t := by
  obtain ⟨token, s₁, hc, h⟩ := bind_eq_ok h
  cases hc
  cases hop : UnaryOp.ofToken? s.window.current.kind with
  | none =>
    rw [hop] at h
    obtain ⟨k, hk, hall⟩ := accepted_primary a hs h
    refine ⟨k, hk, fun hq bs hh => ?_⟩
    obtain ⟨e, hy, hv, hsp, hf, hp⟩ := hall hq bs hh
    exact ⟨e, hy, hv, hsp, hf, hp.level⟩
  | some op =>
    rw [hop] at h
    obtain ⟨token, s₁, hadv, h⟩ := bind_eq_ok h
    obtain ⟨rfl, rfl⟩ := advance_ok hadv
    obtain ⟨operand, s₂, hi, h⟩ := bind_eq_ok h
    obtain ⟨o, k, hk, hoperand⟩ := accepted_operand a hs hi
    obtain ⟨x, s₃, hx, h'⟩ := bind_eq_ok h
    obtain rfl : s₂ = s₃ := (expr_ok hx).symm
    dsimp only at h'
    cases hm : op.mutates && !x.canAssign with
    | true =>
      rw [hm, if_pos rfl] at h'
      have hp : Loud 1 (do
        release operand
        errorExpr (s.window.current.span.merge x.span)) :=
        (loud_release operand).bind fun _ => (steady_errorExpr _).loud
      have htook (hq : s.Quiet k s₂) : s.Took k s₂ := by
        obtain ⟨-, -, ⟨-, ht, -⟩, -⟩ := hoperand hq [] hs.tree.holds_nil
        exact ht
      obtain ⟨n, hn, hnot⟩ := not_quiet_behind o hk htook h' hp (by decide)
      exact ⟨n, hn, fun hq => absurd hq hnot⟩
    | false =>
      rw [hm, if_neg Bool.false_ne_true] at h'
      have o' := (steady_addConstant (k := 1) ..).ok h' o.sound
      obtain ⟨hwindow, hnames⟩ := addNode_window h'
      refine ⟨k, hwindow.trans hk, fun hq bs hh => ?_⟩
      obtain ⟨q, -⟩ := quiet_split (j := 0) hq o o'
      obtain ⟨e, ts, ⟨b, ht, hh₂, hroot, hshow⟩, hv, hsp, htake, hfits, hstop⟩ := hoperand q bs hh
      obtain ⟨i, y, parts, rfl, hcan⟩ := hshow.node
      cases hroot
      rw [expr_eq hh₂] at hx
      cases hx
      have hh' : s₂.tree.Holds ([_] ++ bs) := hh₂
      obtain ⟨hu, hheld⟩ := addNode_took h' o.sound hh' trivial rfl
      have hlevel : e.level = .call := Term.eq_call_of_rank hfits.1
      refine ⟨.unary op e, ⟨_, ht.trans hu, hheld, rfl, .unary rfl rfl (hnames ▸ hshow)⟩,
        ?_, ?_, ?_, rfl⟩
      · rw [Term.Valid]
        refine ⟨hlevel, fun hmut => ?_, hv⟩
        rw [hmut, Bool.true_and, Bool.not_eq_false'] at hm
        rw [← hcan, hm]
      · rw [Term.Spells]
        exact ⟨s.window.current, ts, htake, hop, hsp⟩
      · rw [hwindow]
        rcases hstop with h | h | ⟨h, -⟩
        · simp [Term.Follows, h]
        · intro hcall
          rw [hcall] at h
          exact absurd h (Nat.lt_irrefl _)
        · simp [Term.Follows, h]

/-! ### Infix forms -/

theorem rank_le_of_follows {l : Term} {kind : TokenKind} (h : l.Follows kind)
    (hk : Level.of kind ≠ .none) : (Level.of kind).rank ≤ l.level.rank := by
  cases l with
  | assign op target value => exact absurd h hk
  | binary op x y => exact h
  | _ => exact Term.rank_le_call _

theorem isPostfix_of_follows {l : Term} {kind : TokenKind} (h : l.Follows kind)
    (hk : Level.of kind = .call) : l.IsPostfix := by
  cases l with
  | assign op target value =>
    have h : Level.of kind = .none := h
    simp [hk] at h
  | binary op x y =>
    have h : (Level.of kind).rank ≤ op.level.rank := h
    have := (Term.rank_level op).2
    rw [hk] at h
    omega
  | unary op x => exact absurd hk h
  | _ => trivial

theorem extended_binary {level : Level} (a : Accepting parse) (hs : s.Sound)
    (hlevel : Level.of s.window.current.kind = level) (h : binary parse left level s = .ok id t) :
    Extended (fun _ => True) (fun e _ => e.level = level) s left id t := by
  obtain ⟨token, s₁, hc, h⟩ := bind_eq_ok h
  cases hc
  cases hop : BinaryOp.ofToken? s.window.current.kind with
  | none =>
    rw [hop] at h
    cases h
  | some op =>
    obtain rfl : op.level = level := (Term.level_of_binary hop).symm.trans hlevel
    rw [hop] at h
    obtain ⟨token, s₁, hadv, h⟩ := bind_eq_ok h
    obtain ⟨rfl, rfl⟩ := advance_ok hadv
    obtain ⟨right, s₂, hi, h⟩ := bind_eq_ok h
    obtain ⟨o, k, hk, hright⟩ := accepted_operand a hs hi
    obtain ⟨x, s₃, hx, h₃⟩ := bind_eq_ok h
    obtain rfl : s₂ = s₃ := (expr_ok hx).symm
    obtain ⟨y, s₄, hy, h₄⟩ := bind_eq_ok h₃
    obtain rfl : s₂ = s₄ := (expr_ok hy).symm
    have o' := (steady_addConstant (k := 1) ..).ok h₄ o.sound
    obtain ⟨hwindow, hnames⟩ := addNode_window h₄
    refine ⟨k, hwindow.trans hk, fun hq bs b l pre hh hroot hshow hv hsp hfol _ => ?_⟩
    obtain ⟨q, -⟩ := quiet_split (j := 0) hq o o'
    obtain ⟨e, ts, ⟨c, ht, hh₂, hroot', hshow'⟩, hv', hsp', htake, hfits, hstop⟩ := hright q _ hh
    obtain ⟨i, x', parts, rfl, -⟩ := hshow.node
    obtain ⟨i', y', parts', rfl, -⟩ := hshow'.node
    cases hroot
    cases hroot'
    have hh' : s₂.tree.Holds ([_, _] ++ bs) := hh₂.swap
    obtain ⟨hu, hheld⟩ := addNode_took h₄ o.sound hh' trivial rfl
    have hleft : Term.Shows s₂.names _ l := hshow.mono ht.names
    refine ⟨.binary op l e, ⟨_, ht.trans hu, hheld, rfl,
      .binary rfl rfl (hnames ▸ hleft) (hnames ▸ hshow')⟩, ?_, ?_, ?_, rfl⟩
    · rw [Term.Valid]
      refine ⟨?_, ?_, hv, hv'⟩
      · rw [← hlevel]
        refine rank_le_of_follows hfol ?_
        rw [hlevel]
        exact (Term.level_ne op).1
      · have := hfits.1
        rwa [Term.rank_next] at this
    · rw [Term.Spells]
      exact ⟨pre, s.window.current, ts, congrArg (pre ++ ·) htake, hop, hsp, hsp'⟩
    · rw [hwindow]
      have hrank := (Term.rank_level op).1
      rcases hstop with h | h | ⟨h, -⟩
      · exact (congrArg Level.rank h).le.trans (Nat.zero_le _)
      · rw [Term.rank_next] at h
        exact Nat.le_of_lt_succ h
      · exact (congrArg Level.rank h).le.trans hrank.le

theorem extended_assignment (a : Accepting parse) (hs : s.Sound)
    (h : assignment parse left s = .ok id t) :
    Extended (fun _ => True) (fun e _ => e.level = .assign) s left id t := by
  obtain ⟨token, s₁, hc, h⟩ := bind_eq_ok h
  cases hc
  cases hop : AssignOp.ofToken? s.window.current.kind with
  | none =>
    rw [hop] at h
    cases h
  | some op =>
    rw [hop] at h
    obtain ⟨token, s₁, hadv, h⟩ := bind_eq_ok h
    obtain ⟨rfl, rfl⟩ := advance_ok hadv
    obtain ⟨value, s₂, hi, h⟩ := bind_eq_ok h
    obtain ⟨o, k, hk, hvalue⟩ := accepted_operand a hs hi
    obtain ⟨x, s₃, hx, h₃⟩ := bind_eq_ok h
    obtain rfl : s₂ = s₃ := (expr_ok hx).symm
    obtain ⟨y, s₄, hy, h₄⟩ := bind_eq_ok h₃
    obtain rfl : s₂ = s₄ := (expr_ok hy).symm
    dsimp only at h₄
    cases hcan : x.canAssign with
    | false =>
      rw [hcan, if_neg Bool.false_ne_true] at h₄
      have hp : Loud 1 (do
        release left
        release value
        errorExpr (x.span.merge y.span)) :=
        (loud_release left).bind fun _ => (loud_release value).bind fun _ =>
          (steady_errorExpr _).loud
      have htook (hq : s.Quiet k s₂) : s.Took k s₂ := by
        obtain ⟨-, -, ⟨-, ht, -⟩, -⟩ := hvalue hq [] hs.tree.holds_nil
        exact ht
      obtain ⟨n, hn, hnot⟩ := not_quiet_behind o hk htook h₄ hp (by decide)
      exact ⟨n, hn, fun hq => absurd hq hnot⟩
    | true =>
      rw [hcan, if_pos rfl] at h₄
      have o' := (steady_addExpr (k := 1) ..).ok h₄ o.sound
      obtain ⟨hwindow, hnames⟩ := addNode_window h₄
      refine ⟨k, hwindow.trans hk, fun hq bs b l pre hh hroot hshow hv hsp hfol _ => ?_⟩
      obtain ⟨q, -⟩ := quiet_split (j := 0) hq o o'
      obtain ⟨e, ts, ⟨c, ht, hh₂, hroot', hshow'⟩, hv', hsp', htake, hfits, hstop⟩ := hvalue q _ hh
      obtain ⟨i, x', parts, rfl, hcan'⟩ := hshow.node
      obtain ⟨i', y', parts', rfl, -⟩ := hshow'.node
      cases hroot
      cases hroot'
      rw [expr_eq hh₂.swap] at hx
      cases hx
      have hh' : s₂.tree.Holds ([_, _] ++ bs) := hh₂.swap
      obtain ⟨hu, hheld⟩ := addNode_took h₄ o.sound hh' trivial rfl
      have hleft : Term.Shows s₂.names _ l := hshow.mono ht.names
      refine ⟨.assign op l e, ⟨_, ht.trans hu, hheld, rfl,
        .assign rfl rfl (hnames ▸ hleft) (hnames ▸ hshow')⟩, ?_, ?_, ?_, rfl⟩
      · rw [Term.Valid]
        exact ⟨hcan'.symm.trans hcan, hv, hv'⟩
      · rw [Term.Spells]
        exact ⟨pre, s.window.current, ts, congrArg (pre ++ ·) htake, hop, hsp, hsp'⟩
      · rw [hwindow]
        rcases hstop with h | h | ⟨-, h⟩
        · exact h
        · exact Term.eq_none_of_rank h
        · cases h

theorem extended_member {object : Expr} (hs : s.Sound)
    (hkind : s.window.current.kind = .dot) (hobject : expr left s = .ok object s)
    (h : member left object s.advanced = .ok id t) :
    Extended (fun l => l.IsPostfix) (fun e _ => e.level = .call) s left id t := by
  obtain ⟨k₁, hk₁, htake₁⟩ := exists_drop_advanced hs
  have o₁ := onto_advanced hs 1
  obtain ⟨⟨field, span⟩, s₂, hn, h⟩ := bind_eq_ok h
  obtain ⟨hident, hwindow₂, htree, t₂, hname⟩ := expectName_ok hn o₁.sound
  obtain ⟨k₂, hk₂, htake₂⟩ := exists_drop_advanced o₁.sound
  have o₂ := (steady_expectName (k := 1)).ok hn o₁.sound
  have o₃ := (steady_addTarget (k := 1) ..).ok h o₂.sound
  obtain ⟨hwindow, hnames⟩ := addNode_window h
  refine ⟨k₁ + 1 + (k₂ + 1 + 0), ?_, fun hq bs b l pre hh hroot hshow hv hsp hfol hp => ?_⟩
  · rw [hwindow, hwindow₂, hk₂, hk₁, Window.drop_drop, Nat.add_zero]
  obtain ⟨q₁, r₁⟩ := quiet_split hq o₁ (o₂.trans o₃)
  obtain ⟨rfl, t₁⟩ := htake₁ q₁
  obtain ⟨q₂, -⟩ := quiet_split (r₁ t₁) o₂ o₃
  obtain ⟨rfl, t₂'⟩ := htake₂ ⟨q₂.heeds, t₂.reports ▸ q₂.size, q₂.free, q₂.noFunc⟩
  obtain ⟨i, x, parts, rfl, hcan⟩ := hshow.node
  cases hroot
  rw [expr_eq hh] at hobject
  cases hobject
  have hh' : s₂.tree.Holds ([_] ++ bs) := htree ▸ hh
  obtain ⟨hu, hheld⟩ := addNode_took h o₂.sound hh' trivial rfl
  have hleft : Term.Shows s₂.names _ l := hshow.mono (t₁.trans (t₂'.trans t₂)).names
  refine ⟨.member l (s.advanced.window.current.lexeme s.advanced.window.source),
    ⟨_, t₁.trans ((t₂'.trans t₂).trans hu), hheld, rfl,
      .member rfl (hnames ▸ hname) hcan (hnames ▸ hleft)⟩, ?_, ?_, trivial, rfl⟩
  · rw [Term.Valid]
    exact ⟨hp, hv⟩
  · rw [Term.Spells]
    refine ⟨pre, s.window.current, s.advanced.window.current, ?_, hkind, hident, ?_, hsp⟩
    · rw [t₁.window]
      rfl
    · rw [t₁.source]

theorem makeCall_window {callee : Name} {ids : List ExprId} {span : Span}
    (h : makeCall left callee ids span s = .ok id t) : t.window = s.window := by
  obtain ⟨_, _, hget, h⟩ := bind_eq_ok h
  cases hget
  obtain ⟨tree, s₁, hset, h⟩ := bind_eq_ok h
  obtain ⟨-, rfl⟩ := ofFault_ok hset
  cases h
  rfl

/-- Only a name can be called. -/
theorem endCall_ok {object : Expr} {ids : List ExprId} (hs : s.Sound)
    (h : endCall left object ids s = .ok id t) :
    ∃ k, t.window = s.window.drop k ∧ (s.Quiet k t → k = 1 ∧
      s.window.current.kind = .closeParen ∧ ∃ callee, object.kind = .var callee ∧
        ∀ old parts bs, s.tree.Holds (parts ++ ⟨.expr left, .expr old, []⟩ :: bs) →
          parts.map Branch.root = ids.map .expr → id = left ∧ s.Took 1 t ∧ ∃ e range,
            e.kind = .call callee range none ∧ e.canAssign = false ∧
              t.tree.Holds (⟨.expr left, .expr e, parts⟩ :: bs)) := by
  obtain ⟨token, s₁, hc, h₁⟩ := bind_eq_ok h
  obtain ⟨hclose, rfl⟩ := expect_ok hc
  obtain ⟨k₁, hk₁, htake₁⟩ := exists_drop_advanced hs
  have o₁ := onto_advanced hs 1
  obtain ⟨span, s₂, hspan, h₂⟩ := bind_eq_ok h₁
  cases hspan
  by_cases hvar : ∃ callee, object.kind = .var callee
  · obtain ⟨callee, hvar⟩ := hvar
    rw [callEnd_of_var hvar] at h₂
    have o₂ := (steady_makeCall (k := 1) ..).ok h₂ o₁.sound
    refine ⟨k₁ + 1, (makeCall_window h₂).trans hk₁, fun hq => ?_⟩
    obtain ⟨q₁, -⟩ := quiet_split (j := 0) hq o₁ o₂
    obtain ⟨rfl, t₁⟩ := htake₁ q₁
    refine ⟨rfl, hclose, callee, hvar, fun old parts bs hh hroots => ?_⟩
    have hmeets := meets_makeCall (s := s.advanced)
      (Q := fun id t => id = left ∧ s.advanced.Took 0 t ∧ ∃ range, t.tree.Holds (⟨.expr left,
        .expr (Expr.new (.call callee range none) (object.span.merge s.advanced.window.previous)),
        parts⟩ :: bs))
      t₁.sound hh hroots fun range t ht _ hh => ⟨rfl, ht, range, hh⟩
    obtain ⟨hid, t₂, range, hheld⟩ := hmeets.of_ok h₂
    exact ⟨hid, t₁.trans t₂, _, range, rfl, rfl, hheld⟩
  · rw [callEnd_of_other fun callee hk => hvar ⟨callee, hk⟩] at h₂
    have hp : Loud 1 (do
        (left :: ids).forM release
        errorExpr (object.span.merge s.advanced.window.previous)) :=
      Keeps.bind (keeps_forM (left :: ids) fun id => loud_release id) fun _ =>
        (steady_errorExpr _).loud
    obtain ⟨n, hn, hnot⟩ := not_quiet_behind o₁ hk₁
      (fun hq => by
        obtain ⟨rfl, t₁⟩ := htake₁ hq
        exact t₁) h₂ hp (by decide)
    exact ⟨n, hn, fun hq => absurd hq hnot⟩

/-- Arguments that were read, in front of the closing parenthesis, make a call. -/
theorem extended_endCall {object : Expr} {ids : List ExprId} (hs : s.Sound)
    (hopen : s.window.current.kind = .openParen) (hobject : expr left s = .ok object s)
    (o₂ : s.advanced.Onto 1 u) (hk : u.window = s.advanced.window.drop k)
    (hargs : s.advanced.Quiet k u → ∀ bs, s.advanced.tree.Holds bs → ∃ args,
      YieldsArgs s.advanced args k bs ids u ∧ Term.ValidArgs args ∧
        Term.SpellsArgs s.window.source args (s.advanced.window.take k))
    (h : endCall left object ids u = .ok id t) (o₃ : u.Onto 1 t) :
    Extended (fun l => l.IsPostfix) (fun e _ => e.level = .call) s left id t := by
  obtain ⟨k₁, hk₁, htake₁⟩ := exists_drop_advanced hs
  have o₁ := onto_advanced hs 1
  obtain ⟨k₃, hk₃, hend⟩ := endCall_ok o₂.sound h
  refine ⟨k₁ + 1 + (k + k₃), ?_, fun hq bs b l pre hh hroot hshow hv hsp hfol hp => ?_⟩
  · rw [hk₃, hk, hk₁, Window.drop_drop, Window.drop_drop]
  obtain ⟨q₁, r₁⟩ := quiet_split hq o₁ (o₂.trans o₃)
  obtain ⟨rfl, t₁⟩ := htake₁ q₁
  obtain ⟨q₂, r₂⟩ := quiet_split (r₁ t₁) o₂ o₃
  have hh₁ : s.advanced.tree.Holds (b :: bs) := hh
  obtain ⟨args, ⟨parts, t₂, hh₂, hroots, hcount, hshows⟩, hva, hspa⟩ := hargs q₂ _ hh₁
  obtain ⟨rfl, hclose, callee, hvar, hcall⟩ := hend (r₂ t₂)
  -- The node of the object is that of a name.
  obtain ⟨i, x, parts', rfl, -⟩ := hshow.node
  cases hroot
  rw [expr_eq hh] at hobject
  cases hobject
  obtain ⟨name, rfl, hname, rfl⟩ :
      ∃ name, l = .var name ∧ s.names.Has callee name ∧ parts' = [] := by
    cases hshow with
    | var hk hn _ =>
      rw [hk] at hvar
      cases hvar
      exact ⟨_, rfl, hn, rfl⟩
    | literal hk | str hk | group hk | unary hk | binary hk | assign hk | call hk | member hk =>
      rw [hk] at hvar
      cases hvar
  obtain ⟨rfl, t₃, e, range, hkind, hcan, hheld⟩ := hcall _ parts bs hh₂ hroots
  rw [Term.Spells] at hsp
  obtain ⟨token, rfl, hident, hlexeme⟩ := hsp
  refine ⟨.call name args, ⟨_, t₁.trans (t₂.trans t₃), hheld, rfl, ?_⟩, ?_, ?_, trivial, rfl⟩
  · refine .call hkind ((t₁.trans (t₂.trans t₃)).names _ _ hname) hcan hcount fun p hm => ?_
    exact (hshows p hm).mono t₃.names
  · rwa [Term.Valid]
  · rw [Term.Spells]
    refine ⟨token, s.window.current, s.advanced.window.take k, u.window.current, ?_, hident,
      hlexeme, hopen, hclose, hspa⟩
    rw [show 0 + 1 + (k + 1) = 1 + (k + 1) by omega, Window.take_one_add, Window.take_add_one,
      t₂.window, t₁.window]
    rfl

theorem extended_call (a : Accepting parse) {object : Expr} (hs : s.Sound)
    (hobject : expr left s = .ok object s) (h : call parse left object s = .ok id t) :
    Extended (fun l => l.IsPostfix) (fun e _ => e.level = .call) s left id t := by
  obtain ⟨token, s₁, ho, h₁⟩ := bind_eq_ok h
  obtain ⟨hopen, rfl⟩ := expect_ok ho
  have o₁ := onto_advanced hs 1
  obtain ⟨isEmpty, s₂, hn, h₂⟩ := bind_eq_ok h₁
  by_cases hclose : s.advanced.window.current.kind = .closeParen
  · rw [currentIs_eq hclose] at hn
    cases hn
    rw [if_pos rfl] at h₂
    obtain ⟨ids, s₃, hp, h₃⟩ := bind_eq_ok h₂
    cases hp
    refine extended_endCall (k := 0) hs hopen hobject (o₁.sound.refl 1) rfl (fun _ bs hh => ?_) h₃
      ((steady_endCall ..).ok h₃ o₁.sound)
    refine ⟨[], ⟨[], o₁.sound.took, hh, rfl, rfl, by simp⟩, ?_, ?_⟩
    · rw [Term.ValidArgs]
      trivial
    · rw [Term.SpellsArgs]
      rfl
  · rw [currentIs_ne hclose] at hn
    cases hn
    rw [if_neg Bool.false_ne_true] at h₂
    obtain ⟨ids, s₃, ha, h₃⟩ := bind_eq_ok h₂
    obtain ⟨k, hk, hargs⟩ := a.args o₁.sound ha
    have o₂ := (a.steady .args).ok ha o₁.sound
    refine extended_endCall hs hopen hobject o₂ hk (fun hq bs hh => ?_) h₃
      ((steady_endCall ..).ok h₃ o₂.sound)
    obtain ⟨args, hy, -, hv, hsp⟩ := hargs hq bs hh
    have hsource : s.advanced.window.source = s.window.source := by
      obtain ⟨n, hn⟩ := o₁.window
      rw [hn, Window.source_drop]
    exact ⟨args, hy, hv, hsource ▸ hsp⟩

theorem extended_postfixForm (a : Accepting parse) (hs : s.Sound)
    (hlevel : Level.of s.window.current.kind = .call) (h : postfixForm parse left s = .ok id t) :
    Extended (fun l => l.IsPostfix) (fun e _ => e.level = .call) s left id t := by
  obtain ⟨object, s₁, hx, h₁⟩ := bind_eq_ok h
  obtain rfl : s = s₁ := (expr_ok hx).symm
  obtain ⟨dot, s₂, hd, h₂⟩ := bind_eq_ok h₁
  rcases eat_ok hd with ⟨rfl, hkind, rfl⟩ | ⟨rfl, hkind, rfl⟩
  · exact extended_member hs hkind hx h₂
  · exact extended_call a hs hx h₂

/-- One infix form, if reading does not end. -/
theorem exists_form (a : Accepting parse) (hs : s.Sound)
    (hgoes : ¬ (Level.of s.window.current.kind).Stops least isValue) :
    ∃ form : Parse ExprId, Steady 1 form ∧ infixes parse left least isValue s =
      (form >>= fun whole => parse (.infixes whole least isValue)) s ∧
      ∀ {id t}, form s = .ok id t → Extended (fun _ => True)
        (fun e _ => e.level = Level.of s.window.current.kind) s left id t := by
  by_cases hassign : Level.of s.window.current.kind = .assign
  · refine ⟨_, steady_assignment a.steady left, infixes_assign hassign hgoes, fun h => ?_⟩
    rw [hassign]
    exact extended_assignment a hs h
  · by_cases hcall : Level.of s.window.current.kind = .call
    · refine ⟨_, steady_postfixForm a.steady left, infixes_call hcall hgoes, fun h => ?_⟩
      refine (extended_postfixForm a hs hcall h).imp (fun l hf _ => ?_) fun e he =>
        he.trans hcall.symm
      exact isPostfix_of_follows hf hcall
    · have hnone : Level.of s.window.current.kind ≠ .none := fun h => hgoes (.inl h)
      obtain ⟨op, hop⟩ := Term.binary_of_level hnone hassign hcall
      have hlevel := Term.level_of_binary hop
      refine ⟨_, steady_binary a.steady left _, infixes_binary hlevel hgoes, fun h => ?_⟩
      rw [hlevel]
      exact extended_binary a hs hlevel h

theorem extended_infixes (a : Accepting parse) (hs : s.Sound)
    (h : infixes parse left least isValue s = .ok id t) :
    Extended (fun l => l.Fits least isValue) (Ends least isValue) s left id t := by
  by_cases hstop : (Level.of s.window.current.kind).Stops least isValue
  · rw [infixes_stop hstop] at h
    cases h
    refine ⟨0, rfl, fun _ bs b l pre hh hroot hshow hv hsp hfol hfit => ?_⟩
    refine ⟨l, ⟨b, hs.took, hh, hroot, hshow⟩, hv, ?_, hfol, hfit, hstop⟩
    rwa [Window.take, List.append_nil]
  · obtain ⟨form, hsteady, hrun, hform⟩ := exists_form a hs hstop
    rw [hrun] at h
    obtain ⟨whole, u, hw, h'⟩ := bind_eq_ok h
    have o₁ := hsteady.ok hw hs
    have o₂ := (a.steady (.infixes whole least isValue)).ok h' o₁.sound
    obtain ⟨k₁, hk₁, hfirst⟩ := hform hw
    obtain ⟨k₂, hk₂, hrest⟩ := a.infixes o₁.sound h'
    refine ⟨k₁ + k₂, ?_, fun hq bs b l pre hh hroot hshow hv hsp hfol hfit => ?_⟩
    · rw [hk₂, hk₁, Window.drop_drop]
    obtain ⟨q₁, r₁⟩ := quiet_split hq o₁ o₂
    obtain ⟨e, ⟨c, t₁, hh₁, hroot₁, hshow₁⟩, hv₁, hsp₁, hfol₁, hlevel⟩ :=
      hfirst q₁ bs b l pre hh hroot hshow hv hsp hfol trivial
    have hfit₁ : e.Fits least isValue := by
      unfold Term.Fits
      rw [hlevel]
      unfold Level.Stops at hstop
      simp only [not_or, not_and] at hstop
      exact ⟨Nat.not_lt.1 hstop.2.1, fun hvalue hassign => hstop.2.2 hassign hvalue⟩
    obtain ⟨e', ⟨c', t₂, hh₂, hroot₂, hshow₂⟩, hv₂, hsp₂, hend⟩ := hrest (r₁ t₁) bs c e
      (pre ++ s.window.take k₁) hh₁ hroot₁ hshow₁ hv₁ (t₁.source.symm ▸ hsp₁) hfol₁ hfit₁
    refine ⟨e', ⟨c', t₁.trans t₂, hh₂, hroot₂, hshow₂⟩, hv₂, ?_, hend⟩
    rwa [t₁.source, t₁.window, List.append_assoc, ← Window.take_add] at hsp₂

/-! ### All productions -/

theorem accepted_expression (a : Accepting parse) (hs : s.Sound)
    (h : expression parse least isValue s = .ok id t) : Accepted (Ends least isValue) s id t := by
  obtain ⟨left, u, hu, h'⟩ := bind_eq_ok h
  have o₁ := (steady_unary a.steady).ok hu hs
  have o₂ := (a.steady (.infixes left least isValue)).ok h' o₁.sound
  obtain ⟨k₁, hk₁, hfirst⟩ := accepted_unary a hs hu
  obtain ⟨k₂, hk₂, hrest⟩ := a.infixes o₁.sound h'
  refine ⟨k₁ + k₂, by rw [hk₂, hk₁, Window.drop_drop], fun hq bs hh => ?_⟩
  obtain ⟨q₁, r₁⟩ := quiet_split hq o₁ o₂
  obtain ⟨e, ⟨b, t₁, hh₁, hroot₁, hshow₁⟩, hv₁, hsp₁, hfol₁, hlevel⟩ := hfirst q₁ bs hh
  have hfit₁ : e.Fits least isValue := ⟨hlevel ▸ Term.rank_le_call least, by simp [hlevel]⟩
  obtain ⟨e', ⟨c, t₂, hh₂, hroot₂, hshow₂⟩, hv₂, hsp₂, hend⟩ := hrest (r₁ t₁) bs b e
    (s.window.take k₁) hh₁ hroot₁ hshow₁ hv₁ (t₁.source.symm ▸ hsp₁) hfol₁ hfit₁
  refine ⟨e', ⟨c, t₁.trans t₂, hh₂, hroot₂, hshow₂⟩, hv₂, ?_, hend⟩
  rwa [t₁.source, t₁.window, ← Window.take_add] at hsp₂

theorem accepted_args {ids : List ExprId} (a : Accepting parse) (hs : s.Sound)
    (h : args parse s = .ok ids t) : AcceptedArgs s ids t := by
  obtain ⟨arg, s₁, ha, h₁⟩ := bind_eq_ok h
  obtain ⟨k₁, hk₁, hfirst⟩ := a.expr hs ha
  have o₁ := (a.steady .value).ok ha hs
  obtain ⟨more, s₂, hm, h₂⟩ := bind_eq_ok h₁
  rcases eat_ok hm with ⟨rfl, hkind, rfl⟩ | ⟨rfl, hkind, rfl⟩
  · obtain ⟨k₂, hk₂, htake₂⟩ := exists_drop_advanced o₁.sound
    have o₂ := onto_advanced o₁.sound 1
    obtain ⟨rest, s₃, hr, h₃⟩ := bind_eq_ok h₂
    cases h₃
    obtain ⟨k₃, hk₃, hrest⟩ := a.args o₂.sound hr
    have o₃ := (a.steady .args).ok hr o₂.sound
    refine ⟨k₁ + (k₂ + 1 + k₃), ?_, fun hq bs hh => ?_⟩
    · rw [hk₃, hk₂, hk₁, Window.drop_drop, Window.drop_drop, Nat.add_assoc]
    obtain ⟨q₁, r₁⟩ := quiet_split hq o₁ (o₂.trans o₃)
    obtain ⟨e, ⟨b, t₁, hh₁, hroot, hshow⟩, hv, hsp, -, hfits, -⟩ := hfirst q₁ bs hh
    obtain ⟨q₂, r₂⟩ := quiet_split (r₁ t₁) o₂ o₃
    obtain ⟨rfl, t₂⟩ := htake₂ q₂
    have hh₂ : s₁.advanced.tree.Holds (b :: bs) := hh₁
    obtain ⟨args, ⟨parts, t₃, hh₃, hroots, hcount, hshows⟩, hne, hva, hspa⟩ := hrest (r₂ t₂) _ hh₂
    have hnames := (t₂.trans t₃).names
    refine ⟨e :: args, ⟨b :: parts, t₁.trans (t₂.trans t₃), hh₃.perm List.perm_middle,
      by simp [hroot, hroots], by simp [hcount], ?_⟩, by simp, ?_, ?_⟩
    · simp only [List.zip_cons_cons, List.mem_cons, forall_eq_or_imp]
      exact ⟨hshow.mono hnames, hshows⟩
    · rw [Term.ValidArgs]
      exact ⟨hfits.2 rfl, hv, hva⟩
    · rw [Term.SpellsArgs]
      · refine ⟨s.window.take k₁, s₁.window.current, s₁.advanced.window.take k₃, ?_, hkind, hsp, ?_⟩
        · rw [Window.take_add, show 0 + 1 + k₃ = 1 + k₃ by omega, Window.take_one_add, t₂.window,
            t₁.window]
        · rwa [t₂.source, t₁.source] at hspa
      · intro he
        exact hne he
  · rw [if_neg Bool.false_ne_true] at h₂
    cases h₂
    refine ⟨k₁, hk₁, fun hq bs hh => ?_⟩
    obtain ⟨e, ⟨b, t₁, hh₁, hroot, hshow⟩, hv, hsp, -, hfits, -⟩ := hfirst hq bs hh
    refine ⟨[e], ⟨[b], t₁, hh₁, by simp [hroot], rfl, by simpa using hshow⟩, by simp, ?_, ?_⟩
    · simp only [Term.ValidArgs, and_true]
      exact ⟨hfits.2 rfl, hv⟩
    · rwa [Term.SpellsArgs]

theorem accepting_step (a : Accepting parse) : Accepting (step parse) where
  steady := steady_step a.steady
  expr hs h := accepted_expression a hs h
  infixes hs h := extended_infixes a hs h
  args hs h := accepted_args a hs h

theorem accepting_within (depth : Nat) : Accepting (within depth) := by
  induction depth with
  | zero =>
    refine ⟨steady_within 0, fun _ h => ?_, fun _ h => ?_, fun _ h => ?_⟩
    all_goals cases h
  | succ depth ih => exact accepting_step ih

end Parse

end FrontEnd
