import FrontEnd.Proofs.Grammar.Ends
import FrontEnd.Proofs.Grammar.SteadyParts
import FrontEnd.Proofs.Grammar.Term

/-! Reading of terms in precedence order: what stands in front, and the steps that take it. -/

namespace FrontEnd

namespace ParseState

variable {s t u : ParseState} {m n : Nat}

/-- No variable in sight is a folded constant. -/
def NoConstants (s : ParseState) : Prop :=
  ∀ name type depth, VarTable.resolve s.symbols.vars name s.scope.depth = some (type, depth) →
    s.folder.bindingAt ⟨name, depth⟩ = none

/-- Whether the innermost declaration of a name is a folded constant. -/
def constants (s : ParseState) (name : Name) : Bool :=
  match VarTable.resolve s.symbols.vars name s.scope.depth with
  | some (_, depth) => (s.folder.bindingAt ⟨name, depth⟩).isSome
  | none => false

theorem constants_of_resolve {name : Name} {type : TypeId} {depth : Nat}
    (h : VarTable.resolve s.symbols.vars name s.scope.depth = some (type, depth)) :
    s.constants name = (s.folder.bindingAt ⟨name, depth⟩).isSome := by
  unfold constants
  rw [h]

theorem constants_eq_true {name : Name} (h : s.constants name = true) : ∃ type depth v,
    VarTable.resolve s.symbols.vars name s.scope.depth = some (type, depth) ∧
      s.folder.bindingAt ⟨name, depth⟩ = some v := by
  unfold constants at h
  split at h
  next type depth hr =>
    obtain ⟨v, hv⟩ := Option.isSome_iff_exists.1 h
    exact ⟨type, depth, v, hr, hv⟩
  next => cases h

theorem NoConstants.constants_eq (h : s.NoConstants) (name : Name) : s.constants name = false := by
  refine Bool.eq_false_iff.2 fun hname => ?_
  obtain ⟨type, depth, v, hr, hv⟩ := constants_eq_true hname
  cases (h name type depth hr).symm.trans hv

/-- `t` comes after `s` by taking so many tokens, without a report or a declaration. -/
structure Took (s : ParseState) (n : Nat) (t : ParseState) : Prop where
  sound : t.Sound
  window : t.window = s.window.drop n
  reports : t.reports = s.reports
  names : s.names.Grows t.names
  symbols : t.symbols = s.symbols
  scope : t.scope = s.scope
  folder : t.folder = s.folder

theorem Sound.took (h : s.Sound) : s.Took 0 s := ⟨h, rfl, rfl, .refl _, rfl, rfl, rfl⟩

theorem Took.trans (h : s.Took m t) (h' : t.Took n u) : s.Took (m + n) u where
  sound := h'.sound
  window := by rw [h'.window, h.window, Window.drop_drop]
  reports := h'.reports.trans h.reports
  names := h.names.trans h'.names
  symbols := h'.symbols.trans h.symbols
  scope := h'.scope.trans h.scope
  folder := h'.folder.trans h.folder

/-- The state after the current token, if the next one is no error. -/
theorem took_advanced (h : s.Sound) (hk : s.window.bump.current.kind ≠ .error) :
    s.Took 1 s.advanced := by
  have hskip := Window.skipErrors_of_ne hk
  exact ⟨(Parse.onto_advanced h 0).sound, by simp [advanced, hskip, Window.drop_succ],
    by simp [advanced, hskip], .refl _, rfl, rfl, rfl⟩

/-- Taking one more token, if the one behind it is no error. -/
theorem Took.advanced (h : s.Took n t) (hk : (s.window.drop (n + 1)).current.kind ≠ .error) :
    s.Took (n + 1) t.advanced :=
  h.trans (took_advanced h.sound (by rwa [h.window, Window.bump_drop]))

theorem Took.source (h : s.Took n t) : t.window.source = s.window.source := by
  rw [h.window, Window.source_drop]

theorem Took.noConstants (h : s.Took n t) (hs : s.NoConstants) : t.NoConstants := by
  unfold NoConstants
  rw [h.symbols, h.scope, h.folder]
  exact hs

theorem Took.tree {tree : Tree} (h : s.Took n t) (ht : tree.Sound) : s.Took n { t with tree } :=
  { h with sound := { h.sound with tree := ht } }

end ParseState

namespace Parse

variable {α : Type} {s t : ParseState} {e : Term} {bs xs : List Branch}

/-- A storage ran out. -/
def Exhausted (stop : Stop) (_ : ParseState) : Prop := ∃ cause, stop = .exhausted cause

/-- The handle of a node that shows a term, after so many tokens. -/
def Yields (s : ParseState) (e : Term) (size : Nat) (bs : List Branch) (id : ExprId)
    (t : ParseState) : Prop :=
  ∃ b, s.Took size t ∧ t.tree.Holds (b :: bs) ∧ b.root = .expr id ∧ e.Shows t.names b

theorem current_eq (s : ParseState) : current s = .ok s.window.current s := rfl

theorem currentIs_run (k : TokenKind) (s : ParseState) :
    currentIs k s = .ok (s.window.currentIs k) s := rfl

theorem currentIs_eq {k : TokenKind} (h : s.window.current.kind = k) :
    currentIs k s = .ok true s := by
  rw [currentIs_run, Window.currentIs, h, beq_self_eq_true]

theorem currentIs_ne {k : TokenKind} (h : s.window.current.kind ≠ k) :
    currentIs k s = .ok false s := by
  rw [currentIs_run, Window.currentIs, beq_eq_false_iff_ne.2 h]

theorem expect_eq {k : TokenKind} (h : s.window.current.kind = k) :
    expect k s = .ok s.window.current s.advanced := by
  unfold expect
  rw [bind_of_ok (currentIs_eq h), if_pos rfl, advance_eq]

theorem eat_eq {k : TokenKind} (h : s.window.current.kind = k) : eat k s = .ok true s.advanced := by
  unfold eat
  rw [bind_of_ok (currentIs_eq h), if_pos rfl, bind_of_ok (advance_eq s)]
  rfl

theorem eat_ne {k : TokenKind} (h : s.window.current.kind ≠ k) : eat k s = .ok false s := by
  unfold eat
  rw [bind_of_ok (currentIs_ne h), if_neg Bool.false_ne_true]
  rfl

theorem spanFrom_eq (start : Span) (s : ParseState) :
    spanFrom start s = .ok (start.merge s.window.previous) s := rfl

theorem addNode_eq {id : ExprId} {x : Expr} {tree : Tree}
    (h : s.tree.addExpr x = .ok (id, tree)) : addNode x s = .ok id { s with tree } := by
  unfold addNode
  rw [bind_of_ok (get_eq s), h]
  rfl

theorem isConstantName_run (name : Name) (s : ParseState) :
    isConstantName name s = .ok (s.constants name) s := by
  unfold isConstantName ParseState.constants
  rw [bind_of_ok (get_eq s)]
  cases VarTable.resolve s.symbols.vars name s.scope.depth <;> rfl

theorem expr_eq {id : ExprId} {x : Expr} (h : s.tree.Holds (⟨.expr id, .expr x, xs⟩ :: bs)) :
    expr id s = .ok x s := by
  unfold expr
  rw [bind_of_ok (get_eq s), h.expr]
  rfl

theorem makeCall_eq {left : ExprId} {callee : Name} {args : List ExprId} {span : Span} {tree : Tree}
    (h : (s.tree.addExprList args).2.setExpr left
      (Expr.new (.call callee (s.tree.addExprList args).1 none) span) = .ok tree) :
    makeCall left callee args span s = .ok left { s with tree } := by
  have hset : ofFault ((s.tree.addExprList args).2.setExpr left
      (Expr.new (.call callee (s.tree.addExprList args).1 none) span)) s = .ok tree s := by
    rw [h]
    rfl
  unfold makeCall
  rw [bind_of_ok (get_eq s)]
  exact bind_of_ok hset

theorem meets_intern {text : String} (h : s.Sound) :
    Meets (intern text) s (fun n t => s.Took 0 t ∧ t.tree = s.tree ∧ t.names.Has n text)
      Exhausted := by
  refine meets_bind_of_ok (get_eq s) ?_
  refine Meets.bind (R := fun r t => t = s ∧ s.names.intern text = .ok r)
    (meets_ofStorage (fun _ hr => ⟨rfl, hr⟩) fun e _ => ⟨e, rfl⟩) ?_
  rintro ⟨n, names⟩ t ⟨rfl, hi⟩
  obtain ⟨hn, hhas, hg⟩ := h.names.intern hi
  refine Meets.bind (R := fun _ u => u = { t with names }) (meets_set rfl) ?_
  rintro _ _ rfl
  exact meets_pure ⟨⟨{ h with names := hn }, rfl, rfl, hg, rfl, rfl, rfl⟩, rfl, hhas⟩

theorem meets_expectName (h : s.Sound) (hk : s.window.current.kind = .ident)
    (hnext : s.window.bump.current.kind ≠ .error) :
    Meets expectName s (fun r t => s.Took 1 t ∧ t.tree = s.tree ∧
      t.names.Has r.1 (s.window.current.lexeme s.window.source)) Exhausted := by
  have hadv := ParseState.took_advanced h hnext
  have hsource : s.advanced.window.source = s.window.source := by
    rw [hadv.window, Window.source_drop]
  refine meets_bind_of_ok (currentIs_eq hk) ?_
  refine meets_bind_of_ok (advance_eq s) ?_
  refine meets_bind_of_ok (get_eq s.advanced) ?_
  refine Meets.bind (meets_intern hadv.sound) ?_
  rintro n t ⟨ht, htree, hn⟩
  refine meets_pure ⟨by simpa using hadv.trans ht, htree, ?_⟩
  rwa [Window.lexeme, hsource] at hn

/-- A new node over the branches that were read last. -/
theorem meets_addNode {x : Expr} {Q : ExprId → ParseState → Prop} (h : s.Sound)
    (hh : s.tree.Holds (xs ++ bs)) (hc : s.tree.Covers (.expr x))
    (hch : s.tree.children (.expr x) = xs.map Branch.root)
    (next : ∀ id t, s.Took 0 t → t.names = s.names →
      t.tree.Holds (⟨.expr id, .expr x, xs⟩ :: bs) → Q id t) :
    Meets (addNode x) s Q Exhausted := by
  refine meets_bind_of_ok (get_eq s) ?_
  refine Meets.bind (R := fun r t => t = s ∧ s.tree.addExpr x = .ok r)
    (meets_ofStorage (fun _ hr => ⟨rfl, hr⟩) fun e _ => ⟨e, rfl⟩) ?_
  rintro ⟨id, tree⟩ _ ⟨rfl, ha⟩
  have hu := hh.addExpr ha hc hch
  exact meets_bind_of_ok rfl (next _ _ (h.took.tree hu.sound) rfl hu)

end Parse

end FrontEnd
