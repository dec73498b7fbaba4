import FrontEnd.Proofs.Grammar.Onto
import FrontEnd.Proofs.Typing.TypingFaults

/-! The small steps of reading are steady. -/

namespace FrontEnd

namespace ParseState

variable {s t : ParseState} {k : Nat}

theorem Sound.onto_reports {reports : Queue} (h : s.Sound) (hq : reports.Sound)
    (ha : s.reports.Accounts [] reports) (hp : s.KeepsPlaces reports) (k : Nat) :
    s.Onto k { s with reports } :=
  { h.refl k with
    sound := { h with reports := hq }
    tokens := ⟨0, rfl, ha⟩
    placed := hp
    stmts := fun _ => .refl _ }

theorem Sound.onto_beginStatement (h : s.Sound) (k : Nat) :
    s.Onto k { s with reports := s.reports.beginStatement } :=
  h.onto_reports h.reports.beginStatement s.reports.accounts_beginStatement (fun _ hq => hq) k

theorem Sound.onto_names {names : Interner} (h : s.Sound) (hn : names.Sound)
    (hg : s.names.Grows names) (k : Nat) : s.Onto k { s with names } :=
  { h.refl k with
    sound := { h with names := hn }
    names := hg }

theorem Sound.onto_types {types : TypeTable} (h : s.Sound) (ht : types.Sound)
    (hg : s.types.Grows types) (k : Nat) : s.Onto k { s with types } :=
  { h.refl k with
    sound := { h with types := ht }
    types := hg }

theorem Sound.withTree {tree : Tree} (h : s.Sound) (ht : tree.Sound) :
    Sound { s with tree } := { h with tree := ht }

theorem Sound.onto_tree {tree : Tree} (h : s.Sound) (ht : tree.Sound)
    (hr : s.reports.reports = #[] → s.tree.Remains tree) (k : Nat) : s.Onto k { s with tree } :=
  { h.refl k with
    sound := h.withTree ht
    stmts := hr }

/-- The state after the current token was taken. -/
def advanced (s : ParseState) : ParseState :=
  { s with
    window := s.window.bump.skipErrors.2
    reports := s.window.bump.skipErrors.1.foldl Parse.reportToken s.reports }

end ParseState

namespace Parse

variable {α β : Type} {k : Nat} {p : Parse α} {s t : ParseState}

/-! ### Tokens -/

theorem steady_current : Steady k current := keeps_of_reads fun _ => ⟨_, rfl⟩

theorem steady_currentIs (kind : TokenKind) : Steady k (currentIs kind) :=
  keeps_of_reads fun _ => ⟨_, rfl⟩

theorem steady_nextIs (kind : TokenKind) : Steady k (nextIs kind) :=
  keeps_of_reads fun _ => ⟨_, rfl⟩

theorem steady_atEnd : Steady k atEnd := keeps_of_reads fun _ => ⟨_, rfl⟩

theorem steady_currentSpan : Steady k currentSpan := keeps_of_reads fun _ => ⟨_, rfl⟩

theorem steady_spanFrom (start : Span) : Steady k (spanFrom start) :=
  keeps_of_reads fun _ => ⟨_, rfl⟩

theorem steady_truncated : Steady k truncated := keeps_of_reads fun _ => ⟨_, rfl⟩

theorem advance_eq (s : ParseState) : advance s = .ok s.window.current s.advanced := rfl

theorem onto_advanced (h : s.Sound) (k : Nat) : s.Onto k s.advanced := by
  obtain ⟨n, hn, hkind⟩ := s.window.bump.skipErrors_errors
  obtain ⟨hq, ha⟩ := h.reports.accounts_tokens s.window.bump.skipErrors.1
  have hfirst : s.window.errors (n + 1) = s.window.bump.errors n := by
    rw [Window.errors_succ]
    simp [h.front]
  refine { h.refl k with
    sound := { h with front := ?_, marks := ?_, reports := hq }
    tokens := ⟨n + 1, ?_, ?_⟩
    placed := ?_
    stmts := fun _ => .refl _ }
  · simpa [ParseState.advanced, hn] using hkind
  · simpa [ParseState.advanced, hn] using h.marks.bump.drop n
  · simp [ParseState.advanced, hn, Window.drop_succ]
  · rw [hfirst]
    simpa [ParseState.advanced, hn] using ha
  · intro hw hreports
    have htokens : ∀ t ∈ s.window.bump.errors n, t.Placed s.lines := (hw.drop 1).errors n
    have hplaced := hreports.tokens htokens
    simpa [ParseState.advanced, hn] using hplaced

theorem steady_advance : Steady k advance :=
  ⟨fun s => meets_of_ok (advance_eq s) fun h => onto_advanced h k⟩

theorem steady_eat (kind : TokenKind) : Steady k (eat kind) := by
  refine (steady_currentIs kind).bind fun is => ?_
  cases is with
  | true => exact steady_advance.bind fun _ => keeps_pure _
  | false => exact keeps_pure _

/-! ### Reports -/

theorem steady_ofFault (r : Except Fault α) : Steady k (ofFault r) := by
  cases r with
  | ok a => exact keeps_pure _
  | error f => exact keeps_throw fun s h => ⟨h.refl k, by simp⟩

/-- A report leaves the queue with one. -/
theorem pos_of_report {code : ErrorCode} {span : Span} {message label : String}
    {s t : ParseState} {u : Unit} (h : report code span message label s = .ok u t) (hs : s.Sound) :
    0 < t.reports.reports.size := by
  obtain ⟨_, _, hget, h⟩ := bind_eq_ok h
  cases hget
  obtain ⟨reports, _, hr, h⟩ := bind_eq_ok h
  obtain ⟨he, rfl⟩ := ofFault_ok hr
  cases h
  obtain ⟨r, rfl⟩ := Queue.emitSpanned_ok he
  exact hs.reports.size_add_pos r

theorem steady_report {code : ErrorCode} (hcode : code.stage ≠ .lexer) (span : Span)
    (message label : String) : Steady k (report code span message label) := by
  refine keeps_get_bind fun s => ?_
  cases hr : s.reports.emitSpanned (Report.on code message span label) s.lines with
  | ok reports =>
    have hp : s.KeepsPlaces reports := fun _ hq => hq.emitSpanned hr
    obtain ⟨line, col, rfl, -⟩ := Queue.emitSpanned_placed hr
    exact meets_set fun h => h.onto_reports (h.reports.add _) (s.reports.accounts_add hcode) hp k
  | error f => exact meets_throw fun h => ⟨h.refl k, by simp⟩

/-- What follows a report may make use of it. -/
theorem steady_report_bind {code : ErrorCode} {span : Span} {message label : String}
    {f : Unit → Parse α} (hcode : code.stage ≠ .lexer) (hf : ∀ u, Loud k (f u)) :
    Steady k (report code span message label >>= f) := by
  refine ⟨fun s => ?_⟩
  cases hr : report code span message label s with
  | error e t => exact meets_of_error (bind_of_error hr) ((steady_report hcode _ _ _).error hr)
  | ok u t =>
    have ht (hs : s.Sound) := (steady_report (k := k) hcode _ _ _).ok hr hs
    have hpos (hs : s.Sound) := pos_of_report hr hs
    refine meets_bind_of_ok hr (((hf u).meets t).imp (fun _ v hv hs => ?_) fun _ v hv hs => ?_)
    · exact (ht hs).trans (hv (ht hs).sound (hpos hs))
    · have ho := hv (ht hs).sound (hpos hs)
      exact ⟨(ht hs).trans ho, fun _ => (hpos hs).trans_le ho.reports⟩

theorem steady_reject {code : ErrorCode} (hcode : code.stage ≠ .lexer) (message label : String) :
    Steady k (reject (α := α) code message label) := by
  refine ⟨fun s => meets_of_error (e := .reported) rfl fun h => ?_⟩
  exact ⟨h.onto_reports (h.reports.add _) (s.reports.accounts_add hcode)
    (fun hw hq => hq.add (hw.current.report _ _ _)) k, fun _ => h.reports.size_add_pos _⟩

theorem steady_expected {code : ErrorCode} (hcode : code.stage ≠ .lexer) (wanted : String) :
    Steady k (expected (α := α) code wanted) :=
  steady_current.bind fun _ => steady_reject hcode _ _

theorem steady_unexpected (wanted : String) : Steady k (unexpected (α := α) wanted) :=
  steady_expected (by decide) ..

theorem steady_expect (kind : TokenKind) : Steady k (expect kind) := by
  refine (steady_currentIs kind).bind fun is => ?_
  cases is with
  | true => exact steady_advance
  | false => exact steady_unexpected _

theorem steady_beginStatement : Steady k beginStatement :=
  keeps_modify fun _ h => h.onto_beginStatement k

/-! ### Names and types -/

theorem steady_intern (text : String) : Steady k (intern text) := by
  refine keeps_get_bind fun s => ?_
  cases hi : s.names.intern text with
  | ok r =>
    obtain ⟨name, names⟩ := r
    refine Meets.bind (R := fun r t => t = s ∧ r = (name, names)) (meets_pure ⟨rfl, rfl⟩) ?_
    rintro _ t ⟨rfl, rfl⟩
    refine Meets.bind (meets_set rfl) (R := fun _ u => u = { t with names }) ?_
    rintro _ _ rfl
    refine meets_pure fun h => ?_
    obtain ⟨hn, -, hg⟩ := h.names.intern hi
    exact h.onto_names hn hg k
  | error e => exact meets_throw fun h => ⟨h.refl k, by simp⟩

theorem steady_quote (name : Name) : Steady k (quote name) := keeps_of_reads fun _ => ⟨_, rfl⟩

theorem steady_quoteType (type : TypeId) : Steady k (quoteType type) :=
  keeps_get.bind fun _ => (steady_ofFault _).bind fun _ => keeps_pure _

theorem steady_expectName : Steady k expectName := by
  refine (steady_currentIs .ident).bind fun is => ?_
  cases is with
  | true =>
    refine steady_advance.bind fun token => keeps_get.bind fun _ => ?_
    exact (steady_intern _).bind fun _ => keeps_pure _
  | false => exact steady_expected (by decide) ..

theorem sound_make {names names' : Interner} {scratch : Nat} {outer name n : Name}
    (h : names.Sound) (hm : Qualified.make names scratch outer name = .ok (n, names')) :
    names'.Sound ∧ names.Grows names' := by
  unfold Qualified.make at hm
  cases hd : (Qualified.draft names scratch outer name).finish with
  | error e => simp [hd, Bind.bind, Except.bind] at hm
  | ok text =>
    simp only [hd, Bind.bind, Except.bind] at hm
    obtain ⟨hs, -, hg⟩ := h.intern hm
    exact ⟨hs, hg⟩

theorem steady_qualify (outer name : Name) : Steady k (qualify outer name) := by
  refine keeps_get_bind fun s => ?_
  cases hm : Qualified.make s.names s.scratch outer name with
  | ok r =>
    obtain ⟨n, names⟩ := r
    refine Meets.bind (R := fun r t => t = s ∧ r = (n, names)) (meets_pure ⟨rfl, rfl⟩) ?_
    rintro _ t ⟨rfl, rfl⟩
    refine Meets.bind (meets_set rfl) (R := fun _ u => u = { t with names }) ?_
    rintro _ _ rfl
    refine meets_pure fun h => ?_
    obtain ⟨hn, hg⟩ := sound_make h.names hm
    exact h.onto_names hn hg k
  | error e => exact meets_throw fun h => ⟨h.refl k, by simp⟩

theorem steady_declaredName (name : Name) : Steady k (declaredName name) := by
  refine keeps_get.bind fun s => ?_
  split
  · exact steady_qualify ..
  · exact keeps_pure _

/-- A function type is added under its interned text. Where there is no room for the type, the text
may stay. -/
theorem addFunction_steps (types : TypeTable) (names : Interner) (scratch : Nat)
    (signature : Signature) :
    Meets (TypeTable.addFunction scratch signature) (types, names)
      (fun id (u, names') => ∃ full name,
        types.functionText names scratch signature = .ok full ∧
        names.intern full = .ok (name, names') ∧
        types.add (.function signature) name = .ok (id, u))
      fun e (u, names') => u = types ∧
        (names' = names ∨ ∃ full name, names.intern full = .ok (name, names')) ∧
        ∀ fault, e = .fault fault →
          types.functionText names scratch signature = .error (.fault fault) := by
  refine Meets.bind (meets_get (Q := fun a t => a = (types, names) ∧ t = (types, names))
    ⟨rfl, rfl⟩) ?_
  rintro _ _ ⟨rfl, rfl⟩
  refine Meets.bind (R := fun text t => t = (types, names) ∧
    types.functionText names scratch signature = .ok text) (meets_ofExcept (fun _ h => ⟨rfl, h⟩)
    fun _ h => ⟨rfl, .inl rfl, fun _ he => he ▸ h⟩) ?_
  rintro full _ ⟨rfl, hfull⟩
  refine Meets.bind (R := fun r t => t = (types, names) ∧ names.intern full = .ok r)
    (meets_ofExcept (fun r hr => ⟨rfl, ?_⟩) fun e he =>
      ⟨rfl, .inl rfl, fun _ hf => absurd hf (Halt.ne_fault_of_liftCause he _)⟩) ?_
  · cases hi : names.intern full <;> simp_all [Halt.liftCause]
  rintro ⟨name, names'⟩ _ ⟨rfl, hi⟩
  refine Meets.bind (R := fun _ t => t = (types, names')) (meets_set rfl) ?_
  rintro _ _ rfl
  refine Meets.bind (R := fun r t => t = (types, names') ∧
    types.add (.function signature) name = .ok r)
    (meets_ofExcept (fun r hr => ⟨rfl, ?_⟩) fun e he =>
      ⟨rfl, .inr ⟨full, name, hi⟩, fun _ hf => absurd hf (Halt.ne_fault_of_liftCause he _)⟩) ?_
  · cases ha : types.add (.function signature) name <;> simp_all [Halt.liftCause]
  rintro ⟨id, u⟩ _ ⟨rfl, ha⟩
  refine Meets.bind (R := fun _ t => t = (u, names')) (meets_set rfl) ?_
  rintro _ _ rfl
  exact meets_pure ⟨full, name, hfull, hi, ha⟩

/-- What adding a function type leads to, whether there is room for it or not. -/
theorem addFunction_outcome {types : TypeTable} {names : Interner} (ht : types.Sound)
    (hn : names.Sound) (scratch : Nat) (signature : Signature) :
    Meets (TypeTable.addFunction scratch signature) (types, names)
      (fun id (u, names') => u.Sound ∧ types.Grows u ∧ names'.Sound ∧ names.Grows names' ∧
        (∃ name text, u.desc id = .ok ⟨.function signature, name⟩ ∧ names'.Has name text ∧
          types.functionText names scratch signature = .ok text) ∧
        ∀ i d, u.desc i = .ok d → i = id ∧ d.kind = .function signature ∨ types.desc i = .ok d)
      fun e (u, names') => u = types ∧ names'.Sound ∧ names.Grows names' ∧
        ∀ fault, e = .fault fault →
          types.functionText names scratch signature = .error (.fault fault) := by
  refine (addFunction_steps types names scratch signature).imp ?_ ?_
  · rintro id ⟨u, names'⟩ ⟨full, name, hfull, hi, ha⟩
    obtain ⟨hn', hhas, hg⟩ := hn.intern hi
    obtain ⟨hu, hid, hgt, hall⟩ := ht.add ha
    refine ⟨hu, hgt, hn', hg, ⟨name, full, hid, hhas, hfull⟩, fun i d hd => ?_⟩
    rcases hall i d hd with ⟨rfl, rfl⟩ | hd
    · exact .inl ⟨rfl, rfl⟩
    · exact .inr hd
  · rintro e ⟨u, names'⟩ ⟨rfl, rfl | ⟨full, name, hi⟩, hfault⟩
    · exact ⟨rfl, hn, .refl _, hfault⟩
    · obtain ⟨hn', -, hg⟩ := hn.intern hi
      exact ⟨rfl, hn', hg, hfault⟩

theorem steady_addFunction (signature : Signature) : Steady k (addFunction signature) := by
  refine ⟨fun s => meets_addFunction (meets_intro (fun id t hr h => ?_) fun e t hr h => ?_)⟩
  · obtain ⟨ht, hgt, hn, hg, -⟩ := (addFunction_outcome h.types h.names ..).of_ok hr
    have h₁ := h.onto_types ht hgt k
    exact h₁.trans (h₁.sound.onto_names hn hg k)
  · obtain ⟨types, names⟩ := t
    obtain ⟨rfl, hn, hg, -⟩ := (addFunction_outcome h.types h.names ..).of_error hr
    exact ⟨h.onto_names hn hg k, by cases e <;> simp [Stop.ofHalt]⟩

/-! ### Nodes -/

theorem steady_expr (id : ExprId) : Steady k (expr id) :=
  keeps_get.bind fun _ => steady_ofFault _

theorem steady_addNode (e : Expr) : Steady k (addNode e) := by
  refine keeps_get_bind fun s => ?_
  cases ha : s.tree.addExpr e with
  | ok r =>
    obtain ⟨id, tree⟩ := r
    refine Meets.bind (R := fun r t => t = s ∧ r = (id, tree)) (meets_pure ⟨rfl, rfl⟩) ?_
    rintro _ t ⟨rfl, rfl⟩
    refine Meets.bind (meets_set rfl) (R := fun _ u => u = { t with tree }) ?_
    rintro _ _ rfl
    exact meets_pure fun h => h.onto_tree (h.tree.addExpr ha).2.sound
      (fun _ => Tree.remains_of_stmts (Tree.stmts_addExpr ha)) k
  | error e => exact meets_throw fun h => ⟨h.refl k, by simp⟩

theorem steady_addExpr (kind : ExprKind) (span : Span) : Steady k (addExpr kind span) :=
  steady_addNode _

theorem steady_addConstant (kind : ExprKind) (span : Span) (isConstant : Bool) :
    Steady k (addConstant kind span isConstant) :=
  steady_addNode _

theorem steady_addTarget (kind : ExprKind) (span : Span) (canAssign : Bool) :
    Steady k (addTarget kind span canAssign) :=
  steady_addNode _

/-- Below an expression there may be statements, so it is released only after a report. -/
theorem loud_release (id : ExprId) : Loud k (release id) :=
  keeps_modify fun _ h hpos => h.onto_tree (h.tree.releaseAll 0 _)
    (fun hq => by simp [hq] at hpos) k

theorem steady_addStmt (kind : StmtKind) (span : Span) : Steady k (addStmt kind span) := by
  refine keeps_get_bind fun s => ?_
  cases ha : s.tree.addStmt ⟨kind, span⟩ with
  | ok r =>
    obtain ⟨id, tree⟩ := r
    refine Meets.bind (R := fun r t => t = s ∧ r = (id, tree)) (meets_pure ⟨rfl, rfl⟩) ?_
    rintro _ t ⟨rfl, rfl⟩
    refine Meets.bind (meets_set rfl) (R := fun _ u => u = { t with tree }) ?_
    rintro _ _ rfl
    exact meets_pure fun h => h.onto_tree (h.tree.addStmt ha).2.sound
      (fun _ => h.tree.remains_addStmt ha) k
  | error e => exact meets_throw fun h => ⟨h.refl k, by simp⟩

/-- A steady step whose result is a stored statement. -/
structure Stores (k : Nat) (p : Parse StmtId) : Prop where
  steady : Steady k p
  stored : ∀ s id t, p s = .ok id t → s.Sound → ∃ node, t.tree.node? (.stmt id) = some node

theorem stores_addStmt (kind : StmtKind) (span : Span) : Stores k (addStmt kind span) := by
  refine ⟨steady_addStmt kind span, fun s id t h hs => ?_⟩
  obtain ⟨_, _, hget, h⟩ := bind_eq_ok h
  cases hget
  obtain ⟨⟨i, tree⟩, u, ha, h⟩ := bind_eq_ok h
  obtain ⟨ha, rfl⟩ := ofStorage_ok ha
  cases h
  exact ⟨_, (hs.tree.addStmt ha).2.here⟩

theorem steady_addStmtList (ids : List StmtId) : Steady k (addStmtList ids) :=
  ⟨fun s => meets_of_ok (t := { s with tree := (s.tree.addStmtList ids).2 }) rfl fun h =>
    have ht : (s.tree.addStmtList ids).2.Sound := h.tree
    h.onto_tree ht (fun _ => Tree.remains_of_stmts rfl) k⟩

/-! ### Checking and folding -/

theorem steady_check {p : Env → Check α} (hp : ∀ env, Check.Steady env (p env)) :
    Steady k (check p) := by
  refine ⟨fun s => meets_check (meets_intro (fun a t hr h => ?_) fun f t hr h => ?_)⟩
  · have ht := (hp s.env).ok hr h.tree h.reports
    have h₁ := h.onto_tree ht.tree (fun _ => Tree.remains_of_stmts ht.stmts) k
    exact h₁.trans (h₁.sound.onto_reports ht.reports ht.accounts (fun _ => ht.placed) k)
  · have ht := (hp s.env).error hr h.tree h.reports
    have h₁ := h.onto_tree ht.tree (fun _ => Tree.remains_of_stmts ht.stmts) k
    exact ⟨h₁.trans (h₁.sound.onto_reports ht.reports ht.accounts (fun _ => ht.placed) k), by simp⟩

theorem steady_fold (id : ExprId) : Steady k (fold id) := by
  refine ⟨fun s => meets_fold (fun _ h => h.refl k) fun _ => ?_⟩
  refine meets_intro (fun value tree hr h => ?_) fun f tree hr h => ⟨?_, by simp⟩
  · obtain ⟨ht, hstmts⟩ := (Folder.steady_fold id).ok hr h.tree
    exact h.onto_tree ht (fun _ => Tree.remains_of_stmts hstmts) k
  · obtain ⟨ht, hstmts⟩ := (Folder.steady_fold id).error hr h.tree
    exact h.onto_tree ht (fun _ => Tree.remains_of_stmts hstmts) k

theorem stores_unexpected (wanted : String) : Stores k (unexpected wanted) :=
  ⟨steady_unexpected wanted, fun _ _ _ h => nomatch h⟩

end Parse

/-- Steps before the statement is stored. -/
theorem Keeps.stores {α : Type} {k : Nat} {p : Parse α} {f : α → Parse StmtId}
    (h : Parse.Steady k p) (hf : ∀ a, Parse.Stores k (f a)) : Parse.Stores k (p >>= f) := by
  refine ⟨h.bind fun a => (hf a).steady, fun s id t hrun hs => ?_⟩
  obtain ⟨a, u, ha, hrest⟩ := bind_eq_ok hrun
  exact (hf a).stored u id t hrest (h.ok ha hs).sound

end FrontEnd
