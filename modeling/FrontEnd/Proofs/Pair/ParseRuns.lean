import FrontEnd.Proofs.Grammar.Ends
import FrontEnd.Proofs.Grammar.SteadyParts
import FrontEnd.Proofs.Pair.CheckRuns
import FrontEnd.Proofs.Pair.FoldRuns

/-!
Two runs of reading one text, with and without a ceiling for reports, or with different
reservations: the small steps.
-/

namespace FrontEnd

open Tie

variable {D : Prop} {n : Nat} {α β : Type}

/-- The same but for the ceiling for reports and the ends of the storages. If `D` holds, the
storages are equal, and else there is no ceiling. -/
structure ParseState.InStep (D : Prop) (n : Nat) (s t : ParseState) : Prop where
  window : s.window = t.window
  lines : s.lines = t.lines
  tree : s.tree.Matches D t.tree
  types : s.types.Matches D t.types
  names : s.names.Matches D s.scratch t.names t.scratch
  symbols : s.symbols = t.symbols
  scope : s.scope = t.scope
  folder : s.folder = t.folder
  reports : s.reports.Limits n t.reports
  returns : s.returns = t.returns
  folds : s.folds = t.folds
  ceiling : ¬D → n = 0

namespace Parse

/-- A storage ran out in a run, and it tells or is about to tell so; or the run faulted. -/
inductive Spent : Ending Stop ParseState → Prop
  | told {x r} : r ∈ x.2.reports.reports → r.code = .exhausted → Spent x
  | refused {cause s} : s.reports.Endless → Spent (some (.exhausted cause), s)
  | fault {f s} : Spent (some (.fault f), s)

variable {p q : Parse α} {f g : α → Parse β} {s t : ParseState} {x y : Ending Stop ParseState}
  {e : Stop}

/-- Runs part where only one of them passes a ceiling, or unless `D` holds where a storage runs
out. -/
def tie (D : Prop) (n : Nat) : Tie Stop ParseState where
  inStep := ParseState.InStep D n
  parted x y := x.2.reports.Cut n y.2.reports ∨ ¬D ∧ (Spent x ∨ Spent y)
  leads x y := x.2.reports.Later y.2.reports ∧ (Spent x → Spent y)

instance : (tie D n).Lawful where
  refl _ := ⟨.refl _, id⟩
  trans h h' := ⟨h.1.trans h'.1, h'.2 ∘ h.2⟩
  left h hl := h.imp (fun hc => hc.left hl.1) fun ⟨hD, hs⟩ => ⟨hD, hs.imp hl.2 id⟩
  right h hl := h.imp (fun hc => hc.right hl.1) fun ⟨hD, hs⟩ => ⟨hD, hs.imp id hl.2⟩

/-! ### Leading on -/

/-- A run that goes on only has to keep its reports. -/
theorem leads_of_later (h : s.reports.Later x.2.reports) : (tie D n).leads (none, s) x := by
  refine ⟨h, fun hs => ?_⟩
  cases hs with
  | told hr hcode => exact .told (h.mem hr) hcode

theorem leads_of_reports (h : x.2.reports = s.reports) : (tie D n).leads (none, s) x := by
  refine leads_of_later ?_
  rw [h]
  exact .refl _

/-- A stop that was caught after a syntax error. -/
theorem leads_of_reported (h : s.reports.Later x.2.reports) :
    (tie D n).leads (some .reported, s) x := by
  refine ⟨h, fun hs => ?_⟩
  cases hs with
  | told hr hcode => exact .told (h.mem hr) hcode

theorem spent_of_stop (he : e ≠ .reported) (hs : s.reports.Endless) : Spent (some e, s) := by
  cases e with
  | reported => exact absurd rfl he
  | exhausted cause => exact .refused hs
  | fault f => exact .fault

end Parse

theorem ParseState.InStep.endless {s t : ParseState} (h : s.InStep D n t) (hD : ¬D) :
    s.reports.Endless ∧ t.reports.Endless := by
  refine ⟨?_, h.reports.endless⟩
  rw [h.reports.eq]
  exact ⟨h.ceiling hD, h.reports.endless.2⟩

namespace Parse

variable {p q : Parse α} {f g : α → Parse β} {s t : ParseState} {x y : Ending Stop ParseState}
  {e : Stop}

/-- A request of both runs; one that is refused alone has spent its storage. -/
theorem pair_answer {γ : Type} {R : α → α → Prop} {x y : Except γ α} {stop : γ → Stop}
    (hstop : ∀ e, stop e ≠ .reported) (hx : p s = answered stop s x) (hy : q t = answered stop t y)
    (hst : s.InStep D n t) (h : Answers D R x y)
    (hfg : ∀ a b, R a b → (tie D n).Pair (f a s) (g b t)) :
    (tie D n).Pair ((p >>= f) s) ((q >>= g) t) :=
  Pair.answer hx hy hst h
    (fun hD _ _ => .inr ⟨hD, .inl (spent_of_stop (hstop _) (hst.endless hD).1)⟩)
    (fun hD _ _ => .inr ⟨hD, .inr (spent_of_stop (hstop _) (hst.endless hD).2)⟩) hfg

theorem ofFault_eq (r : Except Fault α) (s : ParseState) : ofFault r s = answered .fault s r := by
  cases r <;> rfl

theorem ofStorage_eq (r : Except StorageError α) (s : ParseState) :
    ofStorage r s = answered .exhausted s r := by
  cases r <;> rfl

theorem ofHalting_eq (r : Except (Halt StorageError) α) (s : ParseState) :
    ofHalting r s = answered .ofHalt s r := by
  cases r <;> rfl

theorem ofHalt_ne_reported (e : Halt StorageError) : Stop.ofHalt e ≠ .reported := by
  cases e <;> nofun

/-! ### Looks at the state -/

theorem steps_throw (e : Stop) : (tie D n).Steps (throw e : Parse α) :=
  .mk (fun _ => leads_of_reports rfl) fun _ _ h => .stop h

theorem steps_ofFault (r : Except Fault α) : (tie D n).Steps (ofFault r) := by
  cases r with
  | ok a => exact steps_pure a
  | error f => exact steps_throw _

theorem steps_current : (tie D n).Steps current :=
  steps_of_reads (fun _ => rfl) fun _ _ h => by rw [h.window]

theorem steps_currentIs (k : TokenKind) : (tie D n).Steps (currentIs k) :=
  steps_of_reads (fun _ => rfl) fun _ _ h => by rw [h.window]

theorem steps_nextIs (k : TokenKind) : (tie D n).Steps (nextIs k) :=
  steps_of_reads (fun _ => rfl) fun _ _ h => by rw [h.window]

theorem steps_atEnd : (tie D n).Steps atEnd :=
  steps_of_reads (fun _ => rfl) fun _ _ h => by rw [h.window]

theorem steps_currentSpan : (tie D n).Steps currentSpan :=
  steps_of_reads (fun _ => rfl) fun _ _ h => by rw [h.window]

theorem steps_spanFrom (start : Span) : (tie D n).Steps (spanFrom start) :=
  steps_of_reads (fun _ => rfl) fun _ _ h => by rw [h.window]

/-- As long as the runs are in step, the ceiling was not met. -/
theorem steps_truncated : (tie D n).Steps truncated :=
  steps_of_reads (fun _ => rfl) fun _ _ h => by rw [h.reports.truncated.1, h.reports.truncated.2]

theorem steps_quote (name : Name) : (tie D n).Steps (quote name) :=
  steps_of_reads (k := fun s => "`" ++ s.names.lookup name ++ "`") (fun _ => rfl)
    fun _ _ h => by rw [h.names.lookup_eq]

theorem steps_key (name : Name) : (tie D n).Steps (key name) :=
  steps_of_reads (fun _ => rfl) fun _ _ h => by rw [h.scope]

theorem steps_quoteType (type : TypeId) : (tie D n).Steps (quoteType type) :=
  lockstep_look (fun _ => (steps_ofFault _).bind fun _ => steps_pure _) fun _ _ h => by
    rw [TypeTable.describe_eq h.types.desc_eq h.names.lookup_eq]

theorem steps_expr (id : ExprId) : (tie D n).Steps (expr id) :=
  lockstep_look (fun _ => steps_ofFault _) fun _ _ h => by rw [h.tree.expr_eq]

/-! ### Tokens and reports -/

theorem steps_skipErrors : (tie D n).Steps skipErrors := by
  refine steps_modify (fun s => leads_of_later (s.reports.later_tokens _)) fun s t h => ?_
  rw [← h.window]
  rcases h.reports.tokens s.window.skipErrors.1 with htokens | htokens
  · exact .inl { h with window := rfl, reports := htokens }
  · exact .inr (.inl htokens)

theorem steps_advance : (tie D n).Steps advance := by
  refine steps_current.bind fun token => Lockstep.bind ?_ fun _ =>
    steps_skipErrors.bind fun _ => steps_pure _
  exact steps_modify (fun _ => leads_of_reports rfl) fun _ _ h => .inl
    { h with window := congrArg Window.bump h.window }

theorem steps_eat (k : TokenKind) : (tie D n).Steps (eat k) := by
  refine (steps_currentIs k).bind fun is => ?_
  cases is with
  | true => exact steps_advance.bind fun _ => steps_pure _
  | false => exact steps_pure _

theorem steps_beginStatement : (tie D n).Steps beginStatement :=
  steps_modify (fun s => leads_of_later s.reports.later_beginStatement) fun _ _ h =>
    .inl { h with reports := h.reports.beginStatement }

theorem report_cases (code : ErrorCode) (span : Span) (message label : String) (s : ParseState) :
    (∃ f, report code span message label s = .error (.fault f) s) ∨ ∃ r : Report, r.code = code ∧
      report code span message label s = .ok ⟨⟩ { s with reports := s.reports.add r } := by
  obtain ⟨place, hplace⟩ := Queue.emitSpanned_eq (Report.on code message span label) s.lines
  unfold report
  rw [get_bind, hplace]
  cases place with
  | error f => exact .inl ⟨f, rfl⟩
  | ok at_ => exact .inr ⟨_, rfl, rfl⟩

theorem steps_report {code : ErrorCode} (hcode : code ≠ .tooManyErrors) (span : Span)
    (message label : String) : (tie D n).Steps (report code span message label) := by
  refine steps_get_bind (fun s => ?_) fun s t h => ?_
  · exact leads_answer (ofFault_eq _ s) (fun _ => leads_of_reports rfl) fun reports hr =>
      leads_of_later (Queue.later_emitSpanned hcode hr)
  · rw [← h.lines]
    refine pair_answer nofun (ofFault_eq _ s) (ofFault_eq _ t) h
      (h.reports.emitSpanned hcode s.lines) fun q u hqu => ?_
    rcases hqu with hqu | hqu
    · exact .ok { h with lines := rfl, reports := hqu }
    · exact .parted (.inl hqu)

theorem steps_reject {code : ErrorCode} (hcode : code ≠ .tooManyErrors) (message label : String) :
    (tie D n).Steps (reject (α := α) code message label) := by
  refine steps_current.bind fun found => ?_
  refine Lockstep.bind (steps_modify (fun s => leads_of_later (s.reports.later_add hcode))
    fun s t h => ?_) fun _ => steps_throw _
  rcases h.reports.add (r := (Report.on code message found.span label).placed found.line found.col)
    hcode with hadd | hadd
  · exact .inl { h with reports := hadd }
  · exact .inr (.inl hadd)

theorem steps_expected {code : ErrorCode} (hcode : code ≠ .tooManyErrors) (wanted : String) :
    (tie D n).Steps (expected (α := α) code wanted) :=
  steps_current.bind fun _ => steps_reject hcode _ _

theorem steps_unexpected (wanted : String) : (tie D n).Steps (unexpected (α := α) wanted) :=
  steps_expected (by decide) ..

theorem steps_expect (k : TokenKind) : (tie D n).Steps (expect k) := by
  refine (steps_currentIs k).bind fun is => ?_
  cases is with
  | true => exact steps_advance
  | false => exact steps_unexpected _

/-! ### Names and types -/

/-- Names that are asked for in both runs. -/
theorem pair_names {γ : Type} {stop : γ → Stop} {p q : Parse (Name × Interner)}
    {x y : Except γ (Name × Interner)} (hstop : ∀ e, stop e ≠ .reported)
    (hx : p s = answered stop s x) (hy : q t = answered stop t y) (h : s.InStep D n t)
    (hxy : Answers D (fun a b => a.1 = b.1 ∧ a.2.Matches D s.scratch b.2 t.scratch) x y) :
    (tie D n).Pair ((p >>= fun r => do set { s with names := r.2 }; return r.1) s)
      ((q >>= fun r => do set { t with names := r.2 }; return r.1) t) := by
  refine pair_answer hstop hx hy h hxy ?_
  rintro ⟨name, names⟩ ⟨name', names'⟩ ⟨hname, hnames⟩
  obtain rfl : name = name' := hname
  exact .ok { h with names := hnames }

theorem steps_intern (text : String) : (tie D n).Steps (intern text) :=
  steps_get_bind (fun s => leads_answer (ofStorage_eq _ s) (fun _ => leads_of_reports rfl)
    fun _ _ => leads_of_reports rfl) fun s t h =>
      pair_names nofun (ofStorage_eq _ s) (ofStorage_eq _ t) h (h.names.intern text)

theorem steps_expectName : (tie D n).Steps expectName := by
  refine (steps_currentIs .ident).bind fun is => ?_
  cases is with
  | true =>
    refine steps_advance.bind fun token => ?_
    refine lockstep_look (fun _ => (steps_intern _).bind fun _ => steps_pure _) fun _ _ h => ?_
    rw [h.window]
  | false => exact steps_expected (by decide) ..

theorem steps_qualify (outer name : Name) : (tie D n).Steps (qualify outer name) :=
  steps_get_bind (fun s => leads_answer (ofStorage_eq _ s) (fun _ => leads_of_reports rfl)
    fun _ _ => leads_of_reports rfl) fun s t h =>
      pair_names nofun (ofStorage_eq _ s) (ofStorage_eq _ t) h (h.names.qualified outer name)

theorem steps_declaredName (name : Name) : (tie D n).Steps (declaredName name) := by
  refine lockstep_look (fun s => ?_) fun _ _ h => by rw [h.scope]
  split
  · exact steps_qualify ..
  · exact steps_pure _

/-- Interns the text of a function type and then adds it. -/
theorem addFunction_eq (signature : Signature) : addFunction signature = do
    let s ← get
    let text ← ofHalting (s.types.functionText s.names s.scratch signature)
    let name ← intern text
    let s ← get
    let (id, types) ← ofStorage (s.types.add (.function signature) name)
    set { s with types }
    return id := by
  funext s
  have hstart
      (f : TypeTable × Interner → EStateM (Halt StorageError) (TypeTable × Interner) TypeId) :
      (get >>= f) (s.types, s.names) = f (s.types, s.names) (s.types, s.names) := rfl
  have hset (t : ParseState) (f : PUnit → Parse TypeId) : (set t >>= f) s = f ⟨⟩ t := rfl
  unfold addFunction TypeTable.addFunction intern
  rw [hstart, get_bind]
  dsimp only
  cases s.types.functionText s.names s.scratch signature with
  | error e => rfl
  | ok text =>
    simp only [ofHalting, ofExcept, pure_bind, bind_assoc, get_bind]
    cases s.names.intern text with
    | error e => rfl
    | ok r =>
      simp only [ofStorage, Halt.liftCause, pure_bind, hset, get_bind]
      cases s.types.add (.function signature) r.1 <;> rfl

theorem steps_addFunction (signature : Signature) : (tie D n).Steps (addFunction signature) := by
  have hadd (name : Name) : (tie D n).Steps (do
      let s ← get
      let (id, types) ← ofStorage (s.types.add (.function signature) name)
      set { s with types }
      return id) := by
    refine steps_get_bind (fun s => ?_) fun s t h => ?_
    · exact leads_answer (ofStorage_eq _ s) (fun _ => leads_of_reports rfl)
        fun _ _ => leads_of_reports rfl
    · refine pair_answer nofun (ofStorage_eq _ s) (ofStorage_eq _ t) h (h.types.add _ name) ?_
      rintro ⟨id, types⟩ ⟨id', types'⟩ ⟨hid, htypes⟩
      obtain rfl : id = id' := hid
      exact .ok { h with types := htypes }
  rw [addFunction_eq]
  refine steps_get_bind (fun s => ?_) fun s t h => ?_
  · refine leads_answer (ofHalting_eq _ s) (fun _ => leads_of_reports rfl) fun text _ => ?_
    exact ((steps_intern text).bind hadd).left s
  · refine pair_answer ofHalt_ne_reported (ofHalting_eq _ s) (ofHalting_eq _ t) h
      (h.types.functionText h.names signature) ?_
    rintro text _ rfl
    exact ((steps_intern text).bind hadd).pair s t h

/-! ### Nodes -/

theorem steps_addNode (e : Expr) : (tie D n).Steps (addNode e) := by
  refine steps_get_bind (fun s => ?_) fun s t h => ?_
  · exact leads_answer (ofStorage_eq _ s) (fun _ => leads_of_reports rfl)
      fun _ _ => leads_of_reports rfl
  · refine pair_answer nofun (ofStorage_eq _ s) (ofStorage_eq _ t) h (h.tree.addExpr e) ?_
    rintro ⟨id, tree⟩ ⟨id', tree'⟩ ⟨hid, htree⟩
    obtain rfl : id = id' := hid
    exact .ok { h with tree := htree }

theorem steps_addExpr (kind : ExprKind) (span : Span) : (tie D n).Steps (addExpr kind span) :=
  steps_addNode _

theorem steps_addConstant (kind : ExprKind) (span : Span) (isConstant : Bool) :
    (tie D n).Steps (addConstant kind span isConstant) :=
  steps_addNode _

theorem steps_addTarget (kind : ExprKind) (span : Span) (canAssign : Bool) :
    (tie D n).Steps (addTarget kind span canAssign) :=
  steps_addNode _

theorem steps_release (id : ExprId) : (tie D n).Steps (release id) :=
  steps_modify (fun _ => leads_of_reports rfl) fun _ _ h =>
    .inl { h with tree := h.tree.releaseAll 0 _ }

theorem steps_addStmt (kind : StmtKind) (span : Span) : (tie D n).Steps (addStmt kind span) := by
  refine steps_get_bind (fun s => ?_) fun s t h => ?_
  · exact leads_answer (ofStorage_eq _ s) (fun _ => leads_of_reports rfl)
      fun _ _ => leads_of_reports rfl
  · refine pair_answer nofun (ofStorage_eq _ s) (ofStorage_eq _ t) h (h.tree.addStmt _) ?_
    rintro ⟨id, tree⟩ ⟨id', tree'⟩ ⟨hid, htree⟩
    obtain rfl : id = id' := hid
    exact .ok { h with tree := htree }

theorem steps_addStmtList (ids : List StmtId) : (tie D n).Steps (addStmtList ids) := by
  refine .mk (fun _ => leads_of_reports rfl) fun s t h => ?_
  obtain ⟨hrange, htree⟩ := h.tree.addStmtList ids
  change (tie D n).Pair
    (.ok (s.tree.addStmtList ids).1 { s with tree := (s.tree.addStmtList ids).2 })
    (.ok (t.tree.addStmtList ids).1 { t with tree := (t.tree.addStmtList ids).2 })
  rw [hrange]
  exact .ok { h with tree := htree }

/-- The name of a function becomes the call of it. -/
theorem steps_makeCall (left : ExprId) (callee : Name) (args : List ExprId) (span : Span) :
    (tie D n).Steps (makeCall left callee args span) := by
  refine steps_get_bind (fun s => ?_) fun s t h => ?_
  · exact leads_answer (ofFault_eq _ s) (fun _ => leads_of_reports rfl)
      fun _ _ => leads_of_reports rfl
  · obtain ⟨hrange, htree⟩ := h.tree.addExprList args
    refine pair_answer (D := D) (R := Tree.Matches D) nofun (ofFault_eq _ s) (ofFault_eq _ t) h ?_
      fun tree tree' htree => .ok { h with tree := htree }
    change Answers D (Tree.Matches D)
      ((s.tree.addExprList args).2.setExpr left
        (Expr.new (.call callee (s.tree.addExprList args).1 none) span))
      ((t.tree.addExprList args).2.setExpr left
        (Expr.new (.call callee (t.tree.addExprList args).1 none) span))
    rw [hrange]
    exact htree.setExpr left _

/-! ### Checking and folding -/

theorem matches_env (h : s.InStep D n t) : s.env.Matches t.env where
  desc := h.types.desc_eq
  lookup := h.names.lookup_eq
  find? := h.names.find?_eq
  symbols := h.symbols
  scope := h.scope
  lines := h.lines

/-- A fault of the checker is one of reading. -/
theorem ending_check (p : Env → Check α) (s : ParseState) :
    (ending (check p s)).2.reports = (ending (p s.env ⟨s.tree, s.reports⟩)).2.reports ∧
      ((ending (p s.env ⟨s.tree, s.reports⟩)).1.isSome → Spent (ending (check p s))) := by
  unfold check
  cases p s.env ⟨s.tree, s.reports⟩ with
  | ok a u => exact ⟨rfl, nofun⟩
  | error f u => exact ⟨rfl, fun _ => .fault⟩

theorem steps_check {p : Env → Check α} (hp : ∀ env, (Check.tie D n).Steps (p env))
    (hsame : ∀ v w : Env, v.Matches w → p v = p w) : (tie D n).Steps (check p) := by
  refine .mk (fun s => leads_of_later ?_) fun s t h => ?_
  · rw [(ending_check p s).1]
    exact ((hp s.env).left ⟨s.tree, s.reports⟩).1
  · have hpair := (hp s.env).pair ⟨s.tree, s.reports⟩ ⟨t.tree, t.reports⟩ ⟨h.tree, h.reports⟩
    have hs := ending_check p s
    have ht := ending_check p t
    unfold check at hs ht ⊢
    rw [← hsame _ _ (matches_env h)] at ht ⊢
    generalize p s.env ⟨s.tree, s.reports⟩ = x at hpair hs ⊢
    generalize p s.env ⟨t.tree, t.reports⟩ = y at hpair ht ⊢
    cases hpair with
    | ok hu => exact .ok { h with tree := hu.1, reports := hu.2 }
    | stop hu => exact .stop { h with tree := hu.1, reports := hu.2 }
    | parted hparted =>
      refine .parted (hparted.imp (fun hcut => ?_) fun ⟨hD, hstop⟩ => ⟨hD, hstop.imp hs.2 ht.2⟩)
      rw [hs.1, ht.1]
      exact hcut

/-- A fault of folding is one of reading. -/
theorem ending_fold (id : ExprId) (s : ParseState) :
    (ending (fold id s)).2.reports = s.reports ∧ (s.folds = true →
      (ending (s.folder.fold s.scope.depth id s.tree)).1.isSome → Spent (ending (fold id s))) := by
  unfold fold
  split
  · cases s.folder.fold s.scope.depth id s.tree with
    | ok value tree => exact ⟨rfl, nofun⟩
    | error f tree => exact ⟨rfl, fun _ _ => .fault⟩
  next hoff => exact ⟨rfl, fun hon => absurd hon hoff⟩

theorem steps_fold (id : ExprId) : (tie D n).Steps (fold id) := by
  refine .mk (fun s => leads_of_reports (ending_fold id s).1) fun s t h => ?_
  have hsteps : (Folder.tie D).Steps (s.folder.fold s.scope.depth id) := Folder.steps_fold id
  have hpair := hsteps.pair s.tree t.tree h.tree
  have hs := (ending_fold id s).2
  have ht := (ending_fold id t).2
  rw [← h.folds, ← h.folder, ← h.scope] at ht
  cases hfolds : s.folds with
  | false =>
    have hoff : t.folds = false := h.folds ▸ hfolds
    simp only [fold, hfolds, hoff, Bool.false_eq_true, if_false]
    exact .ok h
  | true =>
    have hon : t.folds = true := h.folds ▸ hfolds
    have hrun : t.folder.fold t.scope.depth id t.tree =
        s.folder.fold s.scope.depth id t.tree := by rw [h.folder, h.scope]
    specialize hs hfolds
    specialize ht hfolds
    simp only [fold, hfolds, hon, if_true, hrun] at hs ht ⊢
    generalize s.folder.fold s.scope.depth id s.tree = x at hpair hs ⊢
    generalize s.folder.fold s.scope.depth id t.tree = y at hpair ht ⊢
    cases hpair with
    | ok htree => exact .ok { h with tree := htree, folds := rfl }
    | stop htree => exact .stop { h with tree := htree, folds := rfl }
    | parted hparted => exact .parted (.inr ⟨hparted.1, hparted.2.imp hs ht⟩)

end Parse

end FrontEnd
