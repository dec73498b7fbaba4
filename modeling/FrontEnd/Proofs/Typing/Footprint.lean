import FrontEnd.Proofs.Typing.Marks
import FrontEnd.Proofs.Typing.BlindSteps
import Mathlib.Logic.Relation

/-!
What inference writes. Neither the marks that stand in the tree nor the queue have a say in it, so
whoever infers a type again finds the same and writes the same.
-/

namespace FrontEnd

/-! ### Ways down a tree -/

/-- Children that are expressions; the body of a lambda is none. -/
def Tree.Child (t : Tree) (p c : ExprId) : Prop :=
  ∃ e, t.expr p = .ok e ∧ .expr c ∈ t.exprChildren e.kind

/-- The nodes of an expression outside lambda bodies. -/
def Tree.Below (t : Tree) : ExprId → ExprId → Prop := Relation.ReflTransGen t.Child

namespace Check

/-- The object of this member access is the name of a type. -/
def Names (env : Env) (t : Tree) (p object : ExprId) (type : TypeId) : Prop :=
  ∃ e field o, t.expr p = .ok e ∧ e.kind = .member object field ∧ t.expr object = .ok o ∧
    typeNamed? env o = some type

/-- The nodes of an expression whose types are inferred, which are all but names of types. -/
def Visits (env : Env) (t : Tree) : ExprId → ExprId → Prop :=
  Relation.ReflTransGen fun p c => t.Child p c ∧ ∀ type, ¬Names env t p c type

variable {env : Env} {t u : Tree} {α β : Type} {p : Check α} {f : α → Check β} {a : α}
  {r : Except Fault α} {r' : Except Fault β} {ms ns : List (ExprId × Mark)} {id c k : ExprId}
  {e : Expr} {type : TypeId} {d : Nat} {cs : List ExprId}

theorem Visits.below (h : Visits env t id k) : t.Below id k :=
  Relation.ReflTransGen.mono (fun _ _ h => h.1) _ _ h

theorem Names.child (h : Names env t id k type) : t.Child id k := by
  obtain ⟨e, field, o, he, hk, -⟩ := h
  exact ⟨e, he, by simp [hk, Tree.exprChildren]⟩

theorem Names.var (h : Names env t id c type) :
    ∃ o name, t.expr c = .ok o ∧ o.kind = .var name := by
  obtain ⟨-, -, o, -, -, ho, hnamed⟩ := h
  unfold typeNamed? at hnamed
  split at hnamed
  next name hkind => exact ⟨o, name, ho, hkind⟩
  next => cases hnamed

/-- A name has no children. -/
theorem Names.below (h : Names env t id c type) (hk : t.Below c k) : k = c := by
  obtain ⟨o, name, ho, hvar⟩ := h.var
  rcases hk.cases_head with rfl | ⟨m, ⟨o', ho', hm⟩, -⟩
  · rfl
  · obtain rfl := Except.ok.inj (ho.symm.trans ho')
    simp [hvar, Tree.exprChildren] at hm

theorem Names.ne (h : Names env t id c type) : id ≠ c := by
  rintro rfl
  obtain ⟨o, name, ho, hvar⟩ := h.var
  obtain ⟨e, field, -, he, hk, -⟩ := h
  obtain rfl := Except.ok.inj (ho.symm.trans he)
  cases hvar.symm.trans hk

/-! ### Runs and their marks -/

/-- How a run ends that yields this. -/
def ended (r : Except Fault α) (s : CheckState) : EStateM.Result Fault CheckState α :=
  match r with
  | .ok a => .ok a s
  | .error fault => .error fault s

/-- However the tree is marked and whatever was reported, `p` yields the same and leaves the same
marks. -/
def Plays (p : Check α) (t : Tree) (r : Except Fault α) (ms : List (ExprId × Mark)) : Prop :=
  ∀ u, u.bare = t.bare → ∀ q, ∃ q', p ⟨u, q⟩ = ended r ⟨u.marks ms, q'⟩

theorem Plays.bind (h : Plays p t (.ok a) ms) (hf : Plays (f a) t r' ns) :
    Plays (p >>= f) t r' (ms ++ ns) := by
  intro u hu q
  obtain ⟨q₁, h₁⟩ := h u hu q
  obtain ⟨q₂, h₂⟩ := hf (u.marks ms) (Tree.bare_marks.trans hu) q₁
  refine ⟨q₂, (bind_of_ok h₁).trans ?_⟩
  rw [h₂, Tree.marks_append]

theorem Plays.bind_error {fault : Fault} (h : Plays p t (.error fault) ms) :
    Plays (p >>= f) t (.error fault) ms := by
  intro u hu q
  obtain ⟨q₁, h₁⟩ := h u hu q
  exact ⟨q₁, bind_of_error h₁⟩

/-- What `p` yields and the marks that it leaves are as `R` tells. -/
def Leaves (p : Check α) (t : Tree) (R : Except Fault α → List (ExprId × Mark) → Prop) : Prop :=
  ∃ r ms, Plays p t r ms ∧ R r ms

theorem leaves_pure {R : Except Fault α → List (ExprId × Mark) → Prop} (h : R (.ok a) []) :
    Leaves (pure a) t R :=
  ⟨.ok a, [], fun _ _ q => ⟨q, rfl⟩, h⟩

theorem Leaves.bind {R : Except Fault α → List (ExprId × Mark) → Prop}
    {S : Except Fault β → List (ExprId × Mark) → Prop} (h : Leaves p t R)
    (hf : ∀ a ms, R (.ok a) ms → Leaves (f a) t fun r ns => S r (ms ++ ns))
    (he : ∀ fault ms, R (.error fault) ms → S (.error fault) ms) : Leaves (p >>= f) t S := by
  obtain ⟨r, ms, hp, hR⟩ := h
  cases r with
  | ok a =>
    obtain ⟨r', ns, hplays, hS⟩ := hf a ms hR
    exact ⟨r', ms ++ ns, hp.bind hplays, hS⟩
  | error fault => exact ⟨.error fault, ms, hp.bind_error, he fault ms hR⟩

theorem expr_run (id : ExprId) (u : Tree) (q : Queue) :
    expr id ⟨u, q⟩ = ended (u.expr id) ⟨u, q⟩ := by
  simp only [expr, Bind.bind, EStateM.bind, get_eq]
  cases u.expr id <;> rfl

/-- A look at a node, and what does not depend on its marks. -/
theorem leaves_expr {f : Expr → Check β} {R : Except Fault β → List (ExprId × Mark) → Prop}
    (he : ∀ fault, R (.error fault) [])
    (hok : ∀ e, t.expr id = .ok e →
      (∀ e', e'.bare = e.bare → f e' = f e) ∧ Leaves (f e) t R) :
    Leaves (expr id >>= f) t R := by
  cases ht : t.expr id with
  | error fault =>
    refine ⟨.error fault, [], fun u hu q => ⟨q, ?_⟩, he fault⟩
    exact bind_of_error ((expr_run id u q).trans (by rw [Tree.expr_error_of_bare hu ht]; rfl))
  | ok e =>
    obtain ⟨hsame, r, ms, hp, hR⟩ := hok e ht
    refine ⟨r, ms, fun u hu q => ?_, hR⟩
    obtain ⟨e', he', hbare⟩ := Tree.expr_of_bare hu ht
    obtain ⟨q', hq'⟩ := hp u hu q
    refine ⟨q', (bind_of_ok ((expr_run id u q).trans (by rw [he']; rfl))).trans ?_⟩
    rw [hsame e' hbare, hq']

/-- A look at a list, which has no marks. -/
theorem leaves_list {list : ListRange} {f : List ExprId → Check β}
    {R : Except Fault β → List (ExprId × Mark) → Prop} (h : Leaves (f (t.exprList list)) t R) :
    Leaves (do f ((← get).tree.exprList list)) t R := by
  obtain ⟨r, ms, hp, hR⟩ := h
  refine ⟨r, ms, fun u hu q => ?_, hR⟩
  rw [bind_of_ok (get_eq _)]
  dsimp only
  rw [Tree.exprList_of_bare hu]
  exact hp u hu q

/-! ### Steps that leave no marks -/

/-- `p` leaves no marks, and yields the same whatever was reported. -/
def Silent (t : Tree) (p : Check α) : Prop := ∃ r, Plays p t r []

theorem Silent.leaves {R : Except Fault α → List (ExprId × Mark) → Prop} (h : Silent t p)
    (hR : ∀ r, R r []) : Leaves p t R :=
  let ⟨r, hp⟩ := h
  ⟨r, [], hp, hR r⟩

theorem silent_pure (a : α) : Silent t (pure a : Check α) := ⟨.ok a, fun _ _ q => ⟨q, rfl⟩⟩

theorem silent_ofExcept (r : Except Fault α) : Silent t (ofExcept r : Check α) := by
  refine ⟨r, fun u _ q => ⟨q, ?_⟩⟩
  cases r <;> rfl

theorem Silent.bind (h : Silent t p) (hf : ∀ a, Silent t (f a)) : Silent t (p >>= f) := by
  obtain ⟨r, hp⟩ := h
  cases r with
  | ok a =>
    obtain ⟨r', hplays⟩ := hf a
    exact ⟨r', hp.bind hplays⟩
  | error fault => exact ⟨.error fault, hp.bind_error⟩

theorem silent_mapM {l : List α} {f : α → Check β} (h : ∀ a, Silent t (f a)) :
    Silent t (l.mapM f) := by
  induction l with
  | nil => exact silent_pure _
  | cons a l ih =>
    rw [List.mapM_cons]
    exact (h a).bind fun _ => ih.bind fun _ => silent_pure _

/-- Whether a report finds its place does not depend on the queue. -/
theorem silent_report (env : Env) (code : ErrorCode) (span : Span) (message label : String) :
    Silent t (report env code span message label) := by
  have hplace (q : Queue) : q.emitSpanned (Report.on code message span label) env.lines =
      (env.lines.locate span.start).map fun place =>
        q.emit (Report.on code message span label) place.1 place.2 := by
    simp only [Queue.emitSpanned, Report.on, List.head?_cons]
    cases env.lines.locate span.start <;> rfl
  cases hl : env.lines.locate span.start with
  | error fault =>
    refine ⟨.error fault, fun u _ q => ⟨q, ?_⟩⟩
    simp only [report, Bind.bind, EStateM.bind, get_eq, hplace, hl]
    rfl
  | ok place =>
    refine ⟨.ok (), fun u _ q => ⟨q.emit (Report.on code message span label) place.1 place.2, ?_⟩⟩
    simp only [report, Bind.bind, EStateM.bind, get_eq, hplace, hl]
    rfl

theorem silent_span (id : ExprId) : Silent t (span id) := by
  obtain ⟨r, ms, hp, rfl⟩ : Leaves (span id) t fun _ ms => ms = [] :=
    leaves_expr (fun _ => rfl) fun e _ =>
      ⟨fun e' h => congrArg pure (Mark.of_bare h).1, leaves_pure rfl⟩
  exact ⟨r, hp⟩

theorem silent_quote (type : TypeId) : Silent t (quote env type) :=
  (silent_ofExcept _).bind fun _ => silent_pure _

theorem silent_inferVar (name : Name) (span : Span) : Silent t (inferVar env name span) := by
  unfold inferVar
  split
  · exact silent_pure _
  · exact (silent_report env ..).bind fun _ => silent_pure _

theorem silent_settle {result : Application} {span : Span} {message : Check String}
    {label : String} (h : Silent t message) : Silent t (settle env result span message label) := by
  unfold settle
  cases result.isAccepted with
  | true => exact silent_pure _
  | false => exact h.bind fun _ => (silent_report env ..).bind fun _ => silent_pure _

theorem silent_operandsMessage (symbol : String) (left right : TypeId) :
    Silent t (operandsMessage env symbol left right) :=
  (silent_quote left).bind fun _ => (silent_quote right).bind fun _ => silent_pure _

theorem silent_applyUnary (op : UnaryOp) (operand : TypeId) (span : Span) :
    Silent t (applyUnary env op operand span) :=
  (silent_ofExcept _).bind fun _ =>
    silent_settle ((silent_quote operand).bind fun _ => silent_pure _)

theorem silent_applyBinary (symbol : String) (op : BinaryOp) (left right : TypeId) (span : Span) :
    Silent t (applyBinary env symbol op left right span) :=
  (silent_ofExcept _).bind fun _ => silent_settle (silent_operandsMessage ..)

theorem silent_storedType (op : AssignOp) (target value : TypeId) (span : Span) :
    Silent t (storedType env op target value span) := by
  cases op with
  | assign => exact silent_pure _
  | compound binary => exact silent_applyBinary ..
  | complement =>
    exact (silent_ofExcept _).bind fun _ => silent_settle (silent_operandsMessage ..)

theorem silent_unknownMember (type : TypeId) (field : Name) (span : Span) :
    Silent t (unknownMember env type field span) :=
  (silent_quote type).bind fun _ => (silent_report env ..).bind fun _ => silent_pure _

theorem silent_variantType (type : TypeId) (variant : Name) (span : Span) :
    Silent t (variantType env type variant span) := by
  refine (silent_ofExcept _).bind fun kind => ?_
  cases kind with
  | enum name variants =>
    dsimp only
    split
    · exact silent_pure _
    · exact silent_unknownMember ..
  | _ => exact silent_unknownMember ..

theorem silent_memberType (type : TypeId) (field : Name) (span : Span) :
    Silent t (memberType env type field span) := by
  refine (silent_ofExcept _).bind fun kind => ?_
  split
  · exact silent_pure _
  · split
    · exact silent_pure _
    · exact silent_unknownMember ..
  · exact silent_variantType ..

/-- The types of an assignment are compared after both sides were inferred. -/
theorem silent_assignment (op : AssignOp) (value : ExprId) (target stored : TypeId) (span : Span) :
    Silent t (do
      let stored ← storedType env op target stored span
      unless ← ofExcept (env.types.compatible stored target) do
        let message := "cannot assign " ++ (← quote env stored) ++ " to " ++ (← quote env target)
        report env .assignedType (← Check.span value) message "assigned here"
      return target) := by
  refine (silent_storedType ..).bind fun stored => (silent_ofExcept _).bind fun fits => ?_
  cases fits with
  | true => exact silent_pure _
  | false =>
    refine (silent_quote _).bind fun _ => (silent_quote _).bind fun _ => ?_
    exact (silent_span value).bind fun _ => (silent_report env ..).bind fun _ => silent_pure _

/-! ### Steps that leave a mark -/

theorem setExpr_run (h : u.expr id = .ok e) (m : Mark) (q : Queue) :
    (do setExpr id (m.on (← expr id))) ⟨u, q⟩ = .ok () ⟨u.mark id m, q⟩ := by
  refine (bind_of_ok ((expr_run id u q).trans (by rw [h]; rfl))).trans ?_
  simp only [setExpr, Bind.bind, EStateM.bind, get_eq, Tree.setExpr_mark h m]
  rfl

theorem plays_record (h : t.expr id = .ok e) (type : TypeId) :
    Plays (record id type) t (.ok ()) [(id, .typed type)] := by
  intro u hu q
  obtain ⟨e', he', -⟩ := Tree.expr_of_bare hu h
  exact ⟨q, setExpr_run he' (.typed type) q⟩

theorem plays_link {callee target : Name} {args : ListRange} {mangled : Option Name}
    (h : t.expr id = .ok e) (hk : e.kind = .call callee args mangled) (ret : TypeId) :
    Plays (do
      let call ← expr id
      if let .call callee list _ := call.kind then
        setExpr id { call with kind := .call callee list (some target) }
      return ret) t (.ok ret) [(id, .linked target)] := by
  intro u hu q
  obtain ⟨e', he', hbare⟩ := Tree.expr_of_bare hu h
  obtain ⟨mangled', hk'⟩ : ∃ m, e'.kind = .call callee args m := by
    rcases (Mark.of_bare hbare).2 with hsame | ⟨_, _, _, m, hcall, hk'⟩
    · exact ⟨mangled, hsame.trans hk⟩
    · cases hk.symm.trans hcall
      exact ⟨m, hk'⟩
  have hon : { e' with kind := .call callee args (some target) } = (Mark.linked target).on e' := by
    simp only [Mark.on, hk', ExprKind.linkedTo]
  have hrun := setExpr_run he' (.linked target) q
  have hexpr : expr id ⟨u, q⟩ = .ok e' ⟨u, q⟩ := (expr_run id u q).trans (by rw [he']; rfl)
  rw [bind_of_ok hexpr] at hrun
  refine ⟨q, (bind_of_ok hexpr).trans ?_⟩
  simp only [hk', hon]
  exact (bind_of_ok hrun).trans rfl

/-! ### The marks of an expression -/

/-- A mark that inference leaves in an expression: the type of a node that is inferred for it, or
that it names, or the link name of a call. -/
def Due (env : Env) (t : Tree) (d : Nat) (id : ExprId) : ExprId × Mark → Prop
  | (k, .linked _) => t.Below id k
  | (k, .typed type) =>
    (Visits env t id k ∧ ∃ d' ≤ d, ∃ ms, Plays (inferWithin env d' k) t (.ok type) ms) ∨
      ∃ p, Visits env t id p ∧ Names env t p k type

/-- A type is written into every node. -/
def Typing (t : Tree) (id : ExprId) (ms : List (ExprId × Mark)) : Prop :=
  ∀ k, t.Below id k → ∃ type, (k, .typed type) ∈ ms

/-- What inference of a node leaves. -/
def Marked (env : Env) (t : Tree) (d : Nat) (id : ExprId) (r : Except Fault TypeId)
    (ms : List (ExprId × Mark)) : Prop :=
  (∀ m ∈ ms, Due env t d id m) ∧ ∀ type, r = .ok type → Typing t id ms

/-- What is left before the type of the node itself is recorded. -/
def Ready (env : Env) (t : Tree) (d : Nat) (id : ExprId) (r : Except Fault TypeId)
    (ms : List (ExprId × Mark)) : Prop :=
  (∀ m ∈ ms, Due env t d id m) ∧
    ∀ type, r = .ok type → ∀ c, t.Child id c → Typing t c ms

/-- What is left after these children. -/
structure Through (env : Env) (t : Tree) (d : Nat) (id : ExprId) (cs : List ExprId)
    (ms : List (ExprId × Mark)) : Prop where
  due : ∀ m ∈ ms, Due env t d id m
  typing : ∀ c ∈ cs, Typing t c ms

theorem Due.below {m : ExprId × Mark} (h : Due env t d id m) : t.Below id m.1 := by
  obtain ⟨k, mark⟩ := m
  cases mark with
  | linked => exact h
  | typed type =>
    rcases h with ⟨h, -⟩ | ⟨p, hp, hn⟩
    · exact h.below
    · exact hp.below.tail hn.child

/-- From a child to the node above it. -/
theorem Due.up {m : ExprId × Mark} (hc : t.Child id c) (hn : ∀ type, ¬Names env t id c type)
    (h : Due env t d c m) : Due env t (d + 1) id m := by
  have hvisit {k : ExprId} (h : Visits env t c k) : Visits env t id k := .head ⟨hc, hn⟩ h
  obtain ⟨k, mark⟩ := m
  cases mark with
  | linked => exact .head hc h
  | typed type =>
    rcases h with ⟨h, d', hd, hplays⟩ | ⟨p, hp, hn⟩
    · exact .inl ⟨hvisit h, d', by omega, hplays⟩
    · exact .inr ⟨p, hvisit hp, hn⟩

theorem Typing.append (h : Typing t id ms) (ns : List (ExprId × Mark)) :
    Typing t id (ms ++ ns) := fun k hk =>
  (h k hk).imp fun _ hm => List.mem_append_left _ hm

/-- After a fault there is no type to be recorded. -/
theorem ready_error {fault : Fault} (h : ∀ m ∈ ms, Due env t d id m) :
    Ready env t d id (.error fault) ms := by
  refine ⟨h, fun type hr => ?_⟩
  cases hr

theorem through_nil (env : Env) (t : Tree) (d : Nat) (id : ExprId) : Through env t d id [] [] :=
  ⟨by simp, by simp⟩

/-- The next child. -/
theorem Through.next {f : TypeId → Check β} {S : Except Fault β → List (ExprId × Mark) → Prop}
    (hw : Through env t (d + 1) id cs ms) (hc : t.Child id c)
    (hn : ∀ type, ¬Names env t id c type)
    (ih : Leaves (inferWithin env d c) t (Marked env t d c))
    (hf : ∀ type ms, Through env t (d + 1) id (cs ++ [c]) ms →
      Leaves (f type) t fun r ns => S r (ms ++ ns))
    (he : ∀ fault ms, (∀ m ∈ ms, Due env t (d + 1) id m) → S (.error fault) ms) :
    Leaves (inferWithin env d c >>= f) t fun r ns => S r (ms ++ ns) := by
  have hdue {ns : List (ExprId × Mark)} (h : ∀ m ∈ ns, Due env t d c m) :
      ∀ m ∈ ms ++ ns, Due env t (d + 1) id m :=
    List.forall_mem_append.2 ⟨hw.due, fun m hm => (h m hm).up hc hn⟩
  refine ih.bind (fun type ns hi => ?_) fun fault ns hi => he fault _ (hdue hi.1)
  have hnext := hf type (ms ++ ns) ⟨hdue hi.1, List.forall_mem_append.2
    ⟨fun c hc => (hw.typing c hc).append ns, fun c' hc' k hk => ?_⟩⟩
  · simpa only [List.append_assoc] using hnext
  · obtain rfl := List.mem_singleton.1 hc'
    exact (hi.2 type rfl k hk).imp fun _ hm => List.mem_append_right _ hm

/-- One child after the other. -/
theorem Through.all {f : List TypeId → Check β} {S : Except Fault β → List (ExprId × Mark) → Prop}
    (rest : List ExprId) (hw : Through env t (d + 1) id cs ms) (hc : ∀ c ∈ rest, t.Child id c)
    (hn : ∀ c type, ¬Names env t id c type)
    (ih : ∀ c, Leaves (inferWithin env d c) t (Marked env t d c))
    (hf : ∀ types ms, Through env t (d + 1) id (cs ++ rest) ms →
      Leaves (f types) t fun r ns => S r (ms ++ ns))
    (he : ∀ fault ms, (∀ m ∈ ms, Due env t (d + 1) id m) → S (.error fault) ms) :
    Leaves (rest.mapM (inferWithin env d) >>= f) t fun r ns => S r (ms ++ ns) := by
  induction rest generalizing cs ms f with
  | nil =>
    rw [List.mapM_nil, pure_bind]
    exact hf [] ms (by simpa using hw)
  | cons c rest ihr =>
    rw [List.mapM_cons, bind_assoc]
    refine hw.next (hc c (by simp)) (hn c) (ih c) (fun type ms hw => ?_) he
    rw [bind_assoc]
    refine ihr hw (fun c hmem => hc c (by simp [hmem])) fun types ms hw => ?_
    rw [pure_bind]
    exact hf (type :: types) ms (by simpa using hw)

/-- All children were inferred, and what is left to do leaves no marks. -/
theorem Through.settle {p : Check TypeId} (hw : Through env t d id cs ms)
    (hall : ∀ c, t.Child id c → c ∈ cs) (hp : Silent t p) :
    Leaves p t fun r ns => Ready env t d id r (ms ++ ns) :=
  hp.leaves fun _ => by
    rw [List.append_nil]
    exact ⟨hw.due, fun _ _ c hc => hw.typing c (hall c hc)⟩

/-! ### One node -/

theorem not_names (he : t.expr id = .ok e) (hk : ∀ object field, e.kind ≠ .member object field)
    (c : ExprId) (type : TypeId) : ¬Names env t id c type := by
  rintro ⟨e', field, -, he', hk', -⟩
  obtain rfl := Except.ok.inj (he.symm.trans he')
  exact hk _ _ hk'

theorem child_iff (he : t.expr id = .ok e) :
    t.Child id c ↔ .expr c ∈ t.exprChildren e.kind :=
  ⟨fun ⟨_, he', hc⟩ => by rwa [Except.ok.inj (he.symm.trans he')], fun hc => ⟨e, he, hc⟩⟩

/-- Marks do not make another type of a name. -/
theorem typeNamed?_of_bare {o o' : Expr} (h : o'.bare = o.bare) :
    typeNamed? env o' = typeNamed? env o := by
  unfold typeNamed?
  rcases (Mark.of_bare h).2 with hk | ⟨_, _, _, _, hk, hk'⟩
  · rw [hk]
  · rw [hk, hk']

/-- A call is linked to the overload that was found. -/
theorem ready_call {callee : Name} {args : ListRange} {mangled : Option Name}
    (he : t.expr id = .ok e) (hk : e.kind = .call callee args mangled)
    (hw : Through env t d id (t.exprList args) ms) (types : List TypeId) (span : Span) :
    Leaves (inferCall env id callee types span) t fun r ns => Ready env t d id r (ms ++ ns) := by
  have hall (c : ExprId) (hc : t.Child id c) : c ∈ t.exprList args := by
    simpa [hk, Tree.exprChildren] using (child_iff he).1 hc
  unfold inferCall
  cases env.resolveCall callee types with
  | error fault =>
    exact ⟨.error fault, [], fun u _ q => ⟨q, rfl⟩, ready_error (by simpa using hw.due)⟩
  | ok found =>
    cases found with
    | none =>
      refine hw.settle hall ?_
      simp only [ofExcept, pure_bind]
      split
      · exact (silent_mapM silent_quote).bind fun _ => (silent_report env ..).bind fun _ =>
          silent_pure _
      · exact (silent_report env ..).bind fun _ => silent_pure _
    | some resolved =>
      refine ⟨.ok resolved.ret, _, (plays_link he hk resolved.ret), ?_, fun _ _ c hc => ?_⟩
      · exact List.forall_mem_append.2 ⟨hw.due, by simpa using .refl⟩
      · exact (hw.typing c (hall c hc)).append _

/-- A member access looks whether its object names a type, before the object is inferred. -/
theorem ready_member {object : ExprId} {field : Name}
    (ih : ∀ c, Leaves (inferWithin env d c) t (Marked env t d c)) (he : t.expr id = .ok e)
    (hk : e.kind = .member object field) :
    Leaves (do
      match typeNamed? env (← expr object) with
      | some type =>
        record object type
        variantType env type field e.span
      | none => memberType env (← inferWithin env d object) field e.span) t
      (Ready env t (d + 1) id) := by
  have hchild (c : ExprId) : t.Child id c ↔ c = object := by
    simp [child_iff he, hk, Tree.exprChildren]
  refine leaves_expr (fun _ => ready_error (by simp)) fun o ho =>
    ⟨fun o' h => by rw [typeNamed?_of_bare h], ?_⟩
  cases hnamed : typeNamed? env o with
  | none =>
    refine (through_nil env t (d + 1) id).next ((hchild object).2 rfl) ?_ (ih object)
      (fun type ms hw => hw.settle (by simp [hchild]) (silent_memberType ..))
      fun _ _ h => ready_error h
    rintro type ⟨e', field', o', he', hk', ho', hnamed'⟩
    obtain rfl := Except.ok.inj (ho.symm.trans ho')
    cases hnamed.symm.trans hnamed'
  | some type =>
    have hnames : Names env t id object type := ⟨e, field, o, he, hk, ho, hnamed⟩
    obtain ⟨r, hvariant⟩ : Silent t (variantType env type field e.span) := silent_variantType ..
    refine ⟨r, _, (plays_record ho type).bind hvariant, ?_, fun _ _ c hc k hbelow => ?_⟩
    · simp only [List.append_nil, List.mem_singleton, forall_eq]
      exact .inr ⟨id, .refl, hnames⟩
    · obtain rfl := (hchild c).1 hc
      obtain rfl := hnames.below hbelow
      exact ⟨type, by simp⟩

/-- One node, given what its children leave. -/
theorem ready_node (ih : ∀ c, Leaves (inferWithin env d c) t (Marked env t d c)) (id : ExprId) :
    Leaves (inferNode env (inferWithin env d) id) t (Ready env t (d + 1) id) := by
  refine leaves_expr (fun _ => ready_error (by simp)) fun e he => ⟨fun e' h => ?_, ?_⟩
  · obtain ⟨hspan, hk | ⟨_, _, _, _, hk, hk'⟩⟩ := Mark.of_bare h
    · simp only [hk, hspan]
    · simp only [hk, hk', hspan]
  have hnil := through_nil env t (d + 1) id
  have hchild (c : ExprId) : t.Child id c ↔ .expr c ∈ t.exprChildren e.kind := child_iff he
  cases hk : e.kind <;> rw [hk] at hchild <;> dsimp only
  case error | literal | str | lambda =>
    exact hnil.settle (by simp [hchild, Tree.exprChildren]) (silent_pure _)
  case var => exact hnil.settle (by simp [hchild, Tree.exprChildren]) (silent_inferVar ..)
  case group inner =>
    rw [← bind_pure (inferWithin env d inner)]
    refine hnil.next (by simp [hchild, Tree.exprChildren])
      (not_names he (by simp [hk]) inner) (ih inner) (fun type ms hw => ?_) fun _ _ => ready_error
    exact hw.settle (by simp [hchild, Tree.exprChildren]) (silent_pure _)
  case unary op operand =>
    refine hnil.next (by simp [hchild, Tree.exprChildren])
      (not_names he (by simp [hk]) operand) (ih operand) (fun type ms hw => ?_)
      fun _ _ => ready_error
    exact hw.settle (by simp [hchild, Tree.exprChildren]) (silent_applyUnary ..)
  case binary op left right =>
    refine hnil.next (by simp [hchild, Tree.exprChildren])
      (not_names he (by simp [hk]) left) (ih left) (fun lhs ms hw => ?_) fun _ _ => ready_error
    refine hw.next (by simp [hchild, Tree.exprChildren])
      (not_names he (by simp [hk]) right) (ih right) (fun rhs ms hw => ?_) fun _ _ => ready_error
    exact hw.settle (by simp [hchild, Tree.exprChildren, or_comm]) (silent_applyBinary ..)
  case assign op target value =>
    refine hnil.next (by simp [hchild, Tree.exprChildren])
      (not_names he (by simp [hk]) target) (ih target) (fun lhs ms hw => ?_) fun _ _ => ready_error
    refine hw.next (by simp [hchild, Tree.exprChildren])
      (not_names he (by simp [hk]) value) (ih value) (fun rhs ms hw => ?_) fun _ _ => ready_error
    exact hw.settle (by simp [hchild, Tree.exprChildren, or_comm]) (silent_assignment ..)
  case call callee args mangled =>
    refine leaves_list (f := fun ids => ids.mapM (inferWithin env d) >>= fun types =>
      inferCall env id callee types e.span) (hnil.all _ (fun c hc => ?_)
        (not_names he (by simp [hk])) ih (fun types ms hw => ?_) fun _ _ => ready_error)
    · simpa [hchild, Tree.exprChildren] using hc
    · exact ready_call he hk hw types e.span
  case member object field => exact ready_member ih he hk

theorem exists_expr {infer : ExprId → Check TypeId} {q : Queue} {s : CheckState}
    (h : inferNode env infer id ⟨t, q⟩ = .ok type s) : ∃ e, t.expr id = .ok e := by
  cases he : t.expr id with
  | ok e => exact ⟨e, rfl⟩
  | error fault =>
    rw [inferNode, bind_of_error ((expr_run id t q).trans (by rw [he]; rfl))] at h
    cases h

/-- The type that was found is recorded. -/
theorem marked_within (env : Env) (t : Tree) (d : Nat) (id : ExprId) :
    Leaves (inferWithin env d id) t (Marked env t d id) := by
  induction d generalizing id with
  | zero => exact ⟨.error .endless, [], fun u _ q => ⟨q, rfl⟩, by simp, nofun⟩
  | succ d ih =>
    obtain ⟨r, ms, hplays, hready⟩ := ready_node ih id
    cases r with
    | error fault => exact ⟨.error fault, ms, hplays.bind_error, hready.1, nofun⟩
    | ok type =>
      obtain ⟨q, hrun⟩ := hplays t rfl (.withConfig .standard)
      obtain ⟨e, he⟩ := exists_expr hrun
      have hreturn : Plays (pure type : Check TypeId) t (.ok type) [] := fun _ _ q => ⟨q, rfl⟩
      have hwhole : Plays (inferWithin env (d + 1) id) t (.ok type) (ms ++ [(id, .typed type)]) :=
        hplays.bind ((plays_record he type).bind hreturn)
      refine ⟨.ok type, _, hwhole, ?_, fun _ _ k hk => ?_⟩
      · refine List.forall_mem_append.2 ⟨hready.1, ?_⟩
        simp only [List.mem_singleton, forall_eq]
        exact .inl ⟨.refl, d + 1, Nat.le_refl _, _, hwhole⟩
      · rcases hk.cases_head with rfl | ⟨c, hc, hk⟩
        · exact ⟨type, by simp⟩
        · exact (hready.2 type rfl c hc).append _ k hk

/-- A node whose type is inferred is there. -/
theorem Plays.exists_expr (h : Plays (inferWithin env d id) t (.ok type) ms) :
    ∃ e, t.expr id = .ok e := by
  obtain ⟨q, hrun⟩ := h t rfl (.withConfig .standard)
  cases d with
  | zero => cases hrun
  | succ d =>
    cases hnode : inferNode env (inferWithin env d) id ⟨t, .withConfig .standard⟩ with
    | ok found s => exact Check.exists_expr hnode
    | error fault s =>
      rw [inferWithin, bind_of_error hnode] at hrun
      cases hrun

/-! ### More room -/

/-- Where `p` yields something, `p'` does the same. -/
def Extends (p p' : Check α) : Prop := ∀ s a s', p s = .ok a s' → p' s = .ok a s'

theorem Extends.refl (p : Check α) : Extends p p := fun _ _ _ h => h

theorem Extends.bind {p' : Check α} {f' : α → Check β} (h : Extends p p')
    (hf : ∀ a, Extends (f a) (f' a)) : Extends (p >>= f) (p' >>= f') := by
  intro s b s' hrun
  cases hp : p s with
  | error fault u =>
    rw [bind_of_error hp] at hrun
    cases hrun
  | ok a u =>
    rw [bind_of_ok hp] at hrun
    exact (bind_of_ok (h s a u hp)).trans (hf a u b s' hrun)

theorem extends_mapM {g g' : α → Check β} (h : ∀ a, Extends (g a) (g' a)) (l : List α) :
    Extends (l.mapM g) (l.mapM g') := by
  induction l with
  | nil => exact .refl _
  | cons a l ih =>
    rw [List.mapM_cons, List.mapM_cons]
    exact (h a).bind fun _ => ih.bind fun _ => .refl _

theorem extends_node {infer infer' : ExprId → Check TypeId}
    (h : ∀ id, Extends (infer id) (infer' id)) (id : ExprId) :
    Extends (inferNode env infer id) (inferNode env infer' id) := by
  refine (Extends.refl _).bind fun e => ?_
  cases e.kind with
  | error | literal _ | str _ | lambda _ _ | var _ => exact .refl _
  | group inner => exact h inner
  | unary op operand => exact (h operand).bind fun _ => .refl _
  | binary op left right => exact (h left).bind fun _ => (h right).bind fun _ => .refl _
  | assign op target value => exact (h target).bind fun _ => (h value).bind fun _ => .refl _
  | call callee args mangled =>
    exact (Extends.refl _).bind fun _ => (extends_mapM h _).bind fun _ => .refl _
  | member object field =>
    refine (Extends.refl _).bind fun o => ?_
    cases typeNamed? env o with
    | some type => exact .refl _
    | none => exact (h object).bind fun _ => .refl _

/-- Inference that gets by with few levels is the same with more of them. -/
theorem extends_within {d d' : Nat} (hd : d ≤ d') (id : ExprId) :
    Extends (inferWithin env d id) (inferWithin env d' id) := by
  induction d generalizing d' id with
  | zero => exact fun s a s' h => by cases h
  | succ d ih =>
    obtain ⟨d', rfl⟩ : ∃ k, d' = k + 1 := ⟨d' - 1, by omega⟩
    exact (extends_node (fun id => ih (Nat.le_of_succ_le_succ hd) id) id).bind fun _ => .refl _

end Check

end FrontEnd
