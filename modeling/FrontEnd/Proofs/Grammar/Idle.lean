import FrontEnd.Proofs.Grammar.SteadyStatements

/-! Steps of reading that take tokens, report and intern names, and do nothing else. -/

namespace FrontEnd

namespace ParseState

variable {s t u : ParseState}

/-- The types are the same, and so are the declarations of types, variables and constants. -/
structure SameTables (s t : ParseState) : Prop where
  types : t.types = s.types
  typeNames : t.symbols.types = s.symbols.types
  vars : t.symbols.vars = s.symbols.vars
  folder : t.folder = s.folder

/-- The tree is the same as well. -/
structure Still (s t : ParseState) : Prop extends SameTables s t where
  tree : t.tree = s.tree

theorem SameTables.trans (h : s.SameTables t) (h' : t.SameTables u) : s.SameTables u where
  types := h'.types.trans h.types
  typeNames := h'.typeNames.trans h.typeNames
  vars := h'.vars.trans h.vars
  folder := h'.folder.trans h.folder

theorem Still.refl (s : ParseState) : s.Still s := ⟨⟨rfl, rfl, rfl, rfl⟩, rfl⟩

theorem Still.trans (h : s.Still t) (h' : t.Still u) : s.Still u :=
  ⟨h.toSameTables.trans h'.toSameTables, h'.tree.trans h.tree⟩

instance : Std.Refl Still := ⟨Still.refl⟩

instance : Trans Still Still Still := ⟨Still.trans⟩

end ParseState

namespace Parse

open ParseState

variable {α β : Type} {p : Parse α} {f : α → Parse β}

/-- A steady step that leaves all this as it is, however it ends. -/
structure Idle (p : Parse α) : Prop where
  steady (k : Nat) : Steady k p
  still : Keeps Still (fun s _ t => s.Still t) p

theorem Idle.bind (h : Idle p) (hf : ∀ a, Idle (f a)) : Idle (p >>= f) :=
  ⟨fun k => (h.steady k).bind fun a => (hf a).steady k, h.still.bind fun a => (hf a).still⟩

theorem idle_pure (a : α) : Idle (pure a : Parse α) := ⟨fun _ => keeps_pure a, keeps_pure a⟩

theorem idle_of_reads (h : ∀ s, ∃ a, p s = .ok a s) : Idle p :=
  ⟨fun _ => keeps_of_reads h, keeps_of_reads h⟩

theorem idle_get : Idle (get : Parse ParseState) := ⟨fun _ => keeps_get, keeps_get⟩

/-! ### Tokens -/

theorem idle_current : Idle current := idle_of_reads fun _ => ⟨_, rfl⟩

theorem idle_currentIs (kind : TokenKind) : Idle (currentIs kind) := idle_of_reads fun _ => ⟨_, rfl⟩

theorem idle_nextIs (kind : TokenKind) : Idle (nextIs kind) := idle_of_reads fun _ => ⟨_, rfl⟩

theorem idle_atEnd : Idle atEnd := idle_of_reads fun _ => ⟨_, rfl⟩

theorem idle_currentSpan : Idle currentSpan := idle_of_reads fun _ => ⟨_, rfl⟩

theorem idle_spanFrom (start : Span) : Idle (spanFrom start) := idle_of_reads fun _ => ⟨_, rfl⟩

theorem idle_truncated : Idle truncated := idle_of_reads fun _ => ⟨_, rfl⟩

theorem idle_advance : Idle advance :=
  ⟨fun _ => steady_advance, ⟨fun s => meets_of_ok (advance_eq s) ⟨⟨rfl, rfl, rfl, rfl⟩, rfl⟩⟩⟩

theorem idle_eat (kind : TokenKind) : Idle (eat kind) := by
  refine (idle_currentIs kind).bind fun is => ?_
  cases is with
  | true => exact idle_advance.bind fun _ => idle_pure _
  | false => exact idle_pure _

/-! ### Reports -/

theorem idle_ofFault (r : Except Fault α) : Idle (ofFault r) := by
  refine ⟨fun _ => steady_ofFault r, ?_⟩
  cases r with
  | ok a => exact keeps_pure _
  | error f => exact keeps_throw Still.refl

theorem idle_report {code : ErrorCode} (hcode : code.stage ≠ .lexer) (span : Span)
    (message label : String) : Idle (report code span message label) := by
  refine ⟨fun _ => steady_report hcode span message label, keeps_get_bind fun s => ?_⟩
  cases s.reports.emitSpanned (Report.on code message span label) s.lines with
  | ok reports => exact meets_set ⟨⟨rfl, rfl, rfl, rfl⟩, rfl⟩
  | error f => exact meets_throw (.refl s)

theorem idle_reject {code : ErrorCode} (hcode : code.stage ≠ .lexer) (message label : String) :
    Idle (reject (α := α) code message label) :=
  ⟨fun _ => steady_reject hcode message label,
    ⟨fun _ => meets_of_error (e := .reported) rfl ⟨⟨rfl, rfl, rfl, rfl⟩, rfl⟩⟩⟩

theorem idle_expected {code : ErrorCode} (hcode : code.stage ≠ .lexer) (wanted : String) :
    Idle (expected (α := α) code wanted) :=
  idle_current.bind fun _ => idle_reject hcode _ _

theorem idle_unexpected (wanted : String) : Idle (unexpected (α := α) wanted) :=
  idle_expected (by decide) _

theorem idle_expect (kind : TokenKind) : Idle (expect kind) := by
  refine (idle_currentIs kind).bind fun is => ?_
  cases is with
  | true => exact idle_advance
  | false => exact idle_unexpected _

theorem idle_beginStatement : Idle beginStatement :=
  ⟨fun _ => steady_beginStatement, keeps_modify fun _ => ⟨⟨rfl, rfl, rfl, rfl⟩, rfl⟩⟩

theorem idle_reportExhausted (cause : StorageError) : Idle (reportExhausted cause) :=
  idle_beginStatement.bind fun _ => idle_currentSpan.bind fun _ => idle_report (by decide) ..

/-! ### Names -/

theorem idle_intern (text : String) : Idle (intern text) := by
  refine ⟨fun _ => steady_intern text, keeps_get_bind fun s => ?_⟩
  cases s.names.intern text with
  | ok r => exact meets_of_ok (a := r.1) rfl ⟨⟨rfl, rfl, rfl, rfl⟩, rfl⟩
  | error e => exact meets_throw (.refl s)

theorem idle_quote (name : Name) : Idle (quote name) := idle_of_reads fun _ => ⟨_, rfl⟩

theorem idle_quoteType (type : TypeId) : Idle (quoteType type) :=
  idle_get.bind fun _ => (idle_ofFault _).bind fun _ => idle_pure _

theorem idle_expectName : Idle expectName := by
  refine (idle_currentIs .ident).bind fun is => ?_
  cases is with
  | true =>
    refine idle_advance.bind fun token => idle_get.bind fun _ => ?_
    exact (idle_intern _).bind fun _ => idle_pure _
  | false => exact idle_expected (by decide) _

theorem idle_qualify (outer name : Name) : Idle (qualify outer name) := by
  refine ⟨fun _ => steady_qualify outer name, keeps_get_bind fun s => ?_⟩
  cases Qualified.make s.names s.scratch outer name with
  | ok r => exact meets_of_ok (a := r.1) rfl ⟨⟨rfl, rfl, rfl, rfl⟩, rfl⟩
  | error e => exact meets_throw (.refl s)

theorem idle_declaredName (name : Name) : Idle (declaredName name) := by
  refine idle_get.bind fun s => ?_
  split
  · exact idle_qualify ..
  · exact idle_pure _

theorem idle_paramName : Idle paramName := by
  refine (idle_currentIs .ident).bind fun named => ?_
  cases named with
  | true => exact idle_expectName.bind fun _ => idle_pure _
  | false => exact idle_pure _

theorem idle_usingTarget (path : Name) : Idle (usingTarget path) := idle_of_reads fun _ => ⟨_, rfl⟩

/-! ### Nodes and statements -/

theorem idle_expr (id : ExprId) : Idle (expr id) := idle_get.bind fun _ => idle_ofFault _

theorem idle_closeStmt (start : Span) : Idle (closeStmt start) :=
  (idle_expect .semicolon).bind fun _ => idle_spanFrom start

theorem idle_closeType (start : Span) : Idle (closeType start) :=
  (idle_expect .closeBrace).bind fun _ => (idle_eat .semicolon).bind fun _ => idle_spanFrom _

/-! ### Recovery -/

theorem idle_skipToBoundary (limit : Nat) : Idle (skipToBoundary limit) := by
  induction limit with
  | zero => exact idle_pure _
  | succ limit ih =>
    refine idle_current.bind fun token => ?_
    dsimp only
    split
    · exact idle_advance.bind fun _ => idle_pure _
    · split
      · exact idle_advance.bind fun _ => ih
      · exact idle_pure _

theorem idle_synchronize (start : Span) : Idle (synchronize start) := by
  refine idle_currentSpan.bind fun span => idle_atEnd.bind fun atEnd => ?_
  dsimp only
  split
  · exact idle_advance.bind fun _ => idle_get.bind fun _ => idle_skipToBoundary _
  · exact idle_get.bind fun _ => idle_skipToBoundary _

end Parse

end FrontEnd
