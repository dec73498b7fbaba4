import FrontEnd.Proofs.Nesting.Productions
import FrontEnd.Proofs.Program.Typed

/-!
Declarations and statements are laid in a row as well, and with them whole programs: in a compiled
program spans nest, and folding keeps them.
-/

namespace FrontEnd

section

open Parse

variable {α β : Type} {text : String} {lo k : Nat} {s t : ParseState} {F : List Branch}
  {ids : List NodeId} {id : ExprId} {init value : Option ExprId} {name : Name}
  {declared type : TypeId} {isConst : Bool} {start : Span} {parse : Productions}

/-! ### Variables -/

namespace ParseState.Led

theorem variableType (h : s.Led text lo start F (init.toList.map .expr)) :
    Spares k F (variableType name declared init isConst start) s
      fun _ t => t.Led text lo start F (init.toList.map .expr) := by
  cases init with
  | some id => exact h.lift (spares_check (.initializer name declared) h.laid)
  | none =>
    cases isConst with
    | false => exact .pure h.laid.sound h
    | true =>
      refine h.before (idle_spanFrom start).leafless fun span t ht => ?_
      refine ht.before (idle_quote name).leafless fun quoted u hu => ?_
      exact hu.before (idle_report (by decide) ..).leafless fun _ v hv => .pure hv.laid.sound hv

theorem foldInitializer (h : s.Led text lo start F (init.toList.map .expr)) :
    Spares k F (foldInitializer init) s
      fun _ t => t.Led text lo start F (init.toList.map .expr) := by
  cases init with
  | some id => exact h.lift (spares_fold h.laid)
  | none => exact .pure h.laid.sound h

/-- The span of a variable ends with the semicolon. -/
theorem storeVariable (h : s.Led text lo start F (init.toList.map .expr)) :
    Spares 0 F (storeVariable name type init isConst start) s
      fun r t => t.Encloses text lo r.2.2 F (init.toList.map .expr) := by
  have hfinish : Spares 0 F (finishInitializer name init start) s
      fun r t => t.Encloses text lo r.2.2 F (init.toList.map .expr) := by
    refine h.foldInitializer.bind fun value t _ ht => ?_
    refine ht.before (idle_expect .semicolon).leafless fun _ u hu => ?_
    refine .reads (a := start.merge u.window.previous) rfl ?_
    exact hu.encloses.before (idle_declaredName name).leafless fun _ v hv =>
      .pure hv.laid.sound hv
  refine hfinish.bind fun r t _ ht => ?_
  exact ht.before (leafless_declareVariable ..) fun _ u hu => .pure hu.laid.sound hu

theorem variableDecl {declared : Option TypeId}
    (h : s.Led text lo start F (init.toList.map .expr)) :
    Spares 0 F (variableDecl name declared init isConst start) s
      fun id t => t.Laid text lo F [.stmt id] := by
  rw [variableDecl_eq]
  refine h.variableType.bind fun type t _ ht => ?_
  refine ht.storeVariable.bind fun r u _ hu => spares_addStmt hu trivial ?_
  cases init <;> rfl

/-! ### Ends of declarations and statements -/

theorem nativeEnd (signature : Option Signature) (h : s.Led text lo start F []) :
    Spares 0 F (nativeEnd name type signature start) s
      fun id t => t.Laid text lo F [.stmt id] := by
  refine h.before (idle_expect .semicolon).leafless fun _ t ht => ?_
  refine .reads (a := start.merge t.window.previous) rfl ?_
  cases signature with
  | none => exact spares_addStmt ht.encloses trivial rfl
  | some signature =>
    refine ht.encloses.before (idle_declaredName name).leafless fun stored u hu => ?_
    exact hu.before (leafless_declareFunction ..) fun mangled v hv => spares_addStmt hv trivial rfl

theorem closeType (h : s.Led text lo start F ids) :
    Spares k F (closeType start) s fun span t => t.Encloses text lo span F ids := by
  refine h.before (idle_expect .closeBrace).leafless fun _ t ht => ?_
  refine ht.before (idle_eat .semicolon).leafless fun _ u hu => ?_
  exact .reads (a := u.window.previous) rfl (.pure hu.laid.sound hu.encloses)

theorem closeStmt (h : s.Led text lo start F ids) :
    Spares k F (closeStmt start) s fun span t => t.Encloses text lo span F ids := by
  refine h.before (idle_expect .semicolon).leafless fun _ t ht => ?_
  exact .reads (a := t.window.previous) rfl (.pure ht.laid.sound ht.encloses)

theorem returnEnd (h : s.Led text lo start F (value.toList.map .expr)) :
    Spares 0 F (returnEnd start value) s fun id t => t.Laid text lo F [.stmt id] := by
  refine .reads (get_eq s) (h.before (idle_spanFrom start).leafless fun span t ht => ?_)
  have hend {u : ParseState} (hu : u.Led text lo start F (value.toList.map .expr)) :
      Spares 0 F (do addStmt (.ret value) (← Parse.closeStmt start)) u
        fun id t => t.Laid text lo F [.stmt id] := by
    refine hu.closeStmt.bind fun span v _ hv => spares_addStmt hv trivial ?_
    cases value <;> rfl
  cases value with
  | none => exact (ht.lift (spares_checkReturn span ht.laid)).bind fun _ u _ hu => hend hu
  | some id =>
    exact ht.completed (.ret _ span) fun _ _ u hu => hend hu

end ParseState.Led

namespace Parse.Laying

open ParseState

variable (h : Laying text parse)

include h

/-! ### Declarations -/

theorem bodyEnd (hs : s.Led text lo start F []) (stored mangled : Name) (type : TypeId) :
    Spares 0 F (bodyEnd parse stored mangled type start) s
      fun id t => t.Laid text lo F [.stmt id] := by
  refine (hs.stack fun _ _ hs => (h.functionBody hs type).mono (Nat.zero_le 1)).bind
    fun body t _ ht => ?_
  exact .reads (a := start.merge t.window.previous) rfl (spares_addStmt ht.encloses trivial rfl)

theorem functionEnd (hs : s.Led text lo start F []) (name : Name) (type : TypeId) :
    Spares 0 F (functionEnd parse name type start) s fun id t => t.Laid text lo F [.stmt id] := by
  refine hs.before (idle_declaredName name).leafless fun stored t ht => .reads (get_eq t) ?_
  refine ht.before (idle_ofFault _).leafless fun signature u hu => ?_
  cases signature with
  | some signature =>
    exact hu.before (leafless_declareFunction ..) fun mangled v hv => h.bodyEnd hv ..
  | none => exact h.bodyEnd hu ..

theorem functionDecl (hs : s.Led text lo start F []) (name : Name) (declared : Option TypeId) :
    Spares 0 F (functionDecl parse name declared start) s
      fun id t => t.Laid text lo F [.stmt id] := by
  refine hs.before idle_advance.leafless fun func t ht => ?_
  refine ht.before (leafless_signature h.leafless).weaken fun type u hu => ?_
  refine hu.before (idle_spanFrom _).leafless fun span v hv => ?_
  dsimp only
  split
  · refine .reads (get_eq v) (hv.before (idle_ofFault _).leafless fun same w hw => ?_)
    cases same with
    | true => exact h.functionEnd hw ..
    | false =>
      refine hw.before (idle_quote name).leafless fun _ w hw => ?_
      refine hw.before (idle_quoteType _).leafless fun _ w hw => ?_
      refine hw.before (idle_quoteType _).leafless fun _ w hw => ?_
      exact hw.before (idle_report (by decide) ..).leafless fun _ w hw => h.functionEnd hw ..
  · exact h.functionEnd hv ..

theorem native (hs : s.Laid text lo F []) :
    Spares 0 F (native parse) s fun id t => t.Laid text lo F [.stmt id] := by
  refine hs.opens takes_advance fun token t _ ht => ?_
  refine ht.before idle_expectName.leafless fun name t ht => ?_
  refine ht.before (idle_expect .colon).leafless fun _ t ht => ?_
  refine ht.before idle_currentSpan.leafless fun typeStart t ht => ?_
  refine ht.before (h.leafless .type trivial).weaken fun type u hu => ?_
  refine hu.before (idle_spanFrom _).leafless fun typeSpan v hv => .reads (get_eq v) ?_
  refine hv.before (idle_ofFault _).leafless fun signature w hw => ?_
  dsimp only
  split
  · refine hw.before (idle_quote _).leafless fun _ w hw => ?_
    refine hw.before (idle_quoteType _).leafless fun _ w hw => ?_
    exact hw.before (idle_report (by decide) ..).leafless fun _ w hw => hw.nativeEnd signature
  · exact hw.nativeEnd signature

theorem declarationEnd (hs : s.Led text lo start F []) (name : Name) (declared : Option TypeId)
    (isConst : Bool) :
    Spares 0 F (declarationEnd parse name declared isConst start) s
      fun id t => t.Laid text lo F [.stmt id] := by
  refine hs.before (idle_eat .equal).leafless fun equal t ht => ?_
  cases equal with
  | false => exact ht.variableDecl
  | true =>
    refine ht.before (idle_currentIs .kwFunc).leafless fun func u hu => ?_
    cases func with
    | true => exact h.functionDecl hu ..
    | false =>
      refine (hu.stack fun _ _ hs => h.value hs).bind fun init v _ hv => ?_
      exact ParseState.Led.variableDecl hv

/-- A declaration starts with its name or with a token in front of it. -/
theorem declaration (hs : s.Laid text lo F []) (hlo : lo ≤ start.start)
    (hstart : start.start ≤ s.window.current.span.start)
    (hstop : start.stop ≤ s.window.current.span.stop) (isConst : Bool) :
    Spares 0 F (declaration parse isConst start) s fun id t => t.Laid text lo F [.stmt id] := by
  refine hs.take takes_expectName fun r t htoken ht => ?_
  have hpast : t.window.Past start :=
    ⟨hstart.trans (htoken.eq ▸ htoken.past.start), hstop.trans (htoken.eq ▸ htoken.past.stop)⟩
  refine (ht.leads hlo hpast).before (idle_expect .colon).leafless fun _ t ht => ?_
  refine ht.before (idle_currentIs .equal).leafless fun untyped t ht => ?_
  cases untyped with
  | true => exact h.declarationEnd ht ..
  | false =>
    have htyped : Leafless 0 (some <$> parse .type) :=
      (h.leafless .type trivial).weaken.bind fun _ => leafless_pure _
    exact ht.before htyped fun declared u hu => h.declarationEnd hu ..

theorem constant (hs : s.Laid text lo F []) :
    Spares 0 F (constant parse) s fun id t => t.Laid text lo F [.stmt id] := by
  refine .reads (get_eq s) (hs.take takes_advance fun token t htoken ht => ?_)
  dsimp only
  split
  · have hlo := (Laid.nil_iff.1 hs).2.2.2.trans htoken.behind
    have hnext := ht.window.previous_le.2
    have hspan := ht.window.reads.current_le.1
    exact h.declaration ht hlo (htoken.past.start.trans (ht.window.previous_le.1.trans hnext))
      (htoken.past.stop.trans (hnext.trans hspan)) true
  · exact ht.expected (by decide) _

/-- Structs and enums are declared where they end. -/
theorem typeDecl {members : Production} {kind : members.Result → Name → TypeKind}
    {form : Name → TypeId → StmtKind} (hm : members.Leafless)
    (hform : form = .structDecl ∨ form = .enumDecl) (hs : s.Laid text lo F []) :
    Spares 0 F (typeDecl parse members kind form) s fun id t => t.Laid text lo F [.stmt id] := by
  refine hs.opens takes_advance fun token t _ ht => ?_
  refine ht.before idle_expectName.leafless fun name u hu => ?_
  refine hu.before (idle_expect .openBrace).leafless fun _ v hv => ?_
  refine hv.before (h.leafless members hm).weaken fun read w hw => ?_
  refine hw.closeType.bind fun span x _ hx => ?_
  refine hx.before (leafless_declareType name.1 (kind read) fun _ _ => rfl) fun r y hy => ?_
  rcases hform with rfl | rfl <;> exact spares_addStmt hy trivial rfl

theorem usingDecl (hs : s.Laid text lo F []) :
    Spares 0 F (usingDecl parse) s fun id t => t.Laid text lo F [.stmt id] := by
  refine hs.opens takes_advance fun token t _ ht => ?_
  refine ht.before idle_expectName.leafless fun first u hu => ?_
  refine hu.before (h.leafless (.path first.1) trivial).weaken fun path v hv => ?_
  refine hv.before (idle_expect .semicolon).leafless fun _ w hw => ?_
  refine .reads (a := token.span.merge w.window.previous) rfl ?_
  refine hw.encloses.before (idle_usingTarget path).leafless fun target x hx => ?_
  exact hx.before (leafless_pushUsing target) fun _ y hy => spares_addStmt hy trivial rfl

/-! ### Statements -/

/-- The semicolon stands behind the expression, so the statement reaches from one to the other. -/
theorem exprStmt (hs : s.Laid text lo F []) :
    Spares 0 F (exprStmt parse) s fun id t => t.Laid text lo F [.stmt id] := by
  refine ((h.expr hs .assign false).mono (Nat.zero_le 1)).bind fun id t _ ht => ?_
  refine ht.completed .infer fun _ _ u _ ⟨xs, hxs, hu⟩ => ?_
  obtain ⟨x, rfl, hx⟩ := List.map_eq_singleton_iff.1 hxs
  refine hu.take (takes_expect .semicolon) fun _ w htoken hw => ?_
  obtain ⟨e, ps, rfl, hrun⟩ := hw.exists_expr (List.mem_singleton_self x) hx
  obtain ⟨hlo, he, hstop⟩ : lo ≤ e.span.start ∧ e.span.start ≤ e.span.stop ∧
    e.span.stop ≤ u.window.previous.stop := hu.row
  have hled : w.Led text lo e.span F [.expr id] :=
    ⟨hlo, ⟨_, hxs, { hw with row := ⟨le_rfl, hw.row.2⟩ }⟩, htoken.past_before he hstop⟩
  refine .reads hrun (.reads (a := e.span.merge w.window.previous) rfl ?_)
  exact spares_addStmt hled.encloses trivial rfl

theorem returnStmt (hs : s.Laid text lo F []) :
    Spares 0 F (returnStmt parse) s fun id t => t.Laid text lo F [.stmt id] := by
  refine hs.opens takes_advance fun token t _ ht => ?_
  refine ht.before (idle_currentIs .semicolon).leafless fun empty u hu => ?_
  cases empty with
  | true => exact ParseState.Led.returnEnd hu
  | false =>
    have hread : Spares 0 F (parse .value) u fun id v => v.Led text lo token.span F [.expr id] :=
      hu.stack fun _ _ hs => h.value hs
    have hvalue : Spares 0 F (some <$> parse .value) u
        fun value v => v.Led text lo token.span F (value.toList.map .expr) := .map hread
    exact hvalue.bind fun value v _ hv => hv.returnEnd

theorem printStmt (hs : s.Laid text lo F []) :
    Spares 0 F (printStmt parse) s fun id t => t.Laid text lo F [.stmt id] := by
  refine hs.opens takes_advance fun token t _ ht => ?_
  refine (ht.stack fun _ _ hs => h.value hs).bind fun id u _ hu => ?_
  refine ParseState.Led.completed .print hu fun _ _ v hv => ?_
  exact hv.closeStmt.bind fun span w _ hw => spares_addStmt hw trivial rfl

theorem condition (hs : s.Laid text lo F []) :
    Spares 0 F (condition parse) s fun id t => t.Laid text lo F [.expr id] := by
  refine (h.value hs).bind fun id t _ ht => ?_
  exact ht.completed .condition fun _ _ u _ hu => .pure hu.sound hu

theorem ifStmt (hs : s.Laid text lo F []) :
    Spares 0 F (ifStmt parse) s fun id t => t.Laid text lo F [.stmt id] := by
  refine hs.opens takes_advance fun token t _ ht => ?_
  refine (ht.stack fun _ _ hs => h.condition hs).bind fun cond u _ hu => ?_
  refine (hu.stack fun _ _ hs => h.stmt hs).bind fun thenBranch v _ hv => ?_
  have hend {w : ParseState} (elseBranch : Option StmtId)
      (hw : w.Led text lo token.span F
        ([.expr cond, .stmt thenBranch] ++ elseBranch.toList.map .stmt)) : Spares 0 F
      (do addStmt (.cond cond thenBranch elseBranch) (← spanFrom token.span)) w
      fun id t => t.Laid text lo F [.stmt id] := by
    refine .reads (a := token.span.merge w.window.previous) rfl ?_
    refine spares_addStmt hw.encloses trivial ?_
    cases elseBranch <;> rfl
  refine hv.before (idle_eat .kwElse).leafless fun other w hw => ?_
  cases other with
  | false => exact hend none hw
  | true =>
    have hread : Spares 0 F (parse .stmt) w fun id x =>
        x.Led text lo token.span F ([.expr cond, .stmt thenBranch] ++ [.stmt id]) :=
      hw.stack fun _ _ hs => h.stmt hs
    have hother : Spares 0 F (some <$> parse .stmt) w fun elseBranch x =>
        x.Led text lo token.span F
          ([.expr cond, .stmt thenBranch] ++ elseBranch.toList.map .stmt) := .map hread
    exact hother.bind fun elseBranch x _ hx => hend elseBranch hx

theorem whileStmt (hs : s.Laid text lo F []) :
    Spares 0 F (whileStmt parse) s fun id t => t.Laid text lo F [.stmt id] := by
  refine hs.opens takes_advance fun token t _ ht => ?_
  refine (ht.stack fun _ _ hs => h.condition hs).bind fun cond u _ hu => ?_
  refine (hu.stack fun _ _ hs => h.stmt hs).bind fun body v _ hv => ?_
  refine .reads (a := token.span.merge v.window.previous) rfl ?_
  exact spares_addStmt hv.encloses trivial rfl

theorem doStmt (hs : s.Laid text lo F []) :
    Spares 0 F (doStmt parse) s fun id t => t.Laid text lo F [.stmt id] := by
  refine hs.opens takes_advance fun token t _ ht => ?_
  refine (ht.stack fun _ _ hs => h.stmt hs).bind fun body u _ hu => ?_
  refine hu.before idle_beginStatement.leafless fun _ v hv => ?_
  refine hv.before (idle_expect .kwWhile).leafless fun _ v hv => ?_
  refine (hv.stack fun _ _ hs => h.condition hs).bind fun cond w _ hw => ?_
  exact hw.closeStmt.bind fun span x _ hx => spares_addStmt hx trivial rfl

omit h in
theorem emptyStmt (hs : s.Laid text lo F []) :
    Spares 0 F emptyStmt s fun id t => t.Laid text lo F [.stmt id] := by
  refine hs.opens takes_advance fun token t htoken ht => ?_
  have hspan : t.Encloses text lo token.span F (([] : List StmtId).map .stmt) := ht.token htoken.le
  exact spares_listStmt (.inl rfl) hspan

theorem statement (hs : s.Laid text lo F []) :
    Spares 0 F (statement parse) s fun id t => t.Laid text lo F [.stmt id] := by
  refine hs.before idle_beginStatement.leafless fun _ t _ ht => ?_
  refine .reads (a := t.window.current) rfl ?_
  split
  · exact h.returnStmt ht
  · exact h.printStmt ht
  · exact h.ifStmt ht
  · exact h.whileStmt ht
  · exact h.doStmt ht
  · exact (h.block ht).mono (Nat.zero_le 1)
  · exact structDecl_eq parse ▸ h.typeDecl trivial (.inl rfl) ht
  · exact enumDecl_eq parse ▸ h.typeDecl trivial (.inr rfl) ht
  · exact h.namespaceDecl ht
  · exact h.usingDecl ht
  · exact h.native ht
  · exact h.constant ht
  · exact emptyStmt ht
  · refine .reads (a := t.window.next.kind == .colon) rfl ?_
    cases t.window.next.kind == .colon with
    | true =>
      refine .reads (a := t.window.current.span) rfl ?_
      have hlo := (Laid.nil_iff.1 ht).2.2.2.trans ht.window.previous_le.2
      exact h.declaration ht hlo le_rfl le_rfl false
    | false => exact h.exprStmt ht
  · exact h.exprStmt ht

/-! ### Programs -/

/-- Where storage runs out, a program ends with what was read. -/
theorem afterStmt {r : Except Stop StmtId} (hs : Settled text lo F r s) (hsound : s.Sound)
    (start : Span) :
    Spares 0 F (afterStmt parse start r) s fun ids t => t.Laid text lo F (ids.map .stmt) := by
  cases r with
  | ok id =>
    refine (ParseState.Laid.stack hs fun lo F hs => h.lays .program lo F _ hs).bind
      fun ids t _ ht => ?_
    exact .pure ht.sound ht
  | error stop =>
    cases stop with
    | reported =>
      exact (hs nofun).before (idle_synchronize start).leafless fun _ _ _ ht =>
        h.lays .program lo F _ ht
    | exhausted cause =>
      exact (hs nofun).before (idle_reportExhausted cause).leafless fun _ _ _ ht =>
        .pure ht.sound ht
    | fault f => exact .throw hsound fun he => absurd rfl (he f)

theorem program (hs : s.Laid text lo F []) :
    Spares 0 F (program parse) s fun ids t => t.Laid text lo F (ids.map .stmt) := by
  refine hs.before idle_atEnd.leafless fun atEnd t _ ht => ?_
  cases atEnd with
  | true => exact .pure ht.sound ht
  | false =>
    refine ht.before idle_truncated.leafless fun truncated u _ hu => ?_
    cases truncated with
    | true => exact .pure hu.sound hu
    | false =>
      refine hu.before idle_currentSpan.leafless fun start v _ hv => ?_
      exact (h.settles hv).bind fun _ _ ho hx => h.afterStmt hx ho.sound start

/-! ### All productions -/

theorem step : Laying text (step parse) where
  leafless := leafless_step h.leafless
  lays q lo F s hs := by
    cases q with
    | expr least isValue => exact h.expression hs least isValue
    | infixes left least isValue => exact h.readInfixes hs least isValue
    | args => exact h.readArgs hs
    | stmt => exact h.statement hs
    | items => exact h.readItems hs
    | program => exact h.program hs
    | type => exact hs.leafless (leafless_typeName h.leafless)
    | params => exact hs.leafless (leafless_params h.leafless)
    | fields done => exact hs.leafless (leafless_fields h.leafless done)
    | variants => exact hs.leafless (leafless_variants h.leafless)
    | path name => exact hs.leafless (leafless_path h.leafless name)

end Parse.Laying

/-- Where no production is gone through, there is only a fault. -/
theorem laying_within (text : String) (depth : Nat) : Laying text (within depth) := by
  induction depth with
  | zero =>
    refine ⟨fun q _ => ⟨?_, keeps_throw fun _ => rfl⟩, fun q lo F s hs => ?_⟩
    · exact keeps_throw fun s hs => ⟨hs.refl _, nofun⟩
    · exact .throw hs.sound fun he => absurd rfl (he .endless)
  | succ depth ih => exact ih.step

theorem laying_program (hs : s.Laid text lo F []) :
    Spares 0 F (production .program) s fun ids t => t.Laid text lo F (ids.map .stmt) :=
  .reads (get_eq s) ((laying_within text _).lays .program lo F s hs)

end

/-! ### Nesting -/

namespace Tree

variable {t : Tree} {ids : List NodeId} {size : Nat} {ks : List Nat} {id : ExprId}

/-- Every node below these handles is live, and its span lies in a text of this size. It encloses
the spans of the children, which stand one behind the other in the order of the text. So do the
spans of the handles themselves. -/
structure Nests (t : Tree) (ids : List NodeId) (size : Nat) : Prop where
  live : ∀ ks id, t.Path ids ks id → ∃ node, t.node? id = some node
  inside : ∀ ks id node, t.Path ids ks id → t.node? id = some node →
    node.span.start ≤ node.span.stop ∧ node.span.stop ≤ size
  encloses : ∀ ks id node, t.Path ids ks id → t.node? id = some node →
    ∀ i ∈ t.children node, ∀ child, t.node? i = some child →
      node.span.start ≤ child.span.start ∧ child.span.stop ≤ node.span.stop
  apart : ∀ ks id node, t.Path ids ks id → t.node? id = some node →
    (node.inOrder (t.children node)).Pairwise fun i j => ∀ m n, t.node? i = some m →
      t.node? j = some n → m.span.stop ≤ n.span.start
  roots : ids.Pairwise fun i j => ∀ m n, t.node? i = some m → t.node? j = some n →
    m.span.stop ≤ n.span.start

/-- What is left of a tree after expressions below these handles were folded: any of them, one after
the other, and with any values of constants. -/
inductive Refolded (t : Tree) (ids : List NodeId) : Tree → Prop
  | none : Refolded t ids t
  | fold {u w : Tree} {ks : List Nat} {id : ExprId} {f : Folder} {depth : Nat} {v : Option Value} :
    Refolded t ids u → u.Path ids ks (.expr id) → f.fold depth id u = .ok v w → Refolded t ids w

/-- Handles of branches that stand in a row in a text of this size. -/
def Aligned (t : Tree) (ids : List NodeId) (size : Nat) : Prop :=
  ∃ bs, bs.map Branch.root = ids ∧ t.Holds bs ∧ (∀ b ∈ bs, b.Nested) ∧
    Span.Row 0 (bs.map Branch.extent) size

/-- What stands one behind the other in a row of branches does so in the tree. -/
theorem Holds.pairwise {bs ps : List Branch} {lo hi : Nat} (h : t.Holds bs)
    (hps : ps ⊆ Branch.allIn bs) (hrow : Span.Row lo (ps.map Branch.extent) hi) :
    (ps.map Branch.root).Pairwise fun i j => ∀ m n, t.node? i = some m → t.node? j = some n →
      m.span.stop ≤ n.span.start := by
  rw [List.pairwise_map]
  refine (List.pairwise_map.1 hrow.pairwise).imp_of_mem fun hb hc hle m n hm hn => ?_
  obtain rfl := Option.some.inj ((h.stores _ (hps hb)).node.symm.trans hm)
  obtain rfl := Option.some.inj ((h.stores _ (hps hc)).node.symm.trans hn)
  exact hle

theorem Aligned.nests (h : t.Aligned ids size) : t.Nests ids size := by
  obtain ⟨bs, rfl, hholds, hnested, hrow⟩ := h
  have hmem {ks : List Nat} {id : NodeId} {node : Node} (hp : t.Path (bs.map Branch.root) ks id)
      (hn : t.node? id = some node) : ∃ a ∈ bs, ∃ ps, ⟨id, node, ps⟩ ∈ a.all := by
    obtain ⟨⟨root, node', ps⟩, hb, rfl⟩ := List.mem_map.1 (hholds.mem_roots_of_path hp)
    obtain rfl := Option.some.inj ((hholds.stores _ hb).node.symm.trans hn)
    obtain ⟨a, ha, hb⟩ := Branch.mem_allIn.1 hb
    exact ⟨a, ha, ps, hb⟩
  refine ⟨hholds.forest.live, fun ks id node hp hn => ?inside, fun ks id node hp hn => ?encloses,
    fun ks id node hp hn => ?apart, hholds.pairwise (fun b hb => ?roots) hrow⟩
  case inside =>
    obtain ⟨a, ha, ps, hb⟩ := hmem hp hn
    have hstop := ((hnested a ha).all hb).2
    exact ⟨((hnested a ha).of_mem hb).le,
      hstop.trans (hrow.mem (List.mem_map_of_mem ha)).2.2⟩
  case encloses =>
    obtain ⟨a, ha, ps, hb⟩ := hmem hp hn
    have hall := Branch.mem_allIn.2 ⟨a, ha, hb⟩
    intro i hi child hc
    rw [(hholds.stores _ hall).children] at hi
    obtain ⟨p, hpart, rfl⟩ := List.mem_map.1 hi
    have hstores := hholds.stores p (Branch.parts_subset_allIn hall hpart)
    obtain rfl := Option.some.inj (hstores.node.symm.trans hc)
    exact (((hnested a ha).of_mem hb).of_part hpart).2
  case apart =>
    obtain ⟨a, ha, ps, hb⟩ := hmem hp hn
    have hall := Branch.mem_allIn.2 ⟨a, ha, hb⟩
    rw [(hholds.stores _ hall).children, Node.inOrder_map]
    refine hholds.pairwise (fun p hpart => ?_) (Node.inOrder_map .. ▸ hnested a ha _ hb)
    exact Branch.parts_subset_allIn hall ((node.inOrder_perm ps).mem_iff.1 hpart)
  case roots => exact Branch.mem_allIn.2 ⟨b, hb, b.mem_all_self⟩

/-- Folding an expression of a row succeeds, and moves nothing. -/
theorem Aligned.fold (h : t.Aligned ids size) (hp : t.Path ids ks (.expr id)) (f : Folder)
    (depth : Nat) : ∃ v u, f.fold depth id t = .ok v u ∧ u.Aligned ids size := by
  obtain ⟨bs, rfl, hholds, hnested, hrow⟩ := h
  obtain ⟨b, hb, hroot⟩ := List.mem_map.1 (hholds.mem_roots_of_path hp)
  obtain ⟨a, ha, hba⟩ := Branch.mem_allIn.1 hb
  obtain ⟨hole, rfl⟩ := Branch.exists_plug hb
  have hmeets : Meets (f.fold depth id) t _ _ := Folder.meets_fold hole hholds hroot
  cases hrun : f.fold depth id t with
  | error e u => exact (hmeets.of_error hrun).elim
  | ok v u =>
    obtain ⟨c, hturns, hfolds, -⟩ := hmeets.of_ok hrun
    have hc := hfolds.nested ((hnested a ha).of_mem hba)
    obtain ⟨hextents, hall⟩ := Branch.nested_plug hfolds.extent_eq hc hnested
    exact ⟨v, u, rfl, _, Branch.map_root_plug hole hfolds.root_eq, hturns.holds, hall,
      hextents ▸ hrow⟩

end Tree

namespace Compilation

open Parse

variable {text : String} {settings : Settings} {c : Compilation} {u : Tree}

/-- The statements of a compiled program stand in a row. -/
theorem aligned (h : ofText text settings = .ok c) :
    c.tree.Aligned (c.items.map .stmt) text.utf8ByteSize := by
  obtain ⟨s, t, hs, hrun, htree, -⟩ := exists_compiled h
  have hlaid : s.Laid text 0 [] [] := by
    obtain ⟨n, hn, -⟩ := (Window.ofText text).skipErrors_eq
    exact ParseState.Laid.nil_iff.2 ⟨hs.sound, ⟨n, hs.window.trans (congrArg Prod.snd hn)⟩,
      hs.sound.tree.holds_nil, Nat.zero_le _⟩
  obtain ⟨-, bs, hbs, ht⟩ := (laying_program hlaid).meets.of_ok hrun
  have hend := ht.window.previous_le.2
  obtain ⟨hle, hsize, -⟩ := ht.window.reads.current_le
  rw [htree]
  exact ⟨bs, hbs, by simpa using ht.holds, ht.nested,
    ht.row.mono le_rfl (hend.trans (hle.trans hsize))⟩

/-- Under all settings, spans nest in a compiled program. They do so as well after any expressions
of it are folded, which always succeeds. -/
theorem spans_nest (h : ofText text settings = .ok c)
    (hu : c.tree.Refolded (c.items.map .stmt) u) :
    u.Nests (c.items.map .stmt) text.utf8ByteSize ∧
      ∀ ks id, u.Path (c.items.map .stmt) ks (.expr id) → ∀ (f : Folder) (depth : Nat),
        ∃ v w, f.fold depth id u = .ok v w := by
  have haligned : u.Aligned (c.items.map .stmt) text.utf8ByteSize := by
    induction hu with
    | none => exact aligned h
    | fold _ hp hrun ih =>
      obtain ⟨v, w, hfold, hw⟩ := ih.fold hp _ _
      rw [hfold] at hrun
      cases hrun
      exact hw
  refine ⟨haligned.nests, fun ks id hp f depth => ?_⟩
  obtain ⟨v, w, hfold, -⟩ := haligned.fold hp f depth
  exact ⟨v, w, hfold⟩

/-- A constant lies inside its declaration, also after it is folded once more. -/
theorem constant_nests : ∃ c ks id v u, ofText "const N := 5;" Settings.standard = .ok c ∧
    c.tree.Path (c.items.map .stmt) ks (.expr id) ∧ Folder.empty.fold 0 id c.tree = .ok v u ∧
      u.Nests (c.items.map .stmt) 13 := by
  obtain ⟨c, ks, id, hc, -, hp⟩ := exists_constant true
  obtain ⟨v, u, hfold⟩ := (spans_nest hc .none).2 ks id hp .empty 0
  exact ⟨c, ks, id, v, u, hc, hp, hfold, (spans_nest hc (.fold .none hp hfold)).1⟩

end Compilation

end FrontEnd
