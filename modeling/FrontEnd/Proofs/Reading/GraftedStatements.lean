import FrontEnd.Proofs.Grammar.Frames
import FrontEnd.Proofs.Grammar.Termination
import FrontEnd.Proofs.Program.Forests
import FrontEnd.Proofs.Reading.GraftedDeclarations

/-!
Productions of statements and programs, and the recursion through all productions: every production
that is started on the way through a text is started in the course of reading, and so is every state
in which one ends.
-/

namespace FrontEnd

section

open Parse

variable {α β : Type} {o s t : ParseState} {k : Nat} {F ys : List Branch} {x y : Branch}
  {id : ExprId} {value : Option ExprId} {parse parse' : Productions} {S : β → ParseState → Prop}

/-! ### Complete expressions -/

/-- A complete expression is checked and then folded. -/
theorem grafts_complete {p : Env → Check α} {f f' : α → Option Value → Parse β}
    (hp : Completes id p) (h : o.Bears [x] F s) (hx : x.root = .expr id)
    (hf : ∀ a v y t, y.root = .expr id → o.Bears [] (y :: F) t →
      Grafts o k F (f a v) (f' a v) t S) :
    Grafts o k F (check p >>= fun a => fold id >>= f a) (check p >>= fun a => fold id >>= f' a)
      s S := by
  refine (grafts_check hp h hx).bind fun a t _ ⟨_, y, hy, _, ht⟩ => ?_
  exact (grafts_fold ht hy).bind fun v u _ ⟨⟨z, hz, hu⟩, _⟩ => hf a v z u hz hu

/-- Without a value there is nothing to look at. -/
theorem grafts_checkReturn {expected : Option TypeId} (span : Span) (h : o.Bears [] F s) :
    Grafts o k F (check fun env => Check.checkReturn env none expected span)
      (check fun env => Check.checkReturn env none expected span) s fun _ t => o.Bears [] F t := by
  refine .ofTree h.reading (fun _ => steady_check fun _ => Check.steady_checkReturn ..)
    (meets_check (meets_intro (fun _ u hrun => ?_) fun f u _ => ⟨⟨rfl, rfl, rfl, rfl⟩, nofun⟩))
  have hsupplies (type : TypeId) (_ : expected = some type) :
      s.env.Supplies (fun _ => True) type := .lambda trivial
  have hblind := Check.blind_checkReturn h.reading.sound.reports span hsupplies
  obtain ⟨-, r, rfl, -⟩ := (hblind.together s.tree s.tree).of_ok hrun
  exact ⟨⟨rfl, rfl, rfl, rfl⟩, fun _ hr => ⟨hr, h.holds, nofun⟩⟩

theorem grafts_returnEnd (start : Span) (h : o.Bears ys F s)
    (hys : ys.map Branch.root = value.toList.map .expr) :
    Grafts o 0 F (returnEnd start value) (returnEnd start value) s (o.BearsStmt F) := by
  refine .reads (get_eq s) (h.before (idle_spanFrom start) fun span t _ ht => ?_)
  cases value with
  | none =>
    obtain rfl : ys = [] := List.map_eq_nil_iff.1 hys
    refine (grafts_checkReturn span ht).bind fun _ u _ hu => ?_
    exact hu.before (idle_closeStmt start) fun span v _ hv =>
      grafts_addStmt [] span hv.reading hv.holds trivial rfl
  | some id =>
    obtain ⟨x, rfl, hx⟩ := List.map_eq_singleton_iff.1 hys
    refine grafts_complete (.ret _ span) ht hx fun _ v y u hy hu => ?_
    exact ParseState.Bears.before_end [y] hu (idle_closeStmt start) fun span v hv =>
      grafts_addStmt [y] span hv.reading hv.holds trivial (by simp [hy]; rfl)

/-! ### Statements -/

namespace Parse.Grafting

variable (h : Grafting o parse parse')

include h

theorem exprStmt (hs : o.Bears [] F s) :
    Grafts o 0 F (exprStmt parse) (exprStmt parse') s (o.BearsStmt F) := by
  refine ((h.expr hs .assign false).mono (Nat.zero_le 1)).bind fun id t _ ⟨x, hx, ht⟩ => ?_
  refine grafts_complete .infer ht hx fun _ _ y u hy hu => ?_
  refine ParseState.Bears.before_end [y] hu (idle_expect .semicolon) fun _ v hv => ?_
  refine ParseState.Bears.before_end [y] hv (idle_expr id) fun e w hw => ?_
  exact ParseState.Bears.before_end [y] hw (idle_spanFrom _) fun span w hw =>
    grafts_addStmt [y] span hw.reading hw.holds trivial (by simp [hy]; rfl)

theorem returnStmt (hs : o.Bears [] F s) :
    Grafts o 0 F (returnStmt parse) (returnStmt parse') s (o.BearsStmt F) := by
  refine hs.before idle_advance fun token t _ ht => ?_
  refine ht.before (idle_currentIs .semicolon) fun empty u _ hu => ?_
  cases empty with
  | true => exact grafts_returnEnd _ hu rfl
  | false =>
    have hvalue : Grafts o 0 F (some <$> parse .value) (some <$> parse' .value) u fun value v =>
        ∃ ys : List Branch, ys.map Branch.root = value.toList.map .expr ∧ o.Bears ys F v :=
      (((h.expr hu .assign true).mono (Nat.zero_le 1)).imp fun id v _ ⟨y, hy, hv⟩ =>
        ⟨[y], by simp [hy], hv⟩).map
    exact hvalue.bind fun value v _ ⟨ys, hys, hv⟩ => grafts_returnEnd _ hv hys

theorem printStmt (hs : o.Bears [] F s) :
    Grafts o 0 F (printStmt parse) (printStmt parse') s (o.BearsStmt F) := by
  refine hs.before idle_advance fun token t _ ht => ?_
  refine ((h.expr ht .assign true).mono (Nat.zero_le 1)).bind fun id u _ ⟨x, hx, hu⟩ => ?_
  refine grafts_complete .print hu hx fun _ _ y v hy hv => ?_
  exact ParseState.Bears.before_end [y] hv (idle_closeStmt _) fun span w hw =>
    grafts_addStmt [y] span hw.reading hw.holds trivial (by simp [hy]; rfl)

theorem condition (hs : o.Bears [] F s) :
    Grafts o 0 F (condition parse) (condition parse') s fun id t =>
      ∃ y : Branch, y.root = .expr id ∧ o.Bears [] (y :: F) t := by
  refine ((h.expr hs .assign true).mono (Nat.zero_le 1)).bind fun id t _ ⟨x, hx, ht⟩ => ?_
  exact grafts_complete .condition ht hx fun _ _ y u hy hu => .pure hu.reading ⟨y, hy, hu⟩

theorem ifStmt (hs : o.Bears [] F s) :
    Grafts o 0 F (ifStmt parse) (ifStmt parse') s (o.BearsStmt F) := by
  refine hs.before idle_advance fun token t _ ht => ?_
  refine (h.condition ht).bind fun cond u _ ⟨x, hx, hu⟩ => ?_
  refine ((h.stmt hu).frame [x]).bind fun thenBranch v _ ⟨y, hy, hv⟩ => ?_
  have hend {w : ParseState} {elseBranch : Option StmtId} (zs : List Branch)
      (hzs : zs.map Branch.root = elseBranch.toList.map .stmt)
      (hw : o.Bears [] (zs ++ y :: x :: F) w) : Grafts o 0 F
      (do addStmt (.cond cond thenBranch elseBranch) (← spanFrom token.span))
      (do addStmt (.cond cond thenBranch elseBranch) (← spanFrom token.span)) w
      (o.BearsStmt F) := by
    have hperm : (zs ++ [y, x]).Perm ([x, y] ++ zs) :=
      List.perm_append_comm.trans ((List.Perm.swap x y []).append_right zs)
    have hholds : w.tree.Holds ([x, y] ++ zs ++ F) :=
      hw.holds.perm (by simpa using hperm.append_right F)
    refine .reads (a := token.span.merge w.window.previous) rfl ?_
    refine grafts_addStmt ([x, y] ++ zs) _ hw.reading hholds trivial ?_
    rw [List.map_append, hzs, List.map_cons, List.map_singleton, hx, hy]
    cases elseBranch <;> rfl
  refine ParseState.Bears.before_end [y, x] hv (idle_eat .kwElse) fun other w hw => ?_
  cases other with
  | false => exact hend [] rfl hw
  | true =>
    have hstmt : Grafts o 0 F (some <$> parse .stmt) (some <$> parse' .stmt) w fun id v =>
        ∃ zs : List Branch, zs.map Branch.root = id.toList.map .stmt ∧
          o.Bears [] (zs ++ y :: x :: F) v :=
      (((h.stmt hw).frame [y, x]).imp fun id v _ ⟨z, hz, hv⟩ => ⟨[z], by simp [hz], hv⟩).map
    exact hstmt.bind fun elseBranch v _ ⟨zs, hzs, hv⟩ => hend zs hzs hv

theorem whileStmt (hs : o.Bears [] F s) :
    Grafts o 0 F (whileStmt parse) (whileStmt parse') s (o.BearsStmt F) := by
  refine hs.before idle_advance fun token t _ ht => ?_
  refine (h.condition ht).bind fun cond u _ ⟨x, hx, hu⟩ => ?_
  refine ((h.stmt hu).frame [x]).bind fun body v _ ⟨y, hy, hv⟩ => ?_
  refine .reads (a := token.span.merge v.window.previous) rfl ?_
  exact grafts_addStmt [x, y] _ hv.reading hv.holds.swap trivial (by simp [hx, hy]; rfl)

theorem doStmt (hs : o.Bears [] F s) :
    Grafts o 0 F (doStmt parse) (doStmt parse') s (o.BearsStmt F) := by
  refine hs.before idle_advance fun token t _ ht => ?_
  refine (h.stmt ht).bind fun body u _ ⟨y, hy, hu⟩ => ?_
  refine ParseState.Bears.before_end [y] hu idle_beginStatement fun _ v hv => ?_
  refine ParseState.Bears.before_end [y] hv (idle_expect .kwWhile) fun _ v hv => ?_
  refine ((h.condition hv).frame [y]).bind fun cond w _ ⟨x, hx, hw⟩ => ?_
  exact ParseState.Bears.before_end [x, y] hw (idle_closeStmt _) fun span w hw =>
    grafts_addStmt [x, y] span hw.reading hw.holds trivial (by simp [hx, hy]; rfl)

omit h in
theorem emptyStmt (hs : o.Bears [] F s) :
    Grafts o 0 F emptyStmt emptyStmt s (o.BearsStmt F) :=
  hs.before idle_advance fun token _ _ ht =>
    grafts_listStmt [] token.span (.inl rfl) ⟨[], rfl, ht⟩

theorem statement (hs : o.Bears [] F s) :
    Grafts o 0 F (statement parse) (statement parse') s (o.BearsStmt F) := by
  refine hs.before idle_beginStatement fun _ t _ ht => ?_
  refine ht.before idle_current fun token u _ hu => ?_
  split
  · exact h.returnStmt hu
  · exact h.printStmt hu
  · exact h.ifStmt hu
  · exact h.whileStmt hu
  · exact h.doStmt hu
  · exact (h.block hu).mono (Nat.zero_le 1)
  · exact h.structDecl hu
  · exact h.enumDecl hu
  · exact h.namespaceDecl hu
  · exact h.usingDecl hu
  · exact h.native hu
  · exact h.constant hu
  · exact emptyStmt hu
  · refine hu.before (idle_nextIs .colon) fun colon v _ hv => ?_
    cases colon with
    | true => exact hv.before idle_currentSpan fun start w _ hw => h.declaration hw false start
    | false => exact h.exprStmt hv
  · exact h.exprStmt hu

/-! ### Programs -/

omit h in
theorem grafts_reportExhausted (cause : StorageError) (hr : o.Reading s) :
    Grafts o 0 F (reportExhausted cause) (reportExhausted cause) s fun _ t => o.Reading t := by
  have hidle := idle_reportExhausted cause
  have hfault : Meets (reportExhausted cause) s (fun _ _ => True) fun e _ => e ≠ .reported :=
    meets_bind_of_ok rfl (meets_bind_of_ok rfl (meets_bind_of_ok rfl (Meets.bind
      (R := fun _ _ => True) (meets_ofFault (fun _ _ => trivial) fun _ _ => nofun)
      fun _ _ _ => meets_set trivial)))
  refine ⟨rfl, meets_intro (fun _ t hrun => ?_) fun e t hrun => ?_⟩
  · have ho := (hidle.steady 0).ok hrun hr.sound
    exact ⟨ho, hr.onto ho (hidle.still.ok hrun).toSameTables⟩
  · have ho := ((hidle.steady 0).error hrun hr.sound).1
    exact ⟨ho, hr.onto ho (hidle.still.error hrun).toSameTables,
      fun he => absurd he (hfault.of_error hrun)⟩

theorem afterStmt (start : Span) {r : Except Stop StmtId} (hs : o.Caught F (o.BearsStmt F) r s) :
    Grafts o 0 F (afterStmt parse start r) (afterStmt parse' start r) s fun _ t => o.Reading t := by
  cases r with
  | ok id =>
    obtain ⟨y, hy, hs⟩ := hs
    refine Grafts.bind ((h .program (y :: F) s hs).frame [y]) fun ids t _ ht => ?_
    exact .pure ht ht
  | error stop =>
    obtain ⟨hr, hF⟩ := hs
    cases stop with
    | reported =>
      have hs : o.Bears [] F s := ⟨hr, hF rfl, nofun⟩
      exact hs.before (idle_synchronize start) fun _ t _ ht => h .program F t ht
    | exhausted cause =>
      exact (grafts_reportExhausted cause hr).bind fun _ t _ ht => .pure ht ht
    | fault f => exact .throw hr nofun

theorem program (hs : o.Bears [] F s) :
    Grafts o 0 F (program parse) (program parse') s fun _ t => o.Reading t := by
  refine hs.before idle_atEnd fun atEnd t _ ht => ?_
  cases atEnd with
  | true => exact .pure ht.reading ht.reading
  | false =>
    refine ht.before idle_truncated fun truncated u _ hu => ?_
    cases truncated with
    | true => exact .pure hu.reading hu.reading
    | false =>
      refine hu.before idle_currentSpan fun start v _ hv => ?_
      exact (h.stmt hv).attempt.bind fun _ _ _ hx => h.afterStmt start hx

/-! ### All productions -/

theorem step : Grafting o (step parse) (step parse') := by
  intro q F s hs
  cases q with
  | expr least isValue => exact h.expression hs least isValue
  | infixes left least isValue => exact h.readInfixes hs least isValue
  | args => exact h.readArgs hs
  | type => exact h.typeName hs
  | params => exact h.params hs
  | stmt => exact h.statement hs
  | items => exact h.readItems hs
  | fields done => exact h.fields hs done
  | variants => exact h.variants hs
  | path name => exact h.path hs name
  | program => exact h.program hs

end Parse.Grafting

theorem Production.Ready.reading {q : Production} (h : q.Ready o F s) : o.Reading s := by
  cases q with
  | infixes =>
    obtain ⟨y, -, h⟩ := h
    exact h.reading
  | _ => exact ParseState.Bears.reading h

theorem grafting_within (o : ParseState) (depth : Nat) :
    Grafting o (within depth) (within depth) := by
  induction depth with
  | zero => exact fun q F s hs => .throw hs.reading nofun
  | succ depth ih => exact ih.step

theorem grafting_production (o : ParseState) : Grafting o production production :=
  fun q F s hs => (grafting_within o _ q F s hs).congr rfl rfl

end

/-! ### Starts -/

section

open Parse

variable {text : String} {settings : Settings} {o s t : ParseState} {c c' : Start}

/-- At first nothing is declared. -/
theorem ParseState.Opens.reading (h : s.Opens text settings) : s.Reading s := by
  have hf : s.symbols.Furnished s.types s.names s.window.Late True := h.furnished
  obtain ⟨n, hn, -⟩ := (Window.ofText text).skipErrors_eq
  exact {
    sound := h.sound
    text := ⟨text, h.window ▸ hn ▸ (Window.reads_ofText text).drop n⟩
    basics := hf.basics
    anchored := hf.basic
    plain := hf.plain
    named := fun key type hk => (hf.named key type hk).2
    tracked := fun key v hv => by
      rw [h.folder, Folder.bindingAt_empty] at hv
      cases hv
    course := ⟨[], .start⟩ }

/-- What a production calls is ready: else the call could not matter. -/
theorem Parse.Calls.ready (h : Calls c c') (hc : ∃ F, c.1.Ready o F c.2) :
    ∃ F, c'.1.Ready o F c'.2 := by
  obtain ⟨parse, hsame, hne⟩ := h
  obtain ⟨F, hc⟩ := hc
  by_contra hnot
  have hgrafting : Grafting o parse production := by
    intro q G t ht
    refine (grafting_production o q G t ht).congr (hsame q t ?_) rfl
    rintro rfl
    exact hnot ⟨G, ht⟩
  have hsound := hc.reading.sound
  exact hne ((hgrafting.step c.1 F c.2 hc).same.trans (production_eq_step c.1 hsound).symm)

theorem Parse.Started.ready (h : Started text settings c) :
    ∃ o : ParseState, o.Opens text settings ∧ ∃ F, c.1.Ready o F c.2 := by
  induction h with
  | first h =>
    have hopens := ParseState.ofText_eq_ok.1 h
    exact ⟨_, hopens, [], hopens.reading, hopens.sound.tree.holds_nil,
      nofun⟩
  | call _ h ih =>
    obtain ⟨o, hopens, hready⟩ := ih
    exact ⟨o, hopens, h.ready hready⟩

theorem Production.Grafted.reading {F : List Branch} {q : Production} {a : q.Result}
    (h : q.Grafted o F a t) : o.Reading t := by
  cases q with
  | expr | infixes | args | stmt | items =>
    obtain ⟨y, -, h⟩ := h
    exact h.reading
  | type => exact h.1.reading
  | program => exact h
  | _ => exact ParseState.Bears.reading h

/-- Where a production starts and where it ends, the tables of variables and constants agree. -/
theorem Parse.Started.reading (h : Started text settings c)
    (ht : t = c.2 ∨ Reaches (production c.1) c.2 t) :
    ∃ o : ParseState, o.Opens text settings ∧ o.Reading t := by
  obtain ⟨o, hopens, F, hready⟩ := h.ready
  refine ⟨o, hopens, ?_⟩
  have hmeets := (grafting_production o c.1 F c.2 hready).meets
  rcases ht with rfl | ⟨a, ha⟩ | ⟨e, he⟩
  · exact hready.reading
  · exact (hmeets.of_ok ha).2.reading
  · exact (hmeets.of_error he).2.1

end

end FrontEnd
