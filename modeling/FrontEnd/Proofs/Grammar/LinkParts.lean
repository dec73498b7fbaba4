import FrontEnd.Proofs.Grammar.LinkSteps
import FrontEnd.Proofs.Grammar.Reading
import FrontEnd.Proofs.Name.ComposedTexts

/-! The small steps of reading, taken in two linked runs. -/

namespace FrontEnd

namespace Link

open Parse

variable {l : Link} {α β : Type} {es es' : List Entry} {x : Entry} {s₁ s₂ t₁ t₂ : ParseState}
  {p : Parse α} {R : α → α → ParseState → ParseState → Prop}

/-! ### Looking -/

/-- What both runs see without changing anything. -/
theorem firm_read {a : α} (h₁ : p s₁ = .ok a s₁) (h₂ : p s₂ = .ok a s₂) :
    l.Firm es p p s₁ s₂ fun x y t₁ t₂ => x = a ∧ y = a ∧ s₁ = t₁ ∧ s₂ = t₂ :=
  .ok h₁ h₂ ⟨rfl, rfl, rfl, rfl⟩

theorem firm_current (h : s₁.Same s₂) : l.Firm es current current s₁ s₂ fun a b t₁ t₂ =>
    a = s₁.window.current ∧ a = b ∧ s₁ = t₁ ∧ s₂ = t₂ :=
  .ok rfl rfl ⟨rfl, by rw [h.window], rfl, rfl⟩

theorem firm_currentIs (h : s₁.Same s₂) (k : TokenKind) :
    l.Firm es (currentIs k) (currentIs k) s₁ s₂ fun a b t₁ t₂ =>
      a = b ∧ s₁ = t₁ ∧ s₂ = t₂ ∧ (a = true ↔ s₁.window.current.kind = k) :=
  .ok rfl rfl ⟨by rw [h.window], rfl, rfl, by simp [Window.currentIs]⟩

theorem firm_nextIs (h : s₁.Same s₂) (k : TokenKind) :
    l.Firm es (nextIs k) (nextIs k) s₁ s₂ fun a b t₁ t₂ =>
      a = b ∧ s₁ = t₁ ∧ s₂ = t₂ ∧ (a = true ↔ s₁.window.next.kind = k) :=
  .ok rfl rfl ⟨by rw [h.window], rfl, rfl, by simp⟩

theorem firm_atEnd (h : s₁.Same s₂) : l.Firm es atEnd atEnd s₁ s₂ fun a b t₁ t₂ =>
    a = b ∧ s₁ = t₁ ∧ s₂ = t₂ ∧ a = s₁.window.atEnd :=
  .ok rfl rfl ⟨by rw [h.window], rfl, rfl, rfl⟩

theorem firm_truncated (h : s₁.Same s₂) : l.Firm es truncated truncated s₁ s₂ fun a b t₁ t₂ =>
    a = b ∧ s₁ = t₁ ∧ s₂ = t₂ :=
  .ok rfl rfl ⟨by rw [h.reports], rfl, rfl⟩

theorem firm_currentSpan (h : s₁.Same s₂) :
    l.Firm es currentSpan currentSpan s₁ s₂ fun a b t₁ t₂ =>
      a = b ∧ s₁ = t₁ ∧ s₂ = t₂ :=
  .ok rfl rfl ⟨by rw [h.window], rfl, rfl⟩

theorem firm_spanFrom (h : s₁.Same s₂) (start : Span) :
    l.Firm es (spanFrom start) (spanFrom start) s₁ s₂ fun a b t₁ t₂ =>
      a = b ∧ s₁ = t₁ ∧ s₂ = t₂ :=
  .ok rfl rfl ⟨by rw [h.window], rfl, rfl⟩

theorem firm_quote (h : s₁.Same s₂) (name : Name) :
    l.Firm es (quote name) (quote name) s₁ s₂ fun a b t₁ t₂ =>
      a = b ∧ s₁ = t₁ ∧ s₂ = t₂ :=
  .ok rfl rfl ⟨by rw [h.names], rfl, rfl⟩

/-! ### Parting -/

theorem onto_last_of_loud {k : Nat} (hp : Loud k p) (hs : s₁.Sound)
    (hpos : 0 < s₁.reports.reports.size) : s₁.Onto k (last (p s₁)) := by
  cases hrun : p s₁ with
  | ok a t => exact hp.ok hrun hs hpos
  | error e t => exact hp.error hrun hs hpos

theorem last_sound {k : Nat} (hp : Steady k p) (hs : s₁.Sound) : (last (p s₁)).Sound := by
  cases hrun : p s₁ with
  | ok a t => exact (hp.ok hrun hs).sound
  | error e t => exact (hp.error hrun hs).1.sound

section

variable {f : Unit → Parse α} (code : ErrorCode) (span : Span) (message label : String)

/-- A run that reports something ends in a fault, or the report stays. -/
theorem report_parts (hs : s₁.Sound) (hf : ∀ u, Loud 0 (f u)) :
    (∃ fault t, (report code span message label >>= f) s₁ = .error (.fault fault) t) ∨
      0 < (last ((report code span message label >>= f) s₁)).reports.reports.size := by
  cases he : s₁.reports.emitSpanned (Report.on code message span label) s₁.lines with
  | error fault =>
    refine .inl ⟨fault, s₁, bind_of_error ?_⟩
    unfold report
    rw [bind_of_ok (get_eq s₁), he]
    rfl
  | ok reports =>
    obtain ⟨r, rfl⟩ := Queue.emitSpanned_ok he
    have hrun : report code span message label s₁ =
        .ok ⟨⟩ { s₁ with reports := s₁.reports.add r } := by
      unfold report
      rw [bind_of_ok (get_eq s₁), he]
      rfl
    have hsound : ParseState.Sound { s₁ with reports := s₁.reports.add r } :=
      { hs with reports := hs.reports.add r }
    have hpos := hs.reports.size_add_pos r
    rw [bind_of_ok hrun]
    exact .inr (hpos.trans_le (onto_last_of_loud (hf ⟨⟩) hsound hpos).reports)

/-- Only the first run reports something. -/
theorem parts_first (hparts : l.parts) (hs₁ : s₁.Sound) (hs₂ : s₂.Sound)
    (hf : ∀ u, Loud 0 (f u)) (hp : Steady 0 p) (hcode : code.stage ≠ .lexer) :
    l.Pair es (report code span message label >>= f) p s₁ s₂ R := by
  rcases report_parts code span message label hs₁ hf with ⟨fault, t, hrun⟩ | hpos
  · exact .firm (.first hrun hparts)
  · exact .apart ⟨last_sound (steady_report_bind hcode hf) hs₁, last_sound hp hs₂, hparts,
      .inl hpos⟩

/-- Only the second run reports something. -/
theorem parts_second (hparts : l.parts) (hs₁ : s₁.Sound) (hs₂ : s₂.Sound)
    (hf : ∀ u, Loud 0 (f u)) (hp : Steady 0 p) (hcode : code.stage ≠ .lexer) :
    l.Pair es p (report code span message label >>= f) s₁ s₂ R := by
  rcases report_parts code span message label hs₂ hf with ⟨fault, t, hrun⟩ | hpos
  · exact .firm (.second hrun hparts)
  · exact .apart ⟨last_sound hp hs₁, last_sound (steady_report_bind hcode hf) hs₂, hparts,
      .inr hpos⟩

end

section

variable [l.Moves]

omit [l.Moves] in
theorem firm_ofFault {r : Except Fault α} (hr : Faults r l.fails) :
    l.Firm es (ofFault r) (ofFault r) s₁ s₂ fun a b t₁ t₂ =>
      r = .ok a ∧ a = b ∧ s₁ = t₁ ∧ s₂ = t₂ := by
  cases r with
  | ok a => exact .ok rfl rfl ⟨rfl, rfl, rfl, rfl⟩
  | error f => exact .fault rfl rfl (hr f rfl)

theorem firm_quoteType {type : TypeId} (h : l.Rel es s₁ s₂) (hk : l.knows type s₁) :
    l.Firm es (quoteType type) (quoteType type) s₁ s₂ fun a b t₁ t₂ =>
      a = b ∧ s₁ = t₁ ∧ s₂ = t₂ := by
  refine firm_get_bind ?_
  rw [← h.same.types, ← h.same.names]
  refine (firm_ofFault (faults_describe (Moves.known hk) _)).bind ?_
  rintro a _ _ _ ⟨-, rfl, rfl, rfl⟩
  exact firm_pure ⟨rfl, rfl, rfl⟩

/-! ### Tokens -/

theorem Rel.advanced (h : l.Rel es s₁ s₂) : l.At es s₁ s₁.window.after s₁.advanced s₂.advanced := by
  have h₁ : s₁.advanced = s₁.glide s₁.window.after s₁.names
      (s₁.window.bump.skipErrors.1.foldl reportToken s₁.reports) := rfl
  have h₂ : s₂.advanced = s₂.glide s₁.window.after s₁.names
      (s₁.window.bump.skipErrors.1.foldl reportToken s₁.reports) := by
    simp only [ParseState.advanced, ParseState.glide, h.same.window, h.same.names, h.same.reports,
      Window.after]
  have ho₁ := onto_advanced h.sound₁ 1
  have ho₂ := onto_advanced h.sound₂ 1
  rw [h₁] at ho₁
  rw [h₂] at ho₂
  rw [h₁, h₂]
  exact h.glide _ _ _ (.inr rfl) ho₁ ho₂

theorem firm_advance (h : l.Rel es s₁ s₂) : l.Firm es advance advance s₁ s₂ fun a b t₁ t₂ =>
    a = s₁.window.current ∧ a = b ∧ l.At es s₁ s₁.window.after t₁ t₂ :=
  .ok (advance_eq s₁) (advance_eq s₂) ⟨rfl, by rw [h.same.window], h.advanced⟩

theorem firm_eat (h : l.Rel es s₁ s₂) (k : TokenKind) :
    l.Firm es (eat k) (eat k) s₁ s₂ fun a b t₁ t₂ =>
      a = b ∧ l.At es s₁ t₁.window t₁ t₂ ∧ (a = true ↔ s₁.window.current.kind = k) ∧
        (a = true → t₁.window = s₁.window.after) := by
  refine (firm_currentIs h.same k).bind ?_
  rintro is _ _ _ ⟨rfl, rfl, rfl, hk⟩
  cases is with
  | true =>
    refine (firm_advance h).bind ?_
    rintro _ _ t₁ t₂ ⟨-, -, ht⟩
    exact firm_pure ⟨rfl, { ht with window := rfl }, hk, fun _ => ht.window⟩
  | false => exact firm_pure ⟨rfl, h.here, hk, by simp⟩

/-! ### Reports -/

/-- Another queue of reports in both runs. -/
theorem Rel.reports {reports : Queue} (h : l.Rel es s₁ s₂) (hq : reports.Sound)
    (ha : s₁.reports.Accounts [] reports) (hp : s₁.KeepsPlaces reports) :
    l.At es s₁ s₁.window { s₁ with reports } { s₂ with reports } := by
  have hp₂ : s₂.KeepsPlaces reports := by
    rw [ParseState.KeepsPlaces, ← h.same.window, ← h.same.lines, ← h.same.reports]
    exact hp
  have ho₁ := h.sound₁.onto_reports hq ha hp 1
  have ho₂ := h.sound₂.onto_reports hq (h.same.reports ▸ ha) hp₂ 1
  have := h.glide s₁.window s₁.names reports (.inl rfl) ho₁
    (by simpa only [ParseState.glide, h.same.window, h.same.names] using ho₂)
  simpa only [ParseState.glide, h.same.window, h.same.names] using this

theorem firm_reject (h : l.Rel es s₁ s₂) {code : ErrorCode}
    (hcode : code.stage ≠ .lexer) (message label : String) :
    l.Firm es (reject code message label) (reject code message label) s₁ s₂ R := by
  have hq := h.sound₁.reports.add ((Report.on code message s₁.window.current.span label).placed
    s₁.window.current.line s₁.window.current.col)
  have ht := h.reports hq (s₁.reports.accounts_add hcode)
    fun hw hp => hp.add (hw.current.report _ _ _)
  refine .stop rfl ?_ ht.rel.rel (h.sound₁.reports.size_add_pos _)
  rw [h.same.window, h.same.reports]
  rfl

theorem firm_expected (h : l.Rel es s₁ s₂) {code : ErrorCode}
    (hcode : code.stage ≠ .lexer) (wanted : String) :
    l.Firm es (expected code wanted) (expected code wanted) s₁ s₂ R := by
  refine (firm_current h.same).bind ?_
  rintro _ _ _ _ ⟨rfl, rfl, rfl, rfl⟩
  exact firm_reject h hcode _ _

theorem firm_unexpected (h : l.Rel es s₁ s₂) (wanted : String) :
    l.Firm es (unexpected wanted) (unexpected wanted) s₁ s₂ R := firm_expected h (by decide) ..

theorem firm_expect (h : l.Rel es s₁ s₂) (k : TokenKind) :
    l.Firm es (expect k) (expect k) s₁ s₂ fun a b t₁ t₂ =>
      a = s₁.window.current ∧ a = b ∧ l.At es s₁ s₁.window.after t₁ t₂ := by
  refine (firm_currentIs h.same k).bind ?_
  rintro is _ _ _ ⟨rfl, rfl, rfl, -⟩
  cases is with
  | true => exact firm_advance h
  | false => exact firm_unexpected h _

/-- More names in both runs. -/
theorem Rel.names {names : Interner} (h : l.Rel es s₁ s₂) (hn : names.Sound)
    (hg : s₁.names.Grows names) :
    l.At es s₁ s₁.window { s₁ with names } { s₂ with names } := by
  have ho₁ := h.sound₁.onto_names hn hg 1
  have ho₂ := h.sound₂.onto_names hn (h.same.names ▸ hg) 1
  have := h.glide s₁.window names s₁.reports (.inl rfl) ho₁
    (by simpa only [ParseState.glide, h.same.window, h.same.reports] using ho₂)
  simpa only [ParseState.glide, h.same.window, h.same.reports] using this

theorem firm_report (h : l.Rel es s₁ s₂) {code : ErrorCode} (hcode : code.stage ≠ .lexer)
    (span : Span) (message label : String) :
    l.Firm es (report code span message label) (report code span message label) s₁ s₂
      fun _ _ t₁ t₂ => l.At es s₁ s₁.window t₁ t₂ ∧ 0 < t₁.reports.reports.size := by
  refine firm_get_bind ?_
  have hsame : s₂.reports.emitSpanned (Report.on code message span label) s₂.lines =
      s₁.reports.emitSpanned (Report.on code message span label) s₁.lines := by
    rw [h.same.reports, h.same.lines]
  rw [hsame]
  refine (firm_ofFault (Queue.faults_emitSpanned (fun _ => Moves.overflow) _ _ _)).bind ?_
  rintro reports _ _ _ ⟨hr, rfl, rfl, rfl⟩
  have hp : s₁.KeepsPlaces reports := fun _ hq => hq.emitSpanned hr
  obtain ⟨line, col, rfl, -⟩ := Queue.emitSpanned_placed hr
  exact .ok rfl rfl ⟨h.reports (h.sound₁.reports.add _) (s₁.reports.accounts_add hcode) hp,
    h.sound₁.reports.size_add_pos _⟩

theorem firm_beginStatement (h : l.Rel es s₁ s₂) :
    l.Firm es beginStatement beginStatement s₁ s₂ fun _ _ t₁ t₂ =>
      l.At es s₁ s₁.window t₁ t₂ := by
  have hrun : beginStatement s₂ = .ok ⟨⟩ { s₂ with reports := s₁.reports.beginStatement } := by
    rw [h.same.reports]
    rfl
  exact .ok rfl hrun (h.reports h.sound₁.reports.beginStatement
    s₁.reports.accounts_beginStatement fun _ hq => hq)

/-! ### Names -/

theorem firm_ofStorage (h : l.Rel es s₁ s₂) (r : Except StorageError α) :
    l.Firm es (ofStorage r) (ofStorage r) s₁ s₂ fun a b t₁ t₂ =>
      r = .ok a ∧ a = b ∧ s₁ = t₁ ∧ s₂ = t₂ := by
  cases r with
  | ok a => exact .ok rfl rfl ⟨rfl, rfl, rfl, rfl⟩
  | error e => exact .first rfl (Moves.owns h.rel).1

theorem firm_intern (h : l.Rel es s₁ s₂) (text : String) :
    l.Firm es (intern text) (intern text) s₁ s₂ fun a b t₁ t₂ =>
      a = b ∧ l.At es s₁ s₁.window t₁ t₂ ∧ t₁.names.Has a text := by
  refine firm_get_bind ?_
  have hsame : s₂.names.intern text = s₁.names.intern text := by rw [h.same.names]
  rw [hsame]
  refine (firm_ofStorage h _).bind ?_
  rintro ⟨name, names⟩ _ _ _ ⟨hi, rfl, rfl, rfl⟩
  obtain ⟨hn, hhas, hg⟩ := h.sound₁.names.intern hi
  exact .ok rfl rfl ⟨rfl, h.names hn hg, hhas⟩

/-- An identifier is taken: its name and where it stood. -/
theorem firm_expectName (h : l.Rel es s₁ s₂) :
    l.Firm es expectName expectName s₁ s₂ fun a b t₁ t₂ =>
      a = b ∧ l.At es s₁ s₁.window.after t₁ t₂ ∧ s₁.window.current.kind = .ident ∧
        t₁.names.Has a.1 (s₁.window.lexeme s₁.window.current) := by
  refine (firm_currentIs h.same .ident).bind ?_
  rintro is _ _ _ ⟨rfl, rfl, rfl, hk⟩
  cases is with
  | false => exact firm_expected h (by decide) ..
  | true =>
    refine (firm_advance h).bind ?_
    rintro _ _ t₁ t₂ ⟨rfl, rfl, ht⟩
    refine firm_get_bind ?_
    have hsource : t₁.window.lexeme s₁.window.current = s₁.window.lexeme s₁.window.current := by
      obtain ⟨n, hn⟩ := ht.onto.window
      rw [Window.lexeme, hn, Window.source_drop, Window.lexeme]
    rw [← ht.rel.same.window, hsource]
    refine (firm_intern ht.rel _).bind ?_
    rintro name _ u₁ u₂ ⟨rfl, hu, hhas⟩
    exact firm_pure ⟨rfl, ht.trans hu, hk.1 rfl, hhas⟩

theorem firm_qualify (h : l.Rel es s₁ s₂) (outer name : Name) :
    l.Firm es (qualify outer name) (qualify outer name) s₁ s₂ fun a b t₁ t₂ =>
      a = b ∧ l.At es s₁ s₁.window t₁ t₂ ∧
        t₁.names.Has a (s₁.names.lookup outer ++ "::" ++ s₁.names.lookup name) := by
  refine firm_get_bind ?_
  have hsame : Qualified.make s₂.names s₂.scratch outer name =
      Qualified.make s₁.names s₁.scratch outer name := by
    rw [h.same.names, h.same.scratch]
  rw [hsame]
  refine (firm_ofStorage h _).bind ?_
  rintro ⟨n, names⟩ _ _ _ ⟨hm, rfl, rfl, rfl⟩
  obtain ⟨hn, hg⟩ := sound_make h.sound₁.names hm
  exact .ok rfl rfl ⟨rfl, h.names hn hg, Qualified.has_make h.sound₁.names hm⟩

/-- A declaration stores the name bare or qualified. -/
theorem firm_declaredName (h : l.Rel es s₁ s₂) {text : String} {name : Name}
    (hn : s₁.names.Has name text) :
    l.Firm es (declaredName name) (declaredName name) s₁ s₂ fun a b t₁ t₂ =>
      a = b ∧ l.At es s₁ s₁.window t₁ t₂ ∧
        ∃ stored, t₁.names.Has a stored ∧
          (stored = text ∨ ∃ outer, stored = outer ++ "::" ++ text) := by
  refine firm_get_bind ?_
  rw [← h.same.scope]
  cases s₁.scope.namespace? with
  | none => exact firm_pure ⟨rfl, h.here, text, hn, .inl rfl⟩
  | some outer =>
    refine (firm_qualify h outer name).imp ?_
    rintro a b t₁ t₂ ⟨hb, ht, hhas⟩
    rw [hn.lookup] at hhas
    exact ⟨hb, ht, _, hhas, .inr ⟨_, rfl⟩⟩

/-! ### Recovery -/

theorem firm_skipToBoundary (h : l.Rel es s₁ s₂) (limit : Nat) :
    l.Firm es (skipToBoundary limit) (skipToBoundary limit) s₁ s₂ fun _ _ t₁ t₂ =>
      l.Rel es t₁ t₂ := by
  induction limit generalizing s₁ s₂ with
  | zero => exact firm_pure h
  | succ limit ih =>
    refine (firm_current h.same).bind ?_
    rintro _ _ _ _ ⟨rfl, rfl, rfl, rfl⟩
    dsimp only
    split
    · refine (firm_advance h).bind ?_
      rintro _ _ t₁ t₂ ⟨-, -, ht⟩
      exact firm_pure ht.rel
    · split
      · refine (firm_advance h).bind ?_
        rintro _ _ t₁ t₂ ⟨-, -, ht⟩
        exact ih ht.rel
      · exact firm_pure h

theorem firm_synchronize (h : l.Rel es s₁ s₂) (start : Span) :
    l.Firm es (synchronize start) (synchronize start) s₁ s₂ fun _ _ t₁ t₂ => l.Rel es t₁ t₂ := by
  have hskip {t₁ t₂ : ParseState} (ht : l.Rel es t₁ t₂) : l.Firm es
      (do skipToBoundary (← get).window.unread) (do skipToBoundary (← get).window.unread) t₁ t₂
      fun _ _ t₁ t₂ => l.Rel es t₁ t₂ := by
    refine firm_get_bind ?_
    rw [← ht.same.window]
    exact firm_skipToBoundary ht _
  refine (firm_currentSpan h.same).bind ?_
  rintro span _ _ _ ⟨rfl, rfl, rfl⟩
  refine (firm_atEnd h.same).bind ?_
  rintro ended _ _ _ ⟨rfl, rfl, rfl, -⟩
  dsimp only
  split
  · refine (firm_advance h).bind ?_
    rintro _ _ t₁ t₂ ⟨-, -, ht⟩
    exact hskip ht.rel
  · exact hskip h

end

end Link

end FrontEnd
