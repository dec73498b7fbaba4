import FrontEnd.Grammar.State
import FrontEnd.Proofs.Report.QueueGrowth
import FrontEnd.Proofs.Token.Lines

/-!
Lexical errors in the queue of reports. Whatever else is reported, the queue is not empty after an
error token; and without a ceiling it holds one report for each error token, in their order. Every
report stands where its primary label starts, since the tokens do.
-/

namespace FrontEnd

/-- The report of an error token. -/
def Token.report? (t : Token) : Option Report :=
  t.error.map fun e =>
    (Report.on (.lexical e) e.message t.span e.message).placed t.line t.col

namespace Queue

variable {p q : Queue} {r : Report} {es es' : List Token} {t : Token}

/-- The reports of lexical errors, the first first. -/
def lexical (q : Queue) : List Report := q.reports.toList.filter (·.code.stage == .lexer)

/-- There is no ceiling, and none was met. -/
def Endless (q : Queue) : Prop := q.config.errorLimit = 0 ∧ q.truncated = false

/-- `p` is `q` after these error tokens, among other things, were reported. -/
structure Accounts (q : Queue) (es : List Token) (p : Queue) : Prop where
  size_le : q.reports.size ≤ p.reports.size
  nonempty : (∃ t ∈ es, t.error ≠ none) → 0 < p.reports.size
  endless : q.Endless → p.Endless
  /-- Without a ceiling no report is lost, unless one like it was there. -/
  lexical : q.Endless → ((q.lexical ++ es.filterMap Token.report?).map Report.place).Nodup →
    p.lexical = q.lexical ++ es.filterMap Token.report?

namespace Accounts

theorem refl (q : Queue) : q.Accounts [] q where
  size_le := Nat.le_refl _
  nonempty := by simp
  endless h := h
  lexical _ _ := by simp

theorem trans {o : Queue} (h : q.Accounts es p) (h' : p.Accounts es' o) :
    q.Accounts (es ++ es') o where
  size_le := h.size_le.trans h'.size_le
  nonempty := by
    rintro ⟨t, ht, herror⟩
    rcases List.mem_append.1 ht with ht | ht
    · exact (h.nonempty ⟨t, ht, herror⟩).trans_le h'.size_le
    · exact h'.nonempty ⟨t, ht, herror⟩
  endless hq := h'.endless (h.endless hq)
  lexical hq hnodup := by
    rw [List.filterMap_append, ← List.append_assoc] at hnodup ⊢
    have hfirst := h.lexical hq (hnodup.sublist ((List.sublist_append_left _ _).map _))
    rw [← hfirst] at hnodup ⊢
    exact h'.lexical (h.endless hq) hnodup

end Accounts

theorem accounts_beginStatement (q : Queue) : q.Accounts [] q.beginStatement :=
  { Accounts.refl q with }

/-- Where there is no ceiling, a report is queued unless it is held back or repeats another. -/
theorem Endless.add (h : q.Endless) (r : Report) : (q.add r).Endless ∧
    ((q.add r).reports = q.reports ∧ (q.latched = true ∨ q.isDuplicate r = true) ∨
      (q.add r).reports = q.reports.push r) := by
  obtain ⟨hlimit, ht⟩ := h
  unfold Queue.add
  by_cases hl : q.latched = true
  · simp [Endless, hlimit, ht, hl]
  · by_cases hd : (q.config.deduplicate && q.isDuplicate r) = true
    · rw [if_neg (by simp [ht]), if_neg hl, if_pos hd]
      exact ⟨⟨hlimit, ht⟩, .inl ⟨rfl, .inr (Bool.and_eq_true_iff.1 hd).2⟩⟩
    · simp [Endless, ht, hl, hd, limitReached, hlimit]

/-- A report that is not held back is queued, or one of its code is there already. -/
theorem Endless.exists_code (h : q.Endless) (hl : q.latched = false) (r : Report) :
    ∃ s ∈ (q.add r).reports, s.code = r.code := by
  rcases (h.add r).2 with ⟨hsame, hheld | hdup⟩ | hpush
  · cases hl.symm.trans hheld
  · obtain ⟨s, hs, hcode⟩ := Array.any_eq_true'.1 hdup
    simp only [Bool.and_eq_true, beq_iff_eq] at hcode
    exact ⟨s, hsame ▸ hs, hcode.1.1⟩
  · exact ⟨r, hpush ▸ Array.mem_push_self, rfl⟩

/-- A report of another stage leaves those of lexical errors alone. -/
theorem accounts_add (q : Queue) (hr : r.code.stage ≠ .lexer) : q.Accounts [] (q.add r) where
  size_le := q.size_le_add r
  nonempty := by simp
  endless h := (h.add r).1
  lexical h _ := by
    have hcode : (r.code.stage == .lexer) = false := beq_eq_false_iff_ne.2 hr
    rcases (h.add r).2 with ⟨hsame, -⟩ | hpush
    · simp [lexical, hsame]
    · simp [lexical, hpush, hcode]

/-- A report of a lexical error repeats only another one. -/
theorem isDuplicate_lexical (hd : q.isDuplicate r = true) (hr : r.code.stage = .lexer) :
    r.place ∈ q.lexical.map Report.place := by
  obtain ⟨s, hs, hsame⟩ := Array.any_eq_true'.1 hd
  simp only [Bool.and_eq_true, beq_iff_eq] at hsame
  obtain ⟨⟨hcode, hline⟩, hcol⟩ := hsame
  refine List.mem_map.2 ⟨s, List.mem_filter.2 ⟨hs.val, ?_⟩, ?_⟩
  · rw [hcode, hr]
    rfl
  · rw [Report.place, Report.place, hline, hcol]

theorem accounts_reportToken (h : q.Sound) (t : Token) :
    q.Accounts [t] (Parse.reportToken q t) := by
  unfold Parse.reportToken
  cases he : t.error with
  | none =>
    refine { Accounts.refl q with nonempty := by simp [he], lexical := fun _ _ => ?_ }
    simp [Token.report?, he]
  | some e =>
    dsimp only
    generalize hr : Report.on (.lexical e) e.message t.span e.message = r
    have hstage : (r.placed t.line t.col).code.stage = .lexer := hr ▸ rfl
    have hreport : [t].filterMap Token.report? = [r.placed t.line t.col] := by
      simp [Token.report?, he, hr]
    refine ⟨q.size_le_emitLexical _ _ _, fun _ => ?_, fun hq => ?_, fun hq hnodup => ?_⟩
    · by_cases hempty : q.reports = #[]
      · exact (Nat.zero_le _).trans_lt ((h.heeds hempty).emitLexical r t.line t.col)
      · exact (Array.size_pos_iff.2 hempty).trans_le (q.size_le_emitLexical _ _ _)
    · exact (Endless.add (q := q.beginStatement) hq (r.placed t.line t.col)).1
    · obtain ⟨-, ⟨-, hheld | hdup⟩ | hpush⟩ :=
        Endless.add (q := q.beginStatement) hq (r.placed t.line t.col)
      · cases hheld
      · have hmem := isDuplicate_lexical hdup hstage
        rw [hreport, List.map_append, List.nodup_append] at hnodup
        exact absurd rfl (hnodup.2.2 _ hmem _ (by simp))
      · have hpush : (q.emitLexical r t.line t.col).reports =
            q.reports.push (r.placed t.line t.col) := hpush
        simp [lexical, hpush, hstage, hreport]

theorem Sound.reportToken (h : q.Sound) (t : Token) : (Parse.reportToken q t).Sound := by
  unfold Parse.reportToken
  cases t.error with
  | none => exact h
  | some e => exact h.emitLexical _ _ _

/-- Error tokens are reported one after the other. -/
theorem Sound.accounts_tokens (h : q.Sound) (es : List Token) :
    (es.foldl Parse.reportToken q).Sound ∧ q.Accounts es (es.foldl Parse.reportToken q) := by
  induction es generalizing q with
  | nil => exact ⟨h, .refl q⟩
  | cons t es ih =>
    obtain ⟨hs, ha⟩ := ih (h.reportToken t)
    exact ⟨hs, (accounts_reportToken h t).trans ha⟩

end Queue

/-! ### Where reports stand -/

/-- A report with a label stands where the first label starts. -/
def Report.Placed (lines : Lines) (r : Report) : Prop :=
  ∀ label ∈ r.labels.head?, lines.position label.span.start = (r.line, r.col)

theorem Token.Placed.report {lines : Lines} {t : Token} (h : t.Placed lines) (code : ErrorCode)
    (message label : String) :
    ((Report.on code message t.span label).placed t.line t.col).Placed lines := by
  rintro _ ⟨⟩
  exact h

namespace Queue

variable {q p : Queue} {r : Report} {lines : Lines} {t : Token}

def Placed (lines : Lines) (q : Queue) : Prop := ∀ r ∈ q.reports, r.Placed lines

theorem placed_withConfig (lines : Lines) (config : QueueConfig) :
    (withConfig config).Placed lines :=
  fun _ hr => absurd hr (Array.not_mem_empty _)

theorem Placed.push (h : q.Placed lines) (hr : r.Placed lines) :
    ∀ s ∈ q.reports.push r, s.Placed lines := by
  intro s hs
  rcases Array.mem_push.1 hs with hs | rfl
  · exact h s hs
  · exact hr

/-- The notice of the ceiling has no label. -/
theorem Placed.add (h : q.Placed lines) (hr : r.Placed lines) : (q.add r).Placed lines := by
  unfold Queue.add
  repeat' split
  · exact h
  · exact h
  · exact h
  · exact h.push (r := tooManyErrors _ _ _) nofun
  · exact h.push hr

theorem Placed.reportToken (h : q.Placed lines) (ht : t.Placed lines) :
    (Parse.reportToken q t).Placed lines := by
  unfold Parse.reportToken
  cases t.error with
  | none => exact h
  | some e => exact Placed.add (q := q.beginStatement) h (ht.report _ _ _)

theorem Placed.tokens {es : List Token} (h : q.Placed lines) (hes : ∀ t ∈ es, t.Placed lines) :
    (es.foldl Parse.reportToken q).Placed lines := by
  induction es generalizing q with
  | nil => exact h
  | cons t es ih =>
    obtain ⟨ht, hrest⟩ := List.forall_mem_cons.1 hes
    exact ih (h.reportToken ht) hrest

theorem Placed.emitSpanned (h : q.Placed lines) (hr : q.emitSpanned r lines = .ok p) :
    p.Placed lines := by
  obtain ⟨line, col, rfl, hplace⟩ := emitSpanned_placed hr
  exact h.add hplace

end Queue

end FrontEnd
