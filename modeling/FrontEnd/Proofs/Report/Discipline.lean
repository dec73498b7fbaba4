import FrontEnd.Proofs.Report.QueueGrowth
import Mathlib.Data.List.Induction

/-!
What a fresh queue makes of any history of events: which reports it accepts, when it closes, and
what it holds in the end.
-/

namespace FrontEnd

namespace Queue

/-! ### Histories -/

/-- What happens to a queue between two flushes. -/
inductive Event
  | beginStatement
  | emit (report : Report) (line col : Nat)
  | emitSpanned (report : Report) (lines : Lines)
  | emitLexical (report : Report) (line col : Nat)

namespace Event

/-- The report that arrives, in its position. None arrives if its column is too great. -/
def report? : Event → Option Report
  | .beginStatement => none
  | .emit r line col | .emitLexical r line col => some (r.placed line col)
  | .emitSpanned r lines =>
    match r.labels.head? with
    | some label =>
      (lines.locate label.span.start).toOption.map fun (line, col) => r.placed line col
    | none => some (r.placed 1 1)

def isLexical : Event → Bool
  | .emitLexical .. => true
  | _ => false

end Event

/-- The queue after one event; a report that does not arrive changes nothing. -/
def serve (q : Queue) : Event → Queue
  | .beginStatement => q.beginStatement
  | .emit r line col => q.emit r line col
  | .emitSpanned r lines => (q.emitSpanned r lines).toOption.getD q
  | .emitLexical r line col => q.emitLexical r line col

/-- The report of an event, if the queue takes it in and stays open. -/
def taken? (q : Queue) (e : Event) : Option Report :=
  e.report?.filter fun r => (q.serve e).reports = q.reports.push r ∧ (q.serve e).truncated = false

/-- The reports that a queue takes in, in the order in which they arrive. -/
def taken (q : Queue) : List Event → List Report
  | [] => []
  | e :: es => (q.taken? e).toList ++ (q.serve e).taken es

variable (config : QueueConfig)

/-- A fresh queue after a history. -/
def after (es : List Event) : Queue := es.foldl serve (withConfig config)

/-- The accepted reports of a history. -/
def accepted (es : List Event) : List Report := (withConfig config).taken es

/-- Some report was accepted since the last statement began. -/
def InStatement (es : List Event) : Prop :=
  ∃ before e since, es = before ++ e :: since ∧ .beginStatement ∉ since ∧
    ((after config before).taken? e).isSome

/-- The latch holds back what this event reports: only lexical errors pass it. -/
def Held (es : List Event) (e : Event) : Prop := InStatement config es ∧ e.isLexical = false

/-- A report of the same code was accepted at the same place, and such reports are dropped. -/
def Repeated (es : List Event) (r : Report) : Prop :=
  config.deduplicate = true ∧
    ∃ s ∈ accepted config es, s.code = r.code ∧ s.line = r.line ∧ s.col = r.col

/-- There is a ceiling, and that many reports were accepted. -/
def Full (es : List Event) : Prop :=
  0 < config.errorLimit ∧ (accepted config es).length = config.errorLimit

/-- The discipline of a queue after a history. -/
structure Disciplined (es : List Event) : Prop where
  count : (after config es).errorCount = (accepted config es).length
  ceiling : 0 < config.errorLimit → (after config es).errorCount ≤ config.errorLimit
  /-- Which report is accepted next. -/
  accepts : ∀ e r, e.report? = some r → ((after config es).taken? e = some r ↔
    (after config es).truncated = false ∧ ¬Held config es e ∧ ¬Repeated config es r ∧
      ¬Full config es)
  /-- When the queue closes, and what it leaves then. -/
  closes : ∀ e, (after config es).truncated = false →
    ((after config (es ++ [e])).truncated = true ↔ ∃ r, e.report? = some r ∧
      ¬Held config es e ∧ ¬Repeated config es r ∧ Full config es)
  notice : ∀ e r, e.report? = some r → (after config es).truncated = false →
    (after config (es ++ [e])).truncated = true → (after config (es ++ [e])).reports =
      (after config es).reports.push (tooManyErrors config.errorLimit r.line r.col)
  /-- A closed queue stays as it is. -/
  closed : ∀ more, (after config es).truncated = true →
    (after config (es ++ more)).truncated = true ∧
      (after config (es ++ more)).reports = (after config es).reports ∧
      accepted config (es ++ more) = accepted config es
  /-- What the latch holds back is counted, and nothing else. -/
  suppressed : ∀ e, (after config (es ++ [e])).suppressed = (after config es).suppressed + 1 ↔
    e.report?.isSome ∧ (after config es).truncated = false ∧ Held config es e
  distinct : config.deduplicate = true → (accepted config es).Pairwise fun r s =>
    ¬(r.code = s.code ∧ r.line = s.line ∧ r.col = s.col)
  /-- Whoever reports something leaves an error in the queue. -/
  nonempty : ∀ e, e.report?.isSome → (after config (es ++ [e])).reports ≠ #[]
  /-- The queue holds the accepted reports and, once it is closed, a notice. -/
  holds : ∃ notice, (after config es).reports.toList = accepted config es ++ notice ∧
    notice.length = ((after config es).truncated).toNat
  /-- A flush is a stable sort of what is queued. -/
  flushed : (after config es).flush.1.Perm (after config es).reports.toList ∧
    ((after config es).flush.1.Pairwise fun r s => r.place ≤ s.place) ∧
    ∀ line col, (after config es).flush.1.filter (fun r => r.line == line && r.col == col) =
      (after config es).reports.toList.filter fun r => r.line == line && r.col == col

variable {config} {q : Queue} {e : Event} {es more : List Event} {r : Report}

/-! ### One event -/

/-- What becomes of a report: the filters of a queue, in their order. -/
inductive Verdict (q : Queue) (e : Event) (r : Report) : Queue → Prop
  | closed : q.truncated = true → Verdict q e r q
  | held : q.truncated = false → q.latched = true → e.isLexical = false →
    Verdict q e r { q with suppressed := q.suppressed + 1 }
  | repeated : q.truncated = false → (q.latched = true → e.isLexical = true) →
    q.config.deduplicate = true → q.isDuplicate r = true → Verdict q e r q
  | full : q.truncated = false → (q.latched = true → e.isLexical = true) →
    (q.config.deduplicate = true → q.isDuplicate r = false) → q.limitReached = true →
    Verdict q e r { q with
      truncated := true
      reports := q.reports.push (tooManyErrors q.config.errorLimit r.line r.col) }
  | accepted : q.truncated = false → (q.latched = true → e.isLexical = true) →
    (q.config.deduplicate = true → q.isDuplicate r = false) → q.limitReached = false →
    Verdict q e r { q with
      latched := true, errorCount := q.errorCount + 1, reports := q.reports.push r }

/-- A report that the latch does not stop passes through the other filters. -/
theorem verdict_of_unlatched (hl : q.latched = false) : q.Verdict e r (q.add r) := by
  have hpass : q.latched = true → e.isLexical = true := fun h => by simp [hl] at h
  unfold add
  by_cases ht : q.truncated = true
  · rw [if_pos ht]
    exact .closed ht
  · rw [if_neg ht, if_neg (by simp [hl])]
    have ht := Bool.eq_false_iff.2 ht
    by_cases hd : (q.config.deduplicate && q.isDuplicate r) = true
    · rw [if_pos hd]
      obtain ⟨hon, hdup⟩ := Bool.and_eq_true_iff.1 hd
      exact .repeated ht hpass hon hdup
    · rw [if_neg hd]
      have hd : q.config.deduplicate = true → q.isDuplicate r = false := fun hon => by
        simpa [hon] using hd
      by_cases hf : q.limitReached = true
      · rw [if_pos hf]
        exact .full ht hpass hd hf
      · rw [if_neg hf]
        exact .accepted ht hpass hd (Bool.eq_false_iff.2 hf)

theorem verdict_add (hlex : e.isLexical = false) : q.Verdict e r (q.add r) := by
  cases hl : q.latched with
  | false => exact verdict_of_unlatched hl
  | true =>
    unfold add
    by_cases ht : q.truncated = true
    · rw [if_pos ht]
      exact .closed ht
    · rw [if_neg ht, if_pos hl]
      exact .held (Bool.eq_false_iff.2 ht) hl hlex

/-- The latch is released for a lexical error and then set again. -/
theorem verdict_emitLexical (r : Report) (line col : Nat) :
    q.Verdict (.emitLexical r line col) (r.placed line col) (q.emitLexical r line col) := by
  cases hl : q.latched with
  | false =>
    have hq : q.beginStatement = q := by simp [beginStatement, ← hl]
    have h := verdict_of_unlatched (e := .emitLexical r line col) (r := r.placed line col) hl
    simpa only [emitLexical, hq, emit, hl, Bool.or_false] using h
  | true =>
    have hback : { q.beginStatement with latched := true } = q := by simp [beginStatement, ← hl]
    have h := verdict_of_unlatched (q := q.beginStatement) (e := .emitLexical r line col)
      (r := r.placed line col) rfl
    simp only [emitLexical, emit, hl, Bool.or_true]
    generalize q.beginStatement.add (r.placed line col) = p at h ⊢
    cases h with
    | closed ht =>
      rw [hback]
      exact .closed ht
    | held _ hlatched _ => cases hlatched
    | repeated ht _ hon hdup =>
      rw [hback]
      exact .repeated ht (fun _ => rfl) hon hdup
    | full ht _ hd hf =>
      have := Verdict.full (q := q) (e := .emitLexical r line col) ht (fun _ => rfl) hd hf
      simpa only [beginStatement, hl] using this
    | accepted ht _ hd hf =>
      have := Verdict.accepted (q := q) (e := .emitLexical r line col) ht (fun _ => rfl) hd hf
      simpa only [beginStatement] using this

theorem verdict_serve (h : e.report? = some r) : q.Verdict e r (q.serve e) := by
  cases e with
  | beginStatement => cases h
  | emit s line col =>
    obtain rfl := Option.some.inj h
    exact verdict_add rfl
  | emitLexical s line col =>
    obtain rfl := Option.some.inj h
    exact verdict_emitLexical s line col
  | emitSpanned s lines =>
    have hadd : q.serve (.emitSpanned s lines) = q.add r := by
      simp only [Event.report?] at h
      simp only [serve, Queue.emitSpanned]
      cases hs : s.labels.head? with
      | none =>
        rw [hs] at h
        obtain rfl := Option.some.inj h
        rfl
      | some label =>
        rw [hs] at h
        cases hp : lines.locate label.span.start with
        | error f => simp [hp, Except.toOption] at h
        | ok place =>
          simp only [hp, Except.toOption, Option.map_some, Option.some.injEq] at h
          subst h
          simp only [hp, Bind.bind, Except.bind]
          rfl
    rw [hadd]
    exact verdict_add rfl

/-- Without a report only the latch can change. -/
theorem serve_of_silent (h : e.report? = none) :
    q.serve e = q ∨ e = .beginStatement ∧ q.serve e = q.beginStatement := by
  cases e with
  | beginStatement => exact .inr ⟨rfl, rfl⟩
  | emit s line col => cases h
  | emitLexical s line col => cases h
  | emitSpanned s lines =>
    left
    simp only [Event.report?] at h
    simp only [serve, Queue.emitSpanned]
    cases hs : s.labels.head? with
    | none => simp [hs] at h
    | some label =>
      rw [hs] at h
      cases hp : lines.locate label.span.start with
      | error f =>
        simp only [hp, Bind.bind, Except.bind]
        rfl
      | ok place => simp [hp, Except.toOption] at h

theorem taken?_eq_some {s : Report} : q.taken? e = some s ↔ e.report? = some s ∧
    (q.serve e).reports = q.reports.push s ∧ (q.serve e).truncated = false := by
  simp [taken?, Option.filter_eq_some_iff]

theorem reports_ne_push (q : Queue) (r : Report) : q.reports ≠ q.reports.push r := by
  intro h
  have := congrArg Array.size h
  simp at this

theorem taken?_of_same (h : (q.serve e).reports = q.reports) : q.taken? e = none := by
  refine Option.eq_none_iff_forall_ne_some.2 fun s hs => ?_
  exact q.reports_ne_push s (h.symm.trans (taken?_eq_some.1 hs).2.1)

theorem taken?_of_truncated (h : (q.serve e).truncated = true) : q.taken? e = none := by
  refine Option.eq_none_iff_forall_ne_some.2 fun s hs => ?_
  have := (taken?_eq_some.1 hs).2.2
  simp [h] at this

/-- A queue that is closed stays as it is. -/
theorem serve_of_truncated (h : q.truncated = true) (e : Event) :
    (q.serve e).truncated = true ∧ (q.serve e).reports = q.reports := by
  cases he : e.report? with
  | none =>
    rcases serve_of_silent (q := q) he with hs | ⟨-, hs⟩
    · rw [hs]
      exact ⟨h, rfl⟩
    · rw [hs]
      exact ⟨h, rfl⟩
  | some r =>
    have hv := verdict_serve (q := q) he
    generalize q.serve e = p at hv ⊢
    cases hv with
    | closed => exact ⟨h, rfl⟩
    | held ht => simp [ht] at h
    | repeated ht => simp [ht] at h
    | full ht => simp [ht] at h
    | accepted ht => simp [ht] at h

/-! ### Histories, one event longer -/

theorem after_append (es more : List Event) :
    after config (es ++ more) = more.foldl serve (after config es) := List.foldl_append

theorem after_snoc (es : List Event) (e : Event) :
    after config (es ++ [e]) = (after config es).serve e := after_append es [e]

theorem taken_append (q : Queue) (es more : List Event) :
    q.taken (es ++ more) = q.taken es ++ (es.foldl serve q).taken more := by
  induction es generalizing q with
  | nil => rfl
  | cons e es ih => simp [taken, ih]

theorem accepted_snoc (es : List Event) (e : Event) :
    accepted config (es ++ [e]) = accepted config es ++ ((after config es).taken? e).toList := by
  simp [accepted, taken_append, taken, after]

theorem not_inStatement_beginStatement : ¬InStatement config (es ++ [.beginStatement]) := by
  rintro ⟨before, e, since, heq, hsince, he⟩
  rcases List.eq_nil_or_concat since with rfl | ⟨since, last, rfl⟩
  · obtain ⟨-, rfl⟩ := List.append_inj' heq rfl |>.imp id (List.cons.inj · |>.1)
    simp [taken?, Event.report?] at he
  · rw [List.concat_eq_append, ← List.cons_append, ← List.append_assoc] at heq
    obtain ⟨-, hlast⟩ := List.append_inj' heq rfl
    exact hsince (by simp [(List.cons.inj hlast).1])

/-- Any other event leaves the statement open, or makes it have an error. -/
theorem inStatement_snoc (he : e ≠ .beginStatement) : InStatement config (es ++ [e]) ↔
    InStatement config es ∨ ((after config es).taken? e).isSome := by
  constructor
  · rintro ⟨before, f, since, heq, hsince, hf⟩
    rcases List.eq_nil_or_concat since with rfl | ⟨since, last, rfl⟩
    · obtain ⟨rfl, hlast⟩ := List.append_inj' heq rfl
      obtain rfl := (List.cons.inj hlast).1
      exact .inr hf
    · rw [List.concat_eq_append, ← List.cons_append, ← List.append_assoc] at heq
      obtain ⟨hinit, -⟩ := List.append_inj' heq rfl
      exact .inl ⟨before, f, since, hinit, fun hm => hsince (by simp [hm]), hf⟩
  · rintro (⟨before, f, since, rfl, hsince, hf⟩ | hnew)
    · refine ⟨before, f, since ++ [e], by simp, ?_, hf⟩
      simpa [hsince] using fun h => he h.symm
    · exact ⟨es, e, [], rfl, by simp, hnew⟩

/-! ### The ledger of a history -/

/-- What the queue knows of its history. -/
structure Ledger (config : QueueConfig) (es : List Event) : Prop where
  config_eq : (after config es).config = config
  count : (after config es).errorCount = (accepted config es).length
  ceiling : 0 < config.errorLimit → (after config es).errorCount ≤ config.errorLimit
  latched : (after config es).latched = true ↔ InStatement config es
  holds : ∃ notice, (after config es).reports.toList = accepted config es ++ notice ∧
    notice.length = ((after config es).truncated).toNat
  distinct : config.deduplicate = true → (accepted config es).Pairwise fun r s =>
    ¬(r.code = s.code ∧ r.line = s.line ∧ r.col = s.col)

namespace Ledger

/-- An open queue holds what was accepted, and nothing else. -/
theorem reports_eq (h : Ledger config es) (ht : (after config es).truncated = false) :
    (after config es).reports.toList = accepted config es := by
  obtain ⟨notice, hreports, hlen⟩ := h.holds
  rw [ht] at hlen
  rw [hreports, List.length_eq_zero_iff.1 hlen, List.append_nil]

theorem isDuplicate_iff (h : Ledger config es) (ht : (after config es).truncated = false) :
    (after config es).isDuplicate r = true ↔
      ∃ s ∈ accepted config es, s.code = r.code ∧ s.line = r.line ∧ s.col = r.col := by
  rw [isDuplicate, ← Array.any_toList, h.reports_eq ht, List.any_eq_true]
  simp only [Bool.and_eq_true, beq_iff_eq, and_assoc]

theorem repeated_iff (h : Ledger config es) (ht : (after config es).truncated = false) :
    Repeated config es r ↔
      config.deduplicate = true ∧ (after config es).isDuplicate r = true := by
  rw [Repeated, h.isDuplicate_iff ht]

theorem full_iff (h : Ledger config es) :
    Full config es ↔ (after config es).limitReached = true := by
  have hle := h.ceiling
  rw [h.count] at hle
  simp only [Full, limitReached, h.config_eq, h.count, Bool.and_eq_true, decide_eq_true_eq]
  constructor
  · rintro ⟨hpos, heq⟩
    exact ⟨hpos, heq.ge⟩
  · rintro ⟨hpos, hge⟩
    exact ⟨hpos, Nat.le_antisymm (hle hpos) hge⟩

theorem held_iff (h : Ledger config es) :
    Held config es e ↔ (after config es).latched = true ∧ e.isLexical = false := by
  rw [Held, h.latched]

theorem start (config : QueueConfig) : Ledger config [] where
  config_eq := rfl
  count := rfl
  ceiling _ := Nat.zero_le _
  latched := by
    constructor
    · intro h
      cases h
    · rintro ⟨before, e, since, heq, -⟩
      simp at heq
  holds := ⟨[], rfl, rfl⟩
  distinct _ := List.Pairwise.nil

/-- A queue that changes at most in its latch, its counter of suppressed reports, and by closing. -/
theorem step_of_none (h : Ledger config es) (he : e ≠ .beginStatement)
    (hnone : (after config es).taken? e = none)
    (hconfig : ((after config es).serve e).config = (after config es).config)
    (hcount : ((after config es).serve e).errorCount = (after config es).errorCount)
    (hlatched : ((after config es).serve e).latched = (after config es).latched)
    (hholds : ∃ notice, ((after config es).serve e).reports.toList =
      accepted config es ++ notice ∧
        notice.length = (((after config es).serve e).truncated).toNat) :
    Ledger config (es ++ [e]) where
  config_eq := by rw [after_snoc, hconfig, h.config_eq]
  count := by
    rw [after_snoc, hcount, accepted_snoc, hnone, h.count]
    simp
  ceiling := by
    rw [after_snoc, hcount]
    exact h.ceiling
  latched := by
    rw [after_snoc, hlatched, h.latched, inStatement_snoc he, hnone]
    simp
  holds := by
    rw [after_snoc, accepted_snoc, hnone]
    simpa using hholds
  distinct := by
    rw [accepted_snoc, hnone]
    simpa using h.distinct

theorem begins (h : Ledger config es) : Ledger config (es ++ [.beginStatement]) where
  config_eq := by
    rw [after_snoc]
    exact h.config_eq
  count := by
    rw [after_snoc, accepted_snoc]
    simpa [taken?, Event.report?, serve, beginStatement] using h.count
  ceiling := by
    rw [after_snoc]
    exact h.ceiling
  latched := by
    rw [after_snoc]
    exact ⟨fun hlatched => absurd hlatched Bool.false_ne_true,
      fun hin => absurd hin not_inStatement_beginStatement⟩
  holds := by
    rw [after_snoc, accepted_snoc]
    simpa [taken?, Event.report?, serve, beginStatement] using h.holds
  distinct := by
    rw [accepted_snoc]
    simpa [taken?, Event.report?] using h.distinct

/-- The queue takes a report in. -/
theorem accepts (h : Ledger config es) (he : e.report? = some r)
    (ht : (after config es).truncated = false)
    (hd : config.deduplicate = true → (after config es).isDuplicate r = false)
    (hf : (after config es).limitReached = false)
    (hserve : (after config es).serve e = { after config es with
      latched := true, errorCount := (after config es).errorCount + 1
      reports := (after config es).reports.push r }) :
    Ledger config (es ++ [e]) := by
  have htaken : (after config es).taken? e = some r :=
    taken?_eq_some.2 ⟨he, by rw [hserve], by rw [hserve]; exact ht⟩
  have hbegin : e ≠ .beginStatement := by
    rintro rfl
    cases he
  refine ⟨?_, ?_, fun hpos => ?_, ?_, ⟨[], ?_, ?_⟩, fun hon => ?_⟩
  · rw [after_snoc, hserve]
    exact h.config_eq
  · rw [after_snoc, hserve, accepted_snoc, htaken]
    simp [h.count]
  · rw [after_snoc, hserve]
    simp only [limitReached, h.config_eq, hpos, decide_true, Bool.true_and,
      decide_eq_false_iff_not] at hf
    show _ + 1 ≤ _
    omega
  · rw [after_snoc, hserve, inStatement_snoc hbegin, htaken]
    simp
  · rw [after_snoc, hserve, accepted_snoc, htaken]
    simp [h.reports_eq ht]
  · rw [after_snoc, hserve]
    simp [ht]
  · rw [accepted_snoc, htaken]
    refine List.pairwise_append.2 ⟨h.distinct hon, by simp, fun s hs s' hs' heq => ?_⟩
    obtain rfl := List.mem_singleton.1 hs'
    have := (h.isDuplicate_iff ht).2 ⟨s, hs, heq⟩
    simp [hd hon] at this

theorem snoc (h : Ledger config es) (e : Event) : Ledger config (es ++ [e]) := by
  have hsame (hs : (after config es).serve e = after config es) (he : e ≠ .beginStatement) :
      Ledger config (es ++ [e]) :=
    h.step_of_none he (taken?_of_same (by rw [hs])) (by rw [hs]) (by rw [hs]) (by rw [hs])
      (by rw [hs]; exact h.holds)
  by_cases hbegin : e = .beginStatement
  · subst hbegin
    exact h.begins
  cases he : e.report? with
  | none =>
    rcases serve_of_silent (q := after config es) he with hs | ⟨rfl, -⟩
    · exact hsame hs hbegin
    · exact h.begins
  | some r =>
    have hv := verdict_serve (q := after config es) he
    generalize hp : (after config es).serve e = p at hv
    cases hv with
    | closed ht => exact hsame hp hbegin
    | held ht hl hlex =>
      refine h.step_of_none hbegin (taken?_of_same (by rw [hp])) (by rw [hp]) (by rw [hp])
        (by rw [hp]) ?_
      rw [hp]
      exact h.holds
    | repeated ht hpass hon hdup => exact hsame hp hbegin
    | full ht hpass hd hf =>
      refine h.step_of_none hbegin (taken?_of_truncated (by rw [hp])) (by rw [hp]) (by rw [hp])
        (by rw [hp]) ?_
      rw [hp]
      exact ⟨[tooManyErrors (after config es).config.errorLimit r.line r.col],
        by simp [h.reports_eq ht], rfl⟩
    | accepted ht hpass hd hf =>
      rw [h.config_eq] at hd
      exact h.accepts he ht hd hf hp

end Ledger

theorem ledger (config : QueueConfig) (es : List Event) : Ledger config es := by
  induction es using List.reverseRecOn with
  | nil => exact .start config
  | append_singleton es e ih => exact ih.snoc e

/-! ### The discipline -/

/-- Once it is closed, a queue takes nothing in. -/
theorem foldl_of_truncated (h : q.truncated = true) (more : List Event) :
    (more.foldl serve q).truncated = true ∧ (more.foldl serve q).reports = q.reports ∧
      q.taken more = [] := by
  induction more generalizing q with
  | nil => exact ⟨h, rfl, rfl⟩
  | cons e more ih =>
    obtain ⟨ht, hr⟩ := serve_of_truncated h e
    obtain ⟨ht', hr', htaken⟩ := ih ht
    refine ⟨ht', hr'.trans hr, ?_⟩
    simp [taken, taken?_of_same hr, htaken]

theorem accepted_ne_nil (h : InStatement config es) : accepted config es ≠ [] := by
  obtain ⟨before, e, since, rfl, -, he⟩ := h
  obtain ⟨r, hr⟩ := Option.isSome_iff_exists.1 he
  have hnext : (before.foldl serve (withConfig config)).taken? e = some r := hr
  simp [accepted, taken_append, taken, hnext]

namespace Ledger

/-- The latch lets a report pass. -/
theorem passes_iff (h : Ledger config es) :
    ((after config es).latched = true → e.isLexical = true) ↔ ¬Held config es e := by
  rw [h.held_iff, not_and, Bool.not_eq_false]

theorem unrepeated_iff (h : Ledger config es) (ht : (after config es).truncated = false) :
    ((after config es).config.deduplicate = true → (after config es).isDuplicate r = false) ↔
      ¬Repeated config es r := by
  rw [h.repeated_iff ht, not_and, Bool.not_eq_true, h.config_eq]

theorem not_full_iff (h : Ledger config es) :
    (after config es).limitReached = false ↔ ¬Full config es := by
  rw [h.full_iff, Bool.not_eq_true]

theorem taken?_iff (h : Ledger config es) (he : e.report? = some r) :
    (after config es).taken? e = some r ↔ (after config es).truncated = false ∧
      ¬Held config es e ∧ ¬Repeated config es r ∧ ¬Full config es := by
  have hv := verdict_serve (q := after config es) he
  generalize hp : (after config es).serve e = p at hv
  cases hv with
  | closed ht =>
    rw [taken?_of_same (by rw [hp])]
    simp [ht]
  | held ht hl hlex =>
    rw [taken?_of_same (by rw [hp])]
    simp [h.held_iff, hl, hlex]
  | repeated ht hpass hon hdup =>
    rw [h.config_eq] at hon
    rw [taken?_of_same (by rw [hp])]
    simp [h.repeated_iff ht, hon, hdup]
  | full ht hpass hd hf =>
    rw [taken?_of_truncated (by rw [hp])]
    simp [h.full_iff, hf]
  | accepted ht hpass hd hf =>
    have htaken : (after config es).taken? e = some r :=
      taken?_eq_some.2 ⟨he, by rw [hp], by rw [hp]; exact ht⟩
    exact ⟨fun _ => ⟨ht, h.passes_iff.1 hpass, (h.unrepeated_iff ht).1 hd, h.not_full_iff.1 hf⟩,
      fun _ => htaken⟩

/-- An open queue closes at a report that only the ceiling keeps out, and leaves a notice there. -/
theorem closes_iff (h : Ledger config es) (ht : (after config es).truncated = false)
    (he : e.report? = some r) :
    (((after config es).serve e).truncated = true ↔
      ¬Held config es e ∧ ¬Repeated config es r ∧ Full config es) ∧
    (((after config es).serve e).truncated = true → ((after config es).serve e).reports =
      (after config es).reports.push (tooManyErrors config.errorLimit r.line r.col)) := by
  have hv := verdict_serve (q := after config es) he
  generalize (after config es).serve e = p at hv
  cases hv with
  | closed htrue => simp [ht] at htrue
  | held _ hl hlex => simp [ht, h.held_iff, hl, hlex]
  | repeated _ hpass hon hdup =>
    rw [h.config_eq] at hon
    simp [ht, h.repeated_iff ht, hon, hdup]
  | full _ hpass hd hf =>
    refine ⟨⟨fun _ => ⟨h.passes_iff.1 hpass, (h.unrepeated_iff ht).1 hd, h.full_iff.2 hf⟩,
      fun _ => rfl⟩, fun _ => ?_⟩
    rw [h.config_eq]
  | accepted _ hpass hd hf => simp [ht, h.full_iff, hf]

/-- The latch counts what it holds back. -/
theorem suppressed_iff (h : Ledger config es) (e : Event) :
    ((after config es).serve e).suppressed = (after config es).suppressed + 1 ↔
      e.report?.isSome ∧ (after config es).truncated = false ∧ Held config es e := by
  cases he : e.report? with
  | none =>
    rcases serve_of_silent (q := after config es) he with hs | ⟨-, hs⟩
    · simp [hs]
    · simp [hs, beginStatement]
  | some r =>
    have hv := verdict_serve (q := after config es) he
    rw [h.held_iff]
    generalize (after config es).serve e = p at hv
    cases hv with
    | closed ht => simp [ht]
    | held ht hl hlex => simp [ht, hl, hlex]
    | repeated ht hpass | full ht hpass | accepted ht hpass => simp [ht]; simpa using hpass

/-- After a report the queue is not empty. -/
theorem reports_ne_empty (h : Ledger config es) (he : e.report? = some r) :
    ((after config es).serve e).reports ≠ #[] := by
  intro hempty
  have hv := verdict_serve (q := after config es) he
  generalize (after config es).serve e = p at hv hempty
  cases hv with
  | closed ht =>
    obtain ⟨notice, hreports, hlen⟩ := h.holds
    simp [hempty, ht] at hreports hlen
    simp [hreports] at hlen
  | held ht hl _ =>
    have hreports := h.reports_eq ht
    simp only at hempty
    rw [hempty] at hreports
    exact accepted_ne_nil (h.latched.1 hl) hreports.symm
  | repeated _ _ _ hdup =>
    rw [isDuplicate, hempty] at hdup
    simp at hdup
  | full | accepted => simp at hempty

end Ledger

/-- Whatever happens to a fresh queue, it keeps its discipline. -/
theorem events_disciplined (config : QueueConfig) (es : List Event) : Disciplined config es := by
  have h := ledger config es
  exact {
    count := h.count
    ceiling := h.ceiling
    accepts := fun e r he => h.taken?_iff he
    closes := fun e ht => by
      rw [after_snoc]
      cases he : e.report? with
      | none =>
        rcases serve_of_silent (q := after config es) he with hs | ⟨-, hs⟩
        · simp [hs, ht]
        · simp [hs, beginStatement, ht]
      | some r => simp [(h.closes_iff ht he).1]
    notice := fun e r he ht hclosed => by
      rw [after_snoc] at hclosed ⊢
      exact (h.closes_iff ht he).2 hclosed
    closed := fun more ht => by
      obtain ⟨ht', hr, htaken⟩ := foldl_of_truncated ht more
      rw [after_append]
      refine ⟨ht', hr, ?_⟩
      have hrest : (es.foldl serve (withConfig config)).taken more = [] := htaken
      rw [accepted, taken_append, hrest, List.append_nil]
      rfl
    suppressed := fun e => by
      rw [after_snoc]
      exact h.suppressed_iff e
    distinct := h.distinct
    nonempty := fun e he => by
      obtain ⟨r, hr⟩ := Option.isSome_iff_exists.1 he
      rw [after_snoc]
      exact h.reports_ne_empty hr
    holds := h.holds
    flushed := ⟨flush_perm _, flush_sorted _, flush_stable _⟩ }

end Queue

end FrontEnd
