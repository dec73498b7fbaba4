import FrontEnd.Report.Queue
import Mathlib.Data.Prod.Lex

/-!
No step of the queue takes a report back, and an empty queue takes every report. Taking the reports
out sorts them by position, and is stable.
-/

namespace FrontEnd

theorem Lines.locate_eq_ok {lines : Lines} {offset line col : Nat} :
    lines.locate offset = .ok (line, col) ↔
      lines.position offset = (line, col) ∧ col ≤ maxOffset := by
  unfold locate
  obtain ⟨l, c⟩ := lines.position offset
  dsimp only
  constructor
  · intro h
    split at h
    next hc =>
      cases h
      exact ⟨rfl, hc⟩
    next => cases h
  · rintro ⟨h, hc⟩
    cases h
    rw [if_pos hc]

namespace Queue

variable {q p : Queue} {r : Report} {lines : Lines} {line col : Nat}

/-- An empty queue holds nothing back. -/
def Sound (q : Queue) : Prop := q.reports = #[] → q.latched = false ∧ q.truncated = false

/-- Whatever is reported next is seen. -/
def Heeds (q : Queue) : Prop := ∀ r, q.reports.size < (q.add r).reports.size

theorem sound_withConfig (config : QueueConfig) : (withConfig config).Sound := fun _ => ⟨rfl, rfl⟩

theorem Sound.heeds (h : q.Sound) (he : q.reports = #[]) : q.Heeds := by
  intro r
  obtain ⟨hl, ht⟩ := h he
  simp only [add, hl, ht, isDuplicate, he]
  by_cases hlim : q.limitReached = true <;> simp [hlim]

theorem Heeds.not_latched (h : q.Heeds) : q.latched = false := by
  cases hl : q.latched with
  | false => rfl
  | true =>
    have := h (tooManyErrors 0 0 0)
    unfold add at this
    split at this <;> simp_all

/-! ### Growth -/

theorem size_le_add (q : Queue) (r : Report) : q.reports.size ≤ (q.add r).reports.size := by
  unfold add
  split
  · exact Nat.le_refl _
  · split
    · exact Nat.le_refl _
    · split
      · exact Nat.le_refl _
      · split <;> simp

theorem Sound.add (h : q.Sound) (r : Report) : (q.add r).Sound := by
  by_cases he : q.reports = #[]
  · intro hn
    have := h.heeds he r
    simp [hn] at this
  · intro hn
    have := size_le_add q r
    simp_all

/-- After a report the queue is not empty. -/
theorem Sound.size_add_pos (h : q.Sound) (r : Report) : 0 < (q.add r).reports.size := by
  by_cases he : q.reports = #[]
  · exact Nat.lt_of_le_of_lt (Nat.zero_le _) (h.heeds he r)
  · have hpos : 0 < q.reports.size := by
      rcases Nat.eq_zero_or_pos q.reports.size with h0 | h0
      · exact absurd (Array.size_eq_zero_iff.1 h0) he
      · exact h0
    exact Nat.lt_of_lt_of_le hpos (q.size_le_add r)

theorem size_le_emitLexical (q : Queue) (r : Report) (line col : Nat) :
    q.reports.size ≤ (q.emitLexical r line col).reports.size :=
  size_le_add q.beginStatement (r.placed line col)

theorem Sound.beginStatement (h : q.Sound) : q.beginStatement.Sound := by
  intro he
  exact ⟨rfl, (h he).2⟩

theorem Sound.emitLexical (h : q.Sound) (r : Report) (line col : Nat) :
    (q.emitLexical r line col).Sound := by
  intro he
  have hq : q.reports.size ≤ 0 := by
    have := size_le_emitLexical q r line col
    simp_all
  have hempty : q.reports = #[] := Array.size_eq_zero_iff.1 (by omega)
  have hgrow := h.beginStatement.heeds hempty (r.placed line col)
  simp [Queue.emitLexical, emit] at he
  simp [he] at hgrow

/-- A lexical error is seen in any case in which another report is. -/
theorem Heeds.emitLexical (h : q.Heeds) (r : Report) (line col : Nat) :
    q.reports.size < (q.emitLexical r line col).reports.size := by
  have hq : q.beginStatement = q := by
    simp [Queue.beginStatement, ← h.not_latched]
  have := h (r.placed line col)
  simpa [Queue.emitLexical, emit, hq] using this

/-- A report with a span is added where the span starts. -/
theorem emitSpanned_placed (h : q.emitSpanned r lines = .ok p) :
    ∃ line col, p = q.add (r.placed line col) ∧
      ∀ label ∈ r.labels.head?, lines.position label.span.start = (line, col) := by
  unfold emitSpanned at h
  split at h
  next label hlabel =>
    cases hl : lines.locate label.span.start with
    | error f => simp [hl, Bind.bind, Except.bind] at h
    | ok place =>
      obtain ⟨line, col⟩ := place
      simp only [hl, Bind.bind, Except.bind, Pure.pure, Except.pure, Except.ok.injEq] at h
      refine ⟨line, col, h.symm, ?_⟩
      intro l hmem
      obtain rfl := Option.some.inj (hlabel.symm.trans hmem)
      exact (Lines.locate_eq_ok.1 hl).1
  next hnone => exact ⟨1, 1, (Except.ok.inj h).symm, by simp [hnone]⟩

/-- A report with a span is added like any other. -/
theorem emitSpanned_ok (h : q.emitSpanned r lines = .ok p) : ∃ r, p = q.add r :=
  let ⟨_, _, hp, _⟩ := emitSpanned_placed h
  ⟨_, hp⟩

end Queue

/-! ### Taking the reports out -/

/-- Line and column, in reading order. -/
def Report.place (r : Report) : Nat ×ₗ Nat := toLex (r.line, r.col)

theorem Report.before_iff {r s : Report} : r.before s = true ↔ r.place ≤ s.place := by
  simp [before, place, Prod.Lex.toLex_le_toLex]

theorem Report.before_trans (r s t : Report) (h : r.before s = true) (h' : s.before t = true) :
    r.before t = true := by
  rw [before_iff] at h h' ⊢
  exact h.trans h'

theorem Report.before_total (r s : Report) : (r.before s || s.before r) = true := by
  rw [Bool.or_eq_true, before_iff, before_iff]
  exact le_total r.place s.place

/-- A list that falls into a part that passes a test and a part that does not. -/
theorem Report.split_eq {p : Report → Bool} {l m l' m' : List Report} (h : l ++ m = l' ++ m')
    (hl : ∀ r ∈ l, p r) (hl' : ∀ r ∈ l', p r) (hm : ∀ r ∈ m, ¬p r) (hm' : ∀ r ∈ m', ¬p r) :
    l = l' ∧ m = m' := by
  have hsame := congrArg (List.filter p) h
  rw [List.filter_append, List.filter_append, List.filter_eq_self.2 hl, List.filter_eq_self.2 hl',
    List.filter_eq_nil_iff.2 hm, List.filter_eq_nil_iff.2 hm', List.append_nil,
    List.append_nil] at hsame
  subst hsame
  exact ⟨rfl, List.append_cancel_left h⟩

/-- A report that came first stands behind the others that are before it, and in front of all
else. -/
theorem Report.exists_mergeSort_cons (r : Report) (rest : List Report) :
    ∃ l m, (r :: rest).mergeSort before = l ++ r :: m ∧ rest.mergeSort before = l ++ m ∧
      (∀ s ∈ l, !r.before s) ∧ ∀ s ∈ m, ¬(!r.before s) := by
  obtain ⟨l, m, hsort, hrest, hl⟩ := List.mergeSort_cons before_trans before_total r rest
  have hsorted := List.pairwise_mergeSort before_trans before_total (r :: rest)
  rw [hsort] at hsorted
  have hm := (List.pairwise_cons.1 (List.pairwise_append.1 hsorted).2.1).1
  exact ⟨l, m, hsort, hrest, hl, fun s hs => by simp [hm s hs]⟩

/-- It makes no difference whether reports are left out before or after sorting. -/
theorem Report.filter_mergeSort (p : Report → Bool) (reports : List Report) :
    (reports.mergeSort before).filter p = (reports.filter p).mergeSort before := by
  induction reports with
  | nil => simp
  | cons r rest ih =>
    obtain ⟨l, m, hsort, hrest, hl, hm⟩ := r.exists_mergeSort_cons rest
    rw [hrest, List.filter_append] at ih
    rw [hsort, List.filter_append]
    by_cases hp : p r
    · obtain ⟨l', m', hsort', hrest', hl', hm'⟩ := r.exists_mergeSort_cons (rest.filter p)
      rw [hrest'] at ih
      obtain ⟨rfl, rfl⟩ := split_eq ih (fun s hs => hl s (List.mem_filter.1 hs).1) hl'
        (fun s hs => hm s (List.mem_filter.1 hs).1) hm'
      rw [List.filter_cons_of_pos hp, List.filter_cons_of_pos hp, hsort']
    · rw [List.filter_cons_of_neg hp, List.filter_cons_of_neg hp]
      exact ih

namespace Queue

variable {q : Queue} {p : Report → Bool}

theorem flush_perm (q : Queue) : q.flush.1.Perm q.reports.toList :=
  List.mergeSort_perm q.reports.toList Report.before

theorem flush_sorted (q : Queue) : q.flush.1.Pairwise fun r s => r.place ≤ s.place :=
  (List.pairwise_mergeSort Report.before_trans Report.before_total q.reports.toList).imp
    Report.before_iff.1

/-- Reports that are in order already keep their order among those that are taken. -/
theorem filter_flush
    (h : (q.reports.toList.filter p).Pairwise fun r s => r.place ≤ s.place) :
    q.flush.1.filter p = q.reports.toList.filter p := by
  have hsort := Report.filter_mergeSort p q.reports.toList
  rwa [List.mergeSort_of_pairwise (h.imp Report.before_iff.2)] at hsort

/-- Reports at one place keep their order. -/
theorem flush_stable (q : Queue) (line col : Nat) :
    q.flush.1.filter (fun r => r.line == line && r.col == col) =
      q.reports.toList.filter fun r => r.line == line && r.col == col := by
  refine filter_flush (List.pairwise_of_forall_mem_list fun r hr s hs => ?_)
  have hr := (List.mem_filter.1 hr).2
  have hs := (List.mem_filter.1 hs).2
  simp only [Bool.and_eq_true, beq_iff_eq] at hr hs
  rw [Report.place, Report.place, hr.1, hr.2, hs.1, hs.2]

end Queue

end FrontEnd
