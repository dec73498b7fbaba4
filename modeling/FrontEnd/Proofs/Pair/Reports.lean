import FrontEnd.Proofs.Pair.Lockstep
import FrontEnd.Proofs.Report.Discipline
import FrontEnd.Proofs.Report.LexicalReports

/-!
A queue with a ceiling beside one without. They hold the same reports until one passes the
ceiling; from then on the first stays as it is, and the second only grows.
-/

namespace FrontEnd

namespace Queue

variable {q p o u : Queue} {e : Event} {r : Report} {n : Nat} {lines : Lines}

/-! ### One queue -/

/-- No report is taken back, a closed queue stays as it is, and one without a ceiling stays open
and gets no notice. -/
structure Later (q p : Queue) : Prop where
  reports : ∃ more, p.reports.toList = q.reports.toList ++ more ∧
    (q.Endless → ∀ r ∈ more, r.code ≠ .tooManyErrors)
  closed : q.truncated = true → p.truncated = true ∧ p.reports = q.reports
  endless : q.Endless → p.Endless

theorem Later.refl (q : Queue) : q.Later q := ⟨⟨[], by simp⟩, fun h => ⟨h, rfl⟩, id⟩

theorem Later.trans (h : q.Later p) (h' : p.Later o) : q.Later o where
  reports := by
    obtain ⟨more, hp, hcodes⟩ := h.reports
    obtain ⟨rest, ho, hcodes'⟩ := h'.reports
    refine ⟨more ++ rest, by rw [ho, hp, List.append_assoc], fun hq r hr => ?_⟩
    rcases List.mem_append.1 hr with hr | hr
    · exact hcodes hq r hr
    · exact hcodes' (h.endless hq) r hr
  closed hq := by
    obtain ⟨hp, hsame⟩ := h.closed hq
    obtain ⟨ho, hsame'⟩ := h'.closed hp
    exact ⟨ho, hsame'.trans hsame⟩
  endless hq := h'.endless (h.endless hq)

theorem later_beginStatement (q : Queue) : q.Later q.beginStatement := { Later.refl q with }

theorem Later.mem (h : q.Later p) (hr : r ∈ q.reports) : r ∈ p.reports := by
  obtain ⟨more, hp, -⟩ := h.reports
  rw [← Array.mem_toList_iff, hp]
  exact List.mem_append_left _ (Array.mem_toList_iff.2 hr)

theorem Endless.not_limitReached (h : q.Endless) : q.limitReached = false := by
  simp [limitReached, h.1]

theorem Verdict.later (h : q.Verdict e r p) (hr : r.code ≠ .tooManyErrors) : q.Later p := by
  cases h with
  | closed => exact .refl q
  | held => exact { Later.refl q with }
  | repeated => exact .refl q
  | full ht _ _ hfull =>
    refine ⟨⟨_, Array.toList_push, fun hq => ?_⟩, fun h => ?_, fun hq => ?_⟩
    · rw [hq.not_limitReached] at hfull
      cases hfull
    · rw [ht] at h
      cases h
    · rw [hq.not_limitReached] at hfull
      cases hfull
  | accepted ht =>
    refine ⟨⟨_, Array.toList_push, fun _ s hs => ?_⟩, fun h => ?_, id⟩
    · obtain rfl := List.mem_singleton.1 hs
      exact hr
    · rw [ht] at h
      cases h

theorem later_add (q : Queue) (hr : r.code ≠ .tooManyErrors) : q.Later (q.add r) :=
  (verdict_add (e := .emit r 0 0) rfl).later hr

theorem later_emitLexical (q : Queue) (hr : r.code ≠ .tooManyErrors) (line col : Nat) :
    q.Later (q.emitLexical r line col) :=
  (verdict_emitLexical r line col).later hr

theorem later_reportToken (q : Queue) (t : Token) : q.Later (Parse.reportToken q t) := by
  unfold Parse.reportToken
  split
  · exact q.later_emitLexical (by simp [Report.on]) _ _
  · exact .refl q

theorem later_tokens (q : Queue) (ts : List Token) : q.Later (ts.foldl Parse.reportToken q) := by
  induction ts generalizing q with
  | nil => exact .refl q
  | cons t ts ih => exact (q.later_reportToken t).trans (ih _)

/-- Where a report is placed does not depend on the queue. -/
theorem emitSpanned_eq (r : Report) (lines : Lines) : ∃ place : Except Fault (Nat × Nat),
    ∀ q : Queue, q.emitSpanned r lines = place.map fun at_ => q.add (r.placed at_.1 at_.2) := by
  cases hs : r.labels.head? with
  | none => exact ⟨.ok (1, 1), fun q => by simp only [emitSpanned, hs]; rfl⟩
  | some label =>
    refine ⟨lines.locate label.span.start, fun q => ?_⟩
    simp only [emitSpanned, hs]
    cases lines.locate label.span.start <;> rfl

theorem later_emitSpanned (hr : r.code ≠ .tooManyErrors) (h : q.emitSpanned r lines = .ok p) :
    q.Later p := by
  obtain ⟨place, hplace⟩ := emitSpanned_eq r lines
  rw [hplace] at h
  cases place with
  | error f => cases h
  | ok at_ =>
    cases h
    exact q.later_add hr

/-! ### Both queues -/

/-- `q` has a ceiling at `n`, `u` has none, and apart from that they are the same. -/
structure Limits (n : Nat) (q u : Queue) : Prop where
  eq : q = { u with config := { u.config with errorLimit := n } }
  endless : u.Endless
  count : u.errorCount = u.reports.size
  below : 0 < n → u.errorCount ≤ n
  codes : ∀ r ∈ u.reports, r.code ≠ .tooManyErrors

/-- `q` was closed by the first report that passed the ceiling at `n`; `u` goes on. -/
structure Cut (n : Nat) (q u : Queue) : Prop where
  pos : 0 < n
  truncated : q.truncated = true
  endless : u.Endless
  reports : ∃ first r rest, u.reports.toList = first ++ r :: rest ∧ first.length = n ∧
    q.reports.toList = first ++ [tooManyErrors n r.line r.col]
  codes : ∀ r ∈ u.reports, r.code ≠ .tooManyErrors

theorem Cut.left (h : Cut n q u) (hp : q.Later p) : Cut n p u := by
  obtain ⟨ht, hsame⟩ := hp.closed h.truncated
  exact { h with truncated := ht, reports := hsame ▸ h.reports }

theorem Cut.right (h : Cut n q u) (ho : u.Later o) : Cut n q o := by
  obtain ⟨more, hmore, hcodes⟩ := ho.reports
  obtain ⟨first, r, rest, hu, hlen, hq⟩ := h.reports
  refine { h with
    endless := ho.endless h.endless
    reports := ⟨first, r, rest ++ more, by simp [hmore, hu], hlen, hq⟩
    codes := fun s hs => ?_ }
  rw [← Array.mem_toList_iff, hmore] at hs
  rcases List.mem_append.1 hs with hs | hs
  · exact h.codes s (Array.mem_toList_iff.1 hs)
  · exact hcodes h.endless s hs

theorem Cut.latch (h : Cut n q u) (b c : Bool) :
    Cut n { q with latched := b } { u with latched := c } := { h with }

theorem Limits.latch (h : Limits n q u) (b : Bool) :
    Limits n { q with latched := b } { u with latched := b } := by
  obtain ⟨rfl, he, hc, hb, hcodes⟩ := h
  exact ⟨rfl, he, hc, hb, hcodes⟩

theorem Limits.beginStatement (h : Limits n q u) :
    Limits n q.beginStatement u.beginStatement := h.latch false

theorem Limits.truncated (h : Limits n q u) : q.truncated = false ∧ u.truncated = false := by
  obtain ⟨rfl, he, -⟩ := h
  exact ⟨he.2, he.2⟩

theorem Limits.reports (h : Limits n q u) : q.reports = u.reports := by
  obtain ⟨rfl, -⟩ := h
  rfl

/-- The same report in both queues: both treat it alike, or it closes the first. -/
theorem Limits.add (h : Limits n q u) (hr : r.code ≠ .tooManyErrors) :
    Limits n (q.add r) (u.add r) ∨ Cut n (q.add r) (u.add r) := by
  have hq := h.eq
  have htrunc : ¬q.truncated = true ∧ ¬u.truncated = true := by simp [h.truncated]
  have hlatched : q.latched = u.latched := by rw [hq]
  have hdup : (q.config.deduplicate && q.isDuplicate r) =
      (u.config.deduplicate && u.isDuplicate r) := by
    rw [hq]
    rfl
  have hfull : q.limitReached = true ↔ 0 < n ∧ n ≤ u.errorCount := by simp [hq, limitReached]
  have hopen : ¬u.limitReached = true := by simp [h.endless.not_limitReached]
  have hpush : ∀ s ∈ u.reports.push r, s.code ≠ .tooManyErrors := fun s hs => by
    rcases Array.mem_push.1 hs with hs | rfl
    · exact h.codes s hs
    · exact hr
  unfold Queue.add
  rw [if_neg htrunc.1, if_neg htrunc.2, hlatched, hdup]
  by_cases hl : u.latched = true
  · rw [if_pos hl, if_pos hl]
    exact .inl ⟨by rw [hq], h.endless, h.count, h.below, h.codes⟩
  · rw [if_neg hl, if_neg hl]
    by_cases hd : (u.config.deduplicate && u.isDuplicate r) = true
    · rw [if_pos hd, if_pos hd]
      exact .inl h
    · rw [if_neg hd, if_neg hd, if_neg hopen]
      by_cases hn : 0 < n ∧ n ≤ u.errorCount
      · right
        rw [if_pos (hfull.2 hn)]
        have hlen : u.reports.toList.length = n := by
          rw [Array.length_toList, ← h.count]
          exact Nat.le_antisymm (h.below hn.1) hn.2
        exact ⟨hn.1, rfl, h.endless, ⟨u.reports.toList, r, [], by simp, hlen, by simp [hq]⟩, hpush⟩
      · left
        rw [if_neg (mt hfull.1 hn)]
        refine ⟨by rw [hq], h.endless, by simp [h.count], fun hpos => ?_, hpush⟩
        show u.errorCount + 1 ≤ n
        omega

/-- A report that has a place in one queue has it in the other. -/
theorem Limits.emitSpanned {D : Prop} (h : Limits n q u) (hr : r.code ≠ .tooManyErrors)
    (lines : Lines) : Tie.Answers D (fun q u => Limits n q u ∨ Cut n q u)
      (q.emitSpanned r lines) (u.emitSpanned r lines) := by
  obtain ⟨place, hplace⟩ := emitSpanned_eq r lines
  rw [hplace, hplace]
  cases place with
  | error f => exact .refused
  | ok at_ => exact .ok (h.add hr)

theorem Limits.emitLexical (h : Limits n q u) (hr : r.code ≠ .tooManyErrors) (line col : Nat) :
    Limits n (q.emitLexical r line col) (u.emitLexical r line col) ∨
      Cut n (q.emitLexical r line col) (u.emitLexical r line col) := by
  have hlatched : q.latched = u.latched := by rw [h.eq]
  have hadd := h.beginStatement.add (r := r.placed line col) hr
  unfold Queue.emitLexical emit
  rcases hadd with hadd | hadd
  · left
    have hsame : (q.beginStatement.add (r.placed line col)).latched =
        (u.beginStatement.add (r.placed line col)).latched := by rw [hadd.eq]
    simp only [hlatched, hsame]
    exact hadd.latch _
  · exact .inr (hadd.latch _ _)

theorem Limits.reportToken (h : Limits n q u) (t : Token) :
    Limits n (Parse.reportToken q t) (Parse.reportToken u t) ∨
      Cut n (Parse.reportToken q t) (Parse.reportToken u t) := by
  unfold Parse.reportToken
  split
  · exact h.emitLexical (by simp [Report.on]) _ _
  · exact .inl h

theorem Cut.tokens (h : Cut n q u) (ts : List Token) :
    Cut n (ts.foldl Parse.reportToken q) (ts.foldl Parse.reportToken u) :=
  (h.left (q.later_tokens ts)).right (u.later_tokens ts)

theorem Limits.tokens (h : Limits n q u) (ts : List Token) :
    Limits n (ts.foldl Parse.reportToken q) (ts.foldl Parse.reportToken u) ∨
      Cut n (ts.foldl Parse.reportToken q) (ts.foldl Parse.reportToken u) := by
  induction ts generalizing q u with
  | nil => exact .inl h
  | cons t ts ih =>
    rcases h.reportToken t with h | h
    · exact ih h
    · exact .inr (h.tokens ts)

theorem limits_withConfig (n : Nat) (deduplicate : Bool) :
    Limits n (withConfig ⟨n, deduplicate⟩) (withConfig ⟨0, deduplicate⟩) :=
  ⟨rfl, ⟨rfl, rfl⟩, rfl, fun _ => Nat.zero_le _, by simp [withConfig]⟩

end Queue

end FrontEnd
