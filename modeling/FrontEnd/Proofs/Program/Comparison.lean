import FrontEnd.Proofs.Program.Typed

/-!
A text compiled with folding and without. Only the trees differ if no constant is assigned: what
folding puts there is a literal in the place of a part with its value.
-/

namespace FrontEnd

/-- Reading begins alike, whether constants will be folded or not. -/
theorem ParseState.ofText_folds (text : String) (settings : Settings) (folds : Bool) :
    ParseState.ofText text { settings with folds } =
      (ParseState.ofText text settings).map fun s => { s with folds } := by
  unfold ParseState.ofText
  cases TypeTable.withMaxSlots (Interner.withReserve settings.arenaReserve)
      settings.poolReserve with
  | error e => rfl
  | ok r => rfl

namespace Parse

variable {s : ParseState}

theorem Exhausts.not_atEnd (hx : Exhausts s) : s.window.atEnd = false := by
  cases hx <;> assumption

/-- No storage runs out in a statement that is read. -/
theorem Exhausts.of_ok {id : StmtId} {t : ParseState} (hx : Exhausts s)
    (hrun : production .stmt s = .ok id t) : Exhausts t := by
  cases hx with
  | here _ _ h => cases h.symm.trans hrun
  | read _ _ h hx =>
    cases h.symm.trans hrun
    exact hx
  | skipped _ _ h => cases h.symm.trans hrun

/-- Where a storage ran out, there is a report. -/
theorem Exhausts.meets_program (hx : Exhausts s) (hs : s.Sound) :
    Meets (production .program) s (fun _ t => 0 < t.reports.reports.size) fun _ _ => True := by
  induction hx with
  | @here s t cause hend htrunc hrun =>
    refine Meets.congr ?_ (program_eq_tried hs hend htrunc)
    refine meets_bind_of_ok (a := .error (.exhausted cause)) (t := t)
      (by simp only [attempt, hrun]) ?_
    have ht := ((steady_production .stmt).error hrun hs).1.sound
    have hreport := meets_reportExhausted (E := fun _ => True) (fun _ => trivial) ht cause
    exact (hreport.imp (fun _ _ h => h.1) fun _ _ _ => trivial).bind fun _ _ hpos =>
      meets_pure hpos
  | @read s t id hend htrunc hrun _ ih =>
    refine Meets.congr ?_ (program_eq_tried hs hend htrunc)
    refine meets_bind_of_ok (a := .ok id) (t := t) (by simp only [attempt, hrun]) ?_
    exact (ih (production_takes hs hrun).1).bind fun _ _ hpos => meets_pure hpos
  | @skipped s t u hend htrunc hrun hsync _ ih =>
    refine Meets.congr ?_ (program_eq_tried hs hend htrunc)
    refine meets_bind_of_ok (a := .error .reported) (t := t) (by simp only [attempt, hrun]) ?_
    have ht := ((steady_production .stmt).error hrun hs).1
    exact meets_bind_of_ok hsync (ih (left_synchronize hend ht.sound ht.window hsync).1)

end Parse

namespace Pass

open Link

variable {text : String} {s₁ s₂ : ParseState}

/-- A run without folding, and one with it. -/
def versus (text : String) (types : TypeTable) : Pass := ⟨false, true, text, types⟩

/-- Both runs through a whole program. -/
theorem versus_program (types : TypeTable) {settings : Settings}
    (h₁ : s₁.Opens text { settings with folds := false })
    (h₂ : s₂.Opens text { settings with folds := true }) (hx₁ : ¬Parse.Exhausts s₁)
    (hx₂ : ¬Parse.Exhausts s₂) :
    (versus text types).runs.Lists [] (Parse.production .program) (Parse.production .program)
      s₁ s₂ :=
  pair_program (rel_opens (P := versus text types) h₁ h₂) hx₁ hx₂

end Pass

namespace Compilation

open Parse Link

variable {text : String} {settings : Settings} {c₁ c₂ : Compilation}

/-- While a text is compiled, a storage runs out. -/
def Exhausts (text : String) (settings : Settings) : Prop :=
  ∃ s, ParseState.ofText text settings = .ok s ∧ Parse.Exhausts s

theorem not_exhausts {c : Compilation} {s : ParseState} (h : ofText text settings = .ok c)
    (hr : c.reports = []) (hs : s.Opens text settings) : ¬Parse.Exhausts s := by
  intro hx
  obtain ⟨s', t, hs', hrun, -, -, -, hreports⟩ := exists_compiled h
  obtain rfl : s = s' :=
    Except.ok.inj ((ParseState.ofText_eq_ok.2 hs).symm.trans (ParseState.ofText_eq_ok.2 hs'))
  have hpos := (hx.meets_program hs.sound).of_ok hrun
  rw [reports_eq_empty (hreports ▸ hr)] at hpos
  exact absurd hpos (by simp)

theorem not_exhausts_of_quiet {c : Compilation} (h : ofText text settings = .ok c)
    (hr : c.reports = []) : ¬Exhausts text settings := fun ⟨_, hs, hx⟩ =>
  not_exhausts h hr (ParseState.ofText_eq_ok.1 hs) hx

theorem not_exhausts_of_opens {s : ParseState} (hs : s.Opens text settings)
    (hx : ¬Parse.Exhausts s) : ¬Exhausts text settings := by
  rintro ⟨s', hs', hx'⟩
  cases (ParseState.ofText_eq_ok.2 hs).symm.trans hs'
  exact hx hx'

/-- A constant that is only declared is not assigned. -/
theorem not_assignsConstant : ¬Window.AssignsConstant "const N := 5;" := by
  have hstay (n : Nat) : (Window.ofText "const N := 5;").drop (7 + n) =
      (Window.ofText "const N := 5;").drop 7 := by
    induction n with
    | zero => rfl
    | succ n ih =>
      rw [← Nat.add_assoc, ← Window.bump_drop, ih]
      decide +kernel
  have hin {p : Window → Prop} (h : ∀ n < 8, p ((Window.ofText "const N := 5;").drop n))
      (w : Window) (hw : w.In "const N := 5;") : p w := by
    obtain ⟨n, rfl⟩ := hw
    rcases Nat.lt_or_ge n 8 with hn | hn
    · exact h n hn
    · obtain ⟨k, rfl⟩ := Nat.exists_eq_add_of_le (Nat.le_of_lt hn)
      exact hstay k ▸ h 7 (by decide)
  have hname := hin (p := fun w => w.current.kind = .ident →
    w.after = (Window.ofText "const N := 5;").drop 2) (by decide +kernel)
  have hop := hin (p := fun w => ∀ op, UnaryOp.ofToken? w.current.kind = some op →
    op.mutates = false) (by decide +kernel)
  have hpath {w v : Window} (h : Window.ConstantPath "const N := 5;" w v) :
      v = (Window.ofText "const N := 5;").drop 2 := by
    induction h with
    | name hw hk => exact hname _ hw hk
    | member _ hdot _ ih =>
      rw [ih] at hdot
      exact absurd hdot (by decide +kernel)
  intro h
  cases h with
  | assign hp hassign =>
    have hcolon :
        AssignOp.ofToken? ((Window.ofText "const N := 5;").drop 2).current.kind = none := by
      decide +kernel
    rw [hpath hp, hcolon] at hassign
    cases hassign
  | unary hw hassign hm => simp [hop _ hw _ hassign] at hm

/-- What is assigned here is a constant with folding, and a variable without. -/
theorem exists_reassigned (folds : Bool) :
    ¬Exhausts "const N := 5; N = 6;" { Settings.standard with folds } ∧
      ∃ c, ofText "const N := 5; N = 6;" { Settings.standard with folds } = .ok c ∧
        (c.reports = [] ↔ folds = false) := by
  have hwindow : (Window.ofText "const N := 5; N = 6;").AtConstant "N" (.int 5) := by
    constructor <;> decide +kernel
  have hassign : ((Window.ofText "const N := 5; N = 6;").drop 6).AtAssignment "N" (.int 6) := by
    constructor <;> decide +kernel
  obtain ⟨s, id, t, hs, hrun, h, hcons⟩ := exists_stmt_constant
    { Settings.standard with folds } hwindow
    (show 44 + 1 ≤ min Settings.standard.arenaReserve maxOffset by decide)
    (show 9 * poolBatch ≤ min Settings.standard.poolReserve maxOffset by decide)
  have ht := ((steady_production .stmt).ok hrun hs.sound).sound
  have hassign : t.window.AtAssignment "N" (.int 6) := h.window ▸ hassign
  obtain ⟨x, hdeclares⟩ := h.declares
  have hmiddle : t.window.atEnd = false := by
    rw [h.window]
    decide +kernel
  have hend : (t.window.drop 4).atEnd = true := by
    rw [h.window]
    decide +kernel
  have hnone : t.reports.beginStatement.reports = #[] := by
    rw [h.reports]
    rfl
  have htrunc : t.reports.truncated = false := by
    rw [h.reports]
    rfl
  -- Both statements are read, and nothing is left.
  have hread {id' : StmtId} {u : ParseState} (hrun' : production .stmt t = .ok id' u)
      (hu : u.window = t.window.drop 4) :
      ¬Exhausts "const N := 5; N = 6;" { Settings.standard with folds } ∧
        ∃ c, ofText "const N := 5; N = 6;" { Settings.standard with folds } = .ok c ∧
          c.reports = u.reports.flush.1 := by
    have hsound := ((steady_production .stmt).ok hrun' ht).sound
    have hlast : u.window.atEnd = true := hu ▸ hend
    obtain ⟨c, hc, -, -, hreports⟩ := exists_ok hs (hcons _ _
      (program_cons ht hmiddle htrunc hrun' (program_atEnd hsound hlast)))
    refine ⟨not_exhausts_of_opens hs fun hx => ?_, c, hc, hreports⟩
    have hmore := ((hx.of_ok hrun).of_ok hrun').not_atEnd
    rw [hlast] at hmore
    cases hmore
  cases folds with
  | false =>
    obtain ⟨id', tree', hrun', -⟩ := stmt_assign_variable hassign ht hdeclares h.folds h.room
    obtain ⟨hx, c, hc, hreports⟩ := hread hrun' rfl
    refine ⟨hx, c, hc, iff_of_true ?_ rfl⟩
    rw [hreports]
    exact flush_eq_nil hnone
  | true =>
    have hplace : t.lines.locate t.window.current.span.start = .ok (1, 15) := by
      rw [h.lines, h.window]
      decide +kernel
    obtain ⟨id', tree', hrun', -⟩ := stmt_assign_constant hassign ht hdeclares hplace h.room
    obtain ⟨hx, c, hc, hreports⟩ := hread hrun' rfl
    refine ⟨hx, c, hc, iff_of_false (fun he => ?_) (by decide)⟩
    have hq := reports_eq_empty (hreports ▸ he)
    have hheeds := ht.reports.beginStatement.heeds hnone
    exact absurd (congrArg Array.size hq)
      (Nat.ne_of_gt (Nat.lt_of_le_of_lt (Nat.zero_le _) (hheeds _)))

end Compilation

end FrontEnd
