import FrontEnd.Proofs.Program.Forests

/-!
Without a ceiling, the reports of lexical errors are those of the error tokens of the text, one for
each and in their order. All reports stand where they point.
-/

namespace FrontEnd

/-- Reading came to the end of the text, or a storage ran out and that was reported. -/
def ParseState.Finished (s : ParseState) : Prop :=
  s.window.atEnd = true ∨ ∃ r ∈ s.reports.reports, r.code = .exhausted

namespace Parse

variable {s : ParseState} {parse : Productions}

theorem finishes_program (h : ∀ q, Steady q.reach (parse q))
    (hrest : ∀ t : ParseState, t.Sound → t.reports.Endless →
      Meets (parse .program) t (fun _ u => u.Finished) fun _ _ => True)
    (hs : s.Sound) (hq : s.reports.Endless) :
    Meets (program parse) s (fun _ t => t.Finished) fun _ _ => True := by
  refine meets_bind_of_ok (a := s.window.atEnd) (t := s) rfl ?_
  cases hend : s.window.atEnd with
  | true => exact meets_pure (.inl hend)
  | false =>
    refine meets_bind_of_ok (a := false) (t := s) (congrArg (EStateM.Result.ok · s) hq.2) ?_
    refine meets_bind_of_ok (a := s.window.current.span) (t := s) rfl ?_
    cases hrun : parse .stmt s with
    | ok id t =>
      have ht := (h .stmt).ok hrun hs
      refine meets_bind_of_ok (a := .ok id) (t := t) (by simp only [attempt, hrun]) ?_
      exact (hrest t ht.sound (ht.endless hq)).bind fun _ _ hu => meets_pure hu
    | error e t =>
      have ht := ((h .stmt).error hrun hs).1
      refine meets_bind_of_ok (a := .error e) (t := t) (by simp only [attempt, hrun]) ?_
      cases e with
      | reported =>
        obtain ⟨u, hu⟩ := exists_synchronize s.window.current.span t
        have ho := (steady_synchronize (k := 0) _).ok hu ht.sound
        exact meets_bind_of_ok hu (hrest u ho.sound (ho.endless (ht.endless hq)))
      | exhausted cause =>
        have hreport := meets_reportExhausted (E := fun _ => True) (fun _ => trivial) ht.sound cause
        refine (hreport.imp (fun _ _ h => h.2.2) fun _ _ _ => trivial).bind ?_
        rintro _ u ⟨r, hcode, hu⟩
        obtain ⟨r', hr', hcode'⟩ :=
          Queue.Endless.exists_code (q := t.reports.beginStatement) (ht.endless hq) rfl r
        exact meets_pure (.inr ⟨r', hu ▸ hr', hcode'.trans hcode⟩)
      | fault f => exact meets_throw trivial

/-- Without a ceiling, a program is read to its end as long as there is room. -/
theorem finishes_within (depth : Nat) (hs : s.Sound) (hq : s.reports.Endless) :
    Meets (within depth .program) s (fun _ t => t.Finished) fun _ _ => True := by
  induction depth generalizing s with
  | zero => exact meets_throw trivial
  | succ depth ih => exact finishes_program (steady_within depth) (fun _ => ih) hs hq

end Parse

/-! ### One report for each error token -/

/-- The report is of this error token: it has its error and its place. -/
def Report.Tells (r : Report) (t : Token) : Prop :=
  ∃ e, t.error = some e ∧ r.code = .lexical e ∧ r.line = t.line ∧ r.col = t.col

namespace Token

variable {r : Report} {t : Token} {es : List Token}

theorem tells_of_report? (h : t.report? = some r) : r.Tells t := by
  obtain ⟨e, he, rfl⟩ := Option.map_eq_some_iff.1 h
  exact ⟨e, he, rfl, rfl, rfl⟩

theorem place_of_report? (h : t.report? = some r) : r.place = t.place := by
  obtain ⟨-, -, -, hline, hcol⟩ := tells_of_report? h
  rw [Report.place, hline, hcol, place]

theorem tells_reports (h : ∀ t ∈ es, t.error ≠ none) :
    List.Forall₂ Report.Tells (es.filterMap report?) es := by
  induction es with
  | nil => exact .nil
  | cons t es ih =>
    obtain ⟨hfirst, hrest⟩ := List.forall_mem_cons.1 h
    obtain ⟨e, he⟩ := Option.ne_none_iff_exists'.1 hfirst
    have hr : t.report? = some _ := Option.map_eq_some_iff.2 ⟨e, he, rfl⟩
    rw [List.filterMap_cons_some hr]
    exact .cons (tells_of_report? hr) (ih hrest)

theorem ordered_reports (h : es.Pairwise fun t u => t.place < u.place) :
    (es.filterMap report?).Pairwise fun r s => r.place < s.place :=
  h.filterMap _ fun t u hlt r hr s hs => by
    rwa [place_of_report? hr, place_of_report? hs]

end Token

namespace Compilation

open Parse

variable {text : String} {settings : Settings} {s t : ParseState} {k : Nat}

/-- The lexical errors that are queued at the end of a text are those of its error tokens. -/
theorem lexical_atEnd (hs : s.Opens text settings) (ho : s.Onto k t)
    (hlimit : settings.errorLimit = 0) (hend : t.window.atEnd = true) :
    t.reports.lexical = ((tokenize text).filter (·.kind == .error)).filterMap Token.report? ∧
      t.reports.lexical.Pairwise fun r s => r.place < s.place := by
  obtain ⟨n, hn, ha⟩ := hs.tokens ho
  have hordered := Token.ordered_reports ((Window.shows_ofText text).errors_ordered n).2
  have hreports : t.reports.lexical = ((Window.ofText text).errors n).filterMap Token.report? :=
    ha.lexical ⟨hlimit, rfl⟩ (List.pairwise_map.2 (hordered.imp fun h => h.ne))
  rw [hreports]
  exact ⟨by rw [Window.errors_ofText (hn ▸ hend)], hordered⟩

theorem placed_reports {c : Compilation} (hsize : text.utf8ByteSize ≤ maxOffset)
    (hc : ofText text settings = .ok c) : ∀ r ∈ c.reports, r.Placed (Lines.ofText text) := by
  obtain ⟨s, t, hopens, hrun, -, -, -, hreports⟩ := exists_compiled hc
  have ho := (steady_production .program).ok hrun hopens.sound
  rw [hreports]
  intro r hr
  exact hopens.placed ho hsize r (Array.mem_toList_iff.1 (t.reports.flush_perm.subset hr))

end Compilation

end FrontEnd
