import FrontEnd.Proofs.Pair.Openings
import FrontEnd.Proofs.Program.Forests
import FrontEnd.Proofs.Report.QueueGrowth

/-!
A ceiling for reports cuts their list off and changes nothing else: what is reported in front of it
does not depend on it.
-/

namespace FrontEnd

namespace Compilation

open Parse Tie

variable {text : String} {settings : Settings} {n : Nat} {s t : ParseState} {q u : Queue}
  {c d : Compilation} {e : StorageError}

/-- The reports that are accepted in the course of a text if there is no ceiling, in the order in
which they come. -/
def accepted (text : String) (settings : Settings) : List Report :=
  match ParseState.ofText text { settings with errorLimit := 0 } with
  | .ok start =>
    match production .program start with
    | .ok _ s | .error _ s => s.reports.reports.toList
  | .error _ => []

/-- How the compilation `c` with a ceiling at `n` compares with `d`, which has none and accepts
these reports. -/
structure CutAt (n : Nat) (reports : List Report) (c d : Compilation) : Prop where
  full : d.reports = reports.mergeSort Report.before ∧ d.truncated = false
  truncated : c.truncated = true ↔ n < reports.length
  whole : c.truncated = false → c = d
  /-- The first `n` reports are listed, and a notice that has the place of the next one. -/
  cut : c.truncated = true → ∃ r, reports[n]? = some r ∧
    c.reports.filter (·.code ≠ .tooManyErrors) = (reports.take n).mergeSort Report.before ∧
    c.reports.filter (·.code = .tooManyErrors) = [Queue.tooManyErrors n r.line r.col]

/-! ### Both queues at the end -/

/-- The notice is in the list once, and all else came in front of it. -/
theorem cut_flush (h : q.Cut n u) : ∃ r, u.reports.toList[n]? = some r ∧
    q.flush.1.filter (·.code ≠ .tooManyErrors) =
      (u.reports.toList.take n).mergeSort Report.before ∧
    q.flush.1.filter (·.code = .tooManyErrors) = [Queue.tooManyErrors n r.line r.col] := by
  obtain ⟨first, r, rest, hu, hlen, hq⟩ := h.reports
  have hfirst : ∀ s ∈ first, s.code ≠ .tooManyErrors := fun s hs =>
    h.codes s (Array.mem_toList_iff.1 (hu ▸ List.mem_append_left _ hs))
  have hnotice : (Queue.tooManyErrors n r.line r.col).code = .tooManyErrors := rfl
  have hflush (p : Report → Bool) :
      q.flush.1.filter p = (q.reports.toList.filter p).mergeSort Report.before :=
    Report.filter_mergeSort p _
  refine ⟨r, by simp [hu, ← hlen], ?_, ?_⟩
  · have hkept : q.reports.toList.filter (·.code ≠ .tooManyErrors) = first := by
      rw [hq, List.filter_append, List.filter_eq_self.2 (by simpa using hfirst)]
      simp [hnotice]
    rw [hflush, hkept, hu, List.take_left' hlen]
  · have hkept : q.reports.toList.filter (·.code = .tooManyErrors) =
        [Queue.tooManyErrors n r.line r.col] := by
      rw [hq, List.filter_append, List.filter_eq_nil_iff.2 (by simpa using hfirst)]
      simp [hnotice]
    rw [hflush, hkept, List.mergeSort_singleton]

/-! ### The place of the notice -/

/-- The notice stands behind the accepted reports that begin where the first dropped one does or in
front of it, and in front of all others. -/
theorem notice_placed (h : q.Cut n u) : ∃ r front back, u.reports.toList[n]? = some r ∧
    q.flush.1 = front ++ Queue.tooManyErrors n r.line r.col :: back ∧
    front ++ back = (u.reports.toList.take n).mergeSort Report.before ∧
    (∀ s ∈ front ++ back, s.code ≠ .tooManyErrors) ∧
    (∀ s ∈ front, s.place ≤ r.place) ∧ ∀ s ∈ back, r.place < s.place := by
  obtain ⟨r, hr, hkept, hnotice⟩ := cut_flush h
  have hmem : Queue.tooManyErrors n r.line r.col ∈ q.flush.1 :=
    (List.mem_filter.1 (hnotice ▸ List.mem_singleton_self _)).1
  obtain ⟨front, back, hsplit⟩ := List.append_of_mem hmem
  rw [hsplit] at hkept hnotice
  -- there is one notice, so none on either side of it
  have hnone : front.filter (·.code = .tooManyErrors) = [] ∧
      back.filter (·.code = .tooManyErrors) = [] := by
    have hlen := congrArg List.length hnotice
    rw [List.filter_append, List.filter_cons_of_pos (by simp [Queue.tooManyErrors])] at hlen
    simp only [List.length_append, List.length_cons, List.length_nil] at hlen
    exact ⟨List.length_eq_zero_iff.1 (by omega), List.length_eq_zero_iff.1 (by omega)⟩
  have hfront : ∀ s ∈ front, s.code ≠ .tooManyErrors := by
    simpa using List.filter_eq_nil_iff.1 hnone.1
  have hback : ∀ s ∈ back, s.code ≠ .tooManyErrors := by
    simpa using List.filter_eq_nil_iff.1 hnone.2
  have hsorted := q.flush_sorted
  rw [hsplit] at hsorted
  obtain ⟨-, hbehind, hcross⟩ := List.pairwise_append.1 hsorted
  refine ⟨r, front, back, hr, hsplit, ?_, List.forall_mem_append.2 ⟨hfront, hback⟩,
    fun s hs => hcross s hs (Queue.tooManyErrors n r.line r.col) List.mem_cons_self,
    fun s hs => lt_of_le_of_ne ((List.pairwise_cons.1 hbehind).1 s hs) fun hplace => ?_⟩
  · rw [← hkept, List.filter_append, List.filter_cons_of_neg (by simp [Queue.tooManyErrors]),
      List.filter_eq_self.2 (by simpa using hfront), List.filter_eq_self.2 (by simpa using hback)]
  · -- at its place the notice came last, so it is the last that is taken there
    obtain ⟨first, r', rest, hu, hlen, hq⟩ := h.reports
    obtain rfl : r' = r := by simpa [hu, ← hlen] using hr
    obtain ⟨hline, hcol⟩ : r'.line = s.line ∧ r'.col = s.col := by
      simpa [Report.place] using hplace
    have hstable := q.flush_stable r'.line r'.col
    rw [hsplit, hq, List.filter_append, List.filter_append,
      List.filter_cons_of_pos (by simp [Queue.tooManyErrors]),
      List.filter_cons_of_pos (by simp [Queue.tooManyErrors]), List.filter_nil] at hstable
    have hthere : s ∈ back.filter fun s => s.line == r'.line && s.col == r'.col :=
      List.mem_filter.2 ⟨hs, by simp [hline, hcol]⟩
    have hlast := congrArg List.getLast? hstable
    rw [List.getLast?_append, List.getLast?_cons, List.getLast?_concat] at hlast
    have hcode := hback _ (List.mem_of_mem_filter (List.getLast_mem (List.ne_nil_of_mem hthere)))
    rw [List.getLast?_eq_some_getLast (List.ne_nil_of_mem hthere)] at hlast
    exact hcode (congrArg Report.code (Option.some.inj hlast))

theorem cutAt_of_cut (h : q.Cut n u) (hc : c.reports = q.flush.1 ∧ c.truncated = q.truncated)
    (hd : d.reports = u.flush.1 ∧ d.truncated = u.truncated) :
    CutAt n u.reports.toList c d where
  full := ⟨hd.1, hd.2.trans h.endless.2⟩
  truncated := by
    obtain ⟨first, r, rest, hu, hlen, -⟩ := h.reports
    rw [hc.2, h.truncated, hu, List.length_append, List.length_cons, hlen]
    simp
  whole hopen := by
    rw [hc.2, h.truncated] at hopen
    cases hopen
  cut _ := by
    rw [hc.1]
    exact cut_flush h

theorem cutAt_of_limits (hn : 1 ≤ n) (h : q.Limits n u) (hd : d.reports = u.flush.1)
    (htruncated : d.truncated = u.truncated) : CutAt n u.reports.toList d d where
  full := ⟨hd, htruncated.trans h.truncated.2⟩
  truncated := by
    have hle := h.below hn
    rw [htruncated, h.truncated.2, Array.length_toList, ← h.count]
    simpa using hle
  whole _ := rfl
  cut hclosed := by
    rw [htruncated, h.truncated.2] at hclosed
    cases hclosed

/-! ### Both compilations -/

/-- Whether reading can begin depends on the reservations alone. -/
theorem opens_neither {a b : Settings} (ha : ParseState.ofText text a = .error e)
    (harena : a.arenaReserve = b.arenaReserve) (hpool : a.poolReserve = b.poolReserve) :
    ParseState.ofText text b = .error e := by
  rw [ParseState.ofText_eq_error, ← harena, ← hpool]
  exact ParseState.ofText_eq_error.1 ha

/-- Runs that are in step at the end leave the same. -/
theorem compiled_eq (h : s.InStep True n t) (items : List StmtId) :
    compiled items s = compiled items t := by
  have hflush : s.reports.flush.1 = t.reports.flush.1 :=
    congrArg (·.toList.mergeSort Report.before) h.reports.reports
  obtain ⟨hs, ht⟩ := h.reports.truncated
  rw [compiled, compiled, h.tree.eq trivial, h.types.eq trivial, h.names.eq trivial, hflush, hs, ht]

/-- At the end the runs are in step, or the ceiling was passed. -/
theorem cutAt_compiled {items items' : List StmtId} (hn : 1 ≤ n)
    (h : (tie True n).Pair (.ok items s) (.ok items' t)) :
    CutAt n t.reports.reports.toList (compiled items s) (compiled items' t) := by
  cases h with
  | ok h =>
    rw [compiled_eq h]
    exact cutAt_of_limits hn h.reports rfl rfl
  | parted h =>
    rcases h with hcut | ⟨hD, -⟩
    · exact cutAt_of_cut hcut ⟨rfl, rfl⟩ ⟨rfl, rfl⟩
    · exact absurd trivial hD

/-- A ceiling at `n` decides only where the list of reports is cut off. Reading fails where the
basic types find no room, with or without a ceiling, and else only where numbers leave their
range. -/
theorem ceiling_only_cuts (text : String) (settings : Settings) (n : Nat) (hn : 1 ≤ n) :
    match ofText text { settings with errorLimit := n },
      ofText text { settings with errorLimit := 0 } with
    | .ok c, .ok d => CutAt n (accepted text settings) c d
    | .error (.cause e), .error (.cause e') => e = e'
    | .error (.fault f), _ => ∃ verb, f = .overflow verb
    | .ok _, .error (.fault f) => ∃ verb, f = .overflow verb
    | _, _ => False := by
  cases hs : ParseState.ofText text { settings with errorLimit := n } with
  | error e =>
    have ht : ParseState.ofText text { settings with errorLimit := 0 } = .error e :=
      opens_neither hs rfl rfl
    rw [ofText, hs, ofText, ht]
    rfl
  | ok s =>
    cases ht : ParseState.ofText text { settings with errorLimit := 0 } with
    | error e =>
      have hs' : ParseState.ofText text { settings with errorLimit := n } = .error e :=
        opens_neither ht rfl rfl
      rw [hs] at hs'
      cases hs'
    | ok t =>
      have hopens := ParseState.ofText_eq_ok.1 hs
      have hopens' := ParseState.ofText_eq_ok.1 ht
      have hpair := hopens.pair_program (D := True) (n := n) hopens'
        ⟨rfl, rfl, rfl, rfl, fun _ => ⟨rfl, rfl⟩, fun h => absurd trivial h⟩
      rcases compiles_or_overflows hopens with ⟨items, s', hrun, hc⟩ | ⟨verb, s', -, hf⟩
      · rcases compiles_or_overflows hopens' with ⟨items', t', hrun', hd⟩ | ⟨verb, t', -, hf⟩
        · have haccepted : accepted text settings = t'.reports.reports.toList := by
            rw [accepted, ht]
            dsimp only
            rw [hrun']
          rw [hrun, hrun'] at hpair
          rw [hc, hd, haccepted]
          exact cutAt_compiled hn hpair
        · rw [hc, hf]
          exact ⟨verb, rfl⟩
      · rw [hf]
        exact ⟨verb, rfl⟩

/-- The reports that a run leaves which reads the same text without a ceiling, however it ends. -/
theorem accepted_eq (ht : ParseState.ofText text { settings with errorLimit := 0 } = .ok t) :
    accepted text settings = (ending (production .program t)).2.reports.reports.toList := by
  rw [accepted, ht]
  dsimp only
  cases production .program t <;> rfl

/-- Of a list that was cut off the first `n` accepted reports are left, and the notice. It stands
where the next report would: behind those that begin at its place or in front of it. -/
theorem notice_listed (hc : ofText text { settings with errorLimit := n } = .ok c)
    (htruncated : c.truncated = true) : ∃ r front back, (accepted text settings)[n]? = some r ∧
    c.reports = front ++ Queue.tooManyErrors n r.line r.col :: back ∧
    front ++ back = ((accepted text settings).take n).mergeSort Report.before ∧
    (∀ s ∈ front ++ back, s.code ≠ .tooManyErrors) ∧
    (∀ s ∈ front, s.place ≤ r.place) ∧ ∀ s ∈ back, r.place < s.place := by
  obtain ⟨s, hs⟩ : ∃ s, ParseState.ofText text { settings with errorLimit := n } = .ok s := by
    cases hs : ParseState.ofText text { settings with errorLimit := n } with
    | ok s => exact ⟨s, rfl⟩
    | error e =>
      rw [ofText, hs] at hc
      cases hc
  obtain ⟨t, ht⟩ : ∃ t, ParseState.ofText text { settings with errorLimit := 0 } = .ok t := by
    cases ht : ParseState.ofText text { settings with errorLimit := 0 } with
    | ok t => exact ⟨t, rfl⟩
    | error e =>
      have hs' : ParseState.ofText text { settings with errorLimit := n } = .error e :=
        opens_neither ht rfl rfl
      rw [hs] at hs'
      cases hs'
  have hopens := ParseState.ofText_eq_ok.1 hs
  have hpair := hopens.pair_program (D := True) (n := n) (ParseState.ofText_eq_ok.1 ht)
    ⟨rfl, rfl, rfl, rfl, fun _ => ⟨rfl, rfl⟩, fun h => absurd trivial h⟩
  rcases compiles_or_overflows hopens with ⟨items, s', hrun, hc'⟩ | ⟨verb, s', -, hf⟩
  · obtain rfl : compiled items s' = c := Except.ok.inj (hc'.symm.trans hc)
    rw [accepted_eq ht]
    rw [hrun] at hpair
    generalize production .program t = y at hpair ⊢
    cases hpair with
    | ok h => exact absurd htruncated (by simp [compiled, h.reports.truncated])
    | parted h =>
      rcases h with hcut | ⟨hD, -⟩
      · exact notice_placed hcut
      · exact absurd trivial hD
  · rw [hf] at hc
    cases hc

/-- The notice closes the list just if no accepted report begins behind the first that was
dropped. -/
theorem notice_last_iff (hc : ofText text { settings with errorLimit := n } = .ok c)
    (htruncated : c.truncated = true) : ∃ r, (accepted text settings)[n]? = some r ∧
    (c.reports.getLast?.map (·.code) = some .tooManyErrors ↔
      ∀ s ∈ (accepted text settings).take n, s.place ≤ r.place) := by
  obtain ⟨r, front, back, hr, hsplit, hrest, hcodes, hfront, hback⟩ := notice_listed hc htruncated
  have hperm : (front ++ back).Perm ((accepted text settings).take n) :=
    hrest ▸ List.mergeSort_perm _ Report.before
  refine ⟨r, hr, ?_⟩
  rw [hsplit]
  cases hlast : back.getLast? with
  | none =>
    obtain rfl := List.getLast?_eq_none_iff.1 hlast
    rw [List.append_nil] at hperm
    simp only [List.getLast?_concat, Option.map_some, Queue.tooManyErrors, true_iff]
    exact fun s hs => hfront s (hperm.mem_iff.2 hs)
  | some s =>
    have hs : s ∈ back := List.mem_of_getLast? hlast
    rw [List.getLast?_append, List.getLast?_cons, hlast]
    refine iff_of_false (fun h => ?_) fun h => ?_
    · exact hcodes s (List.mem_append_right _ hs) (Option.some.inj h)
    · exact absurd (h s (hperm.mem_iff.1 (List.mem_append_right _ hs)))
        (not_le_of_gt (hback s hs))

/-- The second error of a text is past a ceiling at one. -/
theorem two_dollars_cut : ∃ c d, 1 ≤ 1 ∧
    ofText "$ $" { Settings.standard with errorLimit := 1 } = .ok c ∧
    ofText "$ $" { Settings.standard with errorLimit := 0 } = .ok d ∧
    c.truncated = true ∧ CutAt 1 (accepted "$ $" Settings.standard) c d := by
  have hnames : 44 ≤ min Settings.standard.arenaReserve maxOffset := by decide
  have hslots : 9 * poolBatch ≤ min Settings.standard.poolReserve maxOffset := by decide
  have hend : (Window.ofText "$ $").skipErrors.2.atEnd = true := by decide +kernel
  obtain ⟨s, hs, -⟩ := ParseState.exists_opens (n := 0) "$ $"
    { Settings.standard with errorLimit := 1 } hnames hslots
  obtain ⟨t, ht, -⟩ := ParseState.exists_opens (n := 0) "$ $"
    { Settings.standard with errorLimit := 0 } hnames hslots
  have hc := compiled_atEnd hs (hs.window ▸ hend)
  have hd := compiled_atEnd ht (ht.window ▸ hend)
  have hcut := ceiling_only_cuts "$ $" Settings.standard 1 (Nat.le_refl 1)
  rw [hc, hd] at hcut
  refine ⟨_, _, Nat.le_refl 1, hc, hd, ?_, hcut⟩
  change s.reports.truncated = true
  rw [hs.reports]
  decide +kernel

end Compilation

end FrontEnd
