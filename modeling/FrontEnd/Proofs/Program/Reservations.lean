import FrontEnd.Proofs.Pair.Openings
import FrontEnd.Proofs.Program.Forests

/-!
How much room was reserved has no influence on what a compilation yields, as long as it is enough.
Where it is not, that is reported.
-/

namespace FrontEnd

namespace Compilation

open Parse Tie

variable {text : String} {a b settings : Settings} {s t : ParseState} {c d : Compilation}

/-- The same statements, nodes, types, names and reports under the same handles. What may differ is
the room that is left. -/
structure Same (c d : Compilation) : Prop where
  items : c.items = d.items
  expr : ∀ id, c.tree.expr id = d.tree.expr id
  stmt : ∀ id, c.tree.stmt id = d.tree.stmt id
  lists : c.tree.exprLists = d.tree.exprLists ∧ c.tree.stmtLists = d.tree.stmtLists
  nodes : c.tree.exprs.size = d.tree.exprs.size ∧ c.tree.stmts.size = d.tree.stmts.size
  types : ∀ id, c.types.desc id = d.types.desc id
  typeCount : c.types.size = d.types.size
  names : c.names.texts = d.names.texts
  reports : c.reports = d.reports
  truncated : c.truncated = d.truncated

/-- At no time is a member of a namespace hidden since a scratch arena has no room for its whole
name: of all interners that may have led to the names in the end, each finds what it has. -/
def FindsMembers (c : Compilation) (scratch : Nat) : Prop :=
  ∀ names : Interner, names.Sound → names.Grows c.names → ∀ outer name,
    Qualified.find? names scratch outer name =
      names.get? (names.lookup outer ++ "::" ++ names.lookup name)

/-- No storage ran out. -/
def HasRoom (c : Compilation) : Prop := ∀ r ∈ c.reports, r.code ≠ .exhausted

/-- Runs that are in step at the end leave the same. -/
theorem same_compiled {D : Prop} {n : Nat} (h : s.InStep D n t) (items : List StmtId) :
    Same (compiled items s) (compiled items t) where
  items := rfl
  expr := h.tree.expr_eq
  stmt := h.tree.stmt_eq
  lists := ⟨h.tree.exprLists, h.tree.stmtLists⟩
  nodes := ⟨h.tree.exprs.size, h.tree.stmts.size⟩
  types := congrFun h.types.desc_eq
  typeCount := h.types.size
  names := by
    show s.names.texts = t.names.texts
    rw [h.names.same]
  reports := congrArg (·.toList.mergeSort Report.before) h.reports.reports
  truncated := h.reports.truncated.1.trans h.reports.truncated.2.symm

/-- A run that ended and spent a storage reports that. -/
theorem not_spent {items : List StmtId} (h : HasRoom (compiled items s)) : ¬Spent (none, s) := by
  intro hs
  cases hs with
  | told hr hcode =>
    exact h _ (List.mem_mergeSort.2 (Array.mem_toList_iff.2 hr)) hcode

theorem same_of_hasRoom {items items' : List StmtId}
    (h : (tie False 0).Pair (.ok items s) (.ok items' t)) (hs : HasRoom (compiled items s))
    (ht : HasRoom (compiled items' t)) : Same (compiled items s) (compiled items' t) := by
  cases h with
  | ok h => exact same_compiled h items
  | parted h =>
    rcases h with hcut | ⟨-, hspent | hspent⟩
    · exact absurd hcut.pos (Nat.lt_irrefl 0)
    · exact absurd hspent (not_spent hs)
    · exact absurd hspent (not_spent ht)

/-- A run beside itself never parts, so its names keep fitting. -/
theorem findsMembers {items : List StmtId} (hs : s.Opens text settings)
    (hlimit : settings.errorLimit = 0) (hrun : production .program s = .ok items t) :
    FindsMembers (compiled items t) settings.arenaReserve := by
  have hpair := hs.pair_program (D := True) (n := 0) hs
    ⟨hlimit, hlimit, rfl, rfl, fun _ => ⟨rfl, rfl⟩, fun h => absurd trivial h⟩
  have hscratch := ((steady_production .program).ok hrun hs.sound).scratch
  rw [hrun] at hpair
  rw [← hs.scratch, ← hscratch]
  cases hpair with
  | ok h =>
    have hfits := h.names.left
    intro names hnames hgrows
    exact Interner.find?_eq_get? hnames fun n text hn =>
      hfits.reserve ▸ hfits.texts n text (hgrows n text hn)
  | parted h =>
    rcases h with hcut | ⟨hD, -⟩
    · exact absurd hcut.pos (Nat.lt_irrefl 0)
    · exact absurd trivial hD

/-- Two sets of reservations under which reading can begin lead to the same compilation, unless one
of them is reported to be too small. Reading fails only where numbers leave their range. -/
theorem reservations_unobserved (text : String) (settings : Settings) (arena pool : Nat)
    (hlimit : settings.errorLimit = 0) (hs : ParseState.ofText text settings = .ok s)
    (ht : ParseState.ofText text
      { settings with arenaReserve := arena, poolReserve := pool } = .ok t) :
    match ofText text settings,
      ofText text { settings with arenaReserve := arena, poolReserve := pool } with
    | .ok c, .ok d => (c.HasRoom → d.HasRoom → c.Same d) ∧
        c.FindsMembers settings.arenaReserve ∧ d.FindsMembers arena
    | .error e, _ => ∃ verb, e = .fault (.overflow verb)
    | .ok _, .error e => ∃ verb, e = .fault (.overflow verb) := by
  have hopens := ParseState.ofText_eq_ok.1 hs
  have hopens' := ParseState.ofText_eq_ok.1 ht
  have hlimits : settings.Limits False 0
      { settings with arenaReserve := arena, poolReserve := pool } :=
    ⟨hlimit, hlimit, rfl, rfl, False.elim, fun _ => rfl⟩
  have hpair := hopens.pair_program hopens' hlimits
  rcases compiles_or_overflows hopens with ⟨items, s', hrun, hc⟩ | ⟨verb, s', -, hf⟩
  · rcases compiles_or_overflows hopens' with ⟨items', t', hrun', hd⟩ | ⟨verb, t', -, hf⟩
    · rw [hrun, hrun'] at hpair
      have hleft := findsMembers hopens hlimit hrun
      have hright := findsMembers hopens' hlimit hrun'
      rw [hc, hd]
      exact ⟨same_of_hasRoom hpair, hleft, hright⟩
    · rw [hc, hf]
      exact ⟨verb, rfl⟩
  · rw [hf]
    exact ⟨verb, rfl⟩

/-- A text with an error is the same under the standard reservations and under small ones. -/
theorem dollar_in_small_room : ∃ s t c d,
    { Settings.standard with errorLimit := 0 }.errorLimit = 0 ∧
    ParseState.ofText "$" { Settings.standard with errorLimit := 0 } = .ok s ∧
    ParseState.ofText "$" { Settings.standard with
      errorLimit := 0, arenaReserve := 44, poolReserve := 288 } = .ok t ∧
    ofText "$" { Settings.standard with errorLimit := 0 } = .ok c ∧
    ofText "$" { Settings.standard with
      errorLimit := 0, arenaReserve := 44, poolReserve := 288 } = .ok d ∧
    c.reports ≠ [] ∧ c.HasRoom ∧ d.HasRoom ∧ c.Same d := by
  have hend : (Window.ofText "$").skipErrors.2.atEnd = true := by decide +kernel
  obtain ⟨s, hs, -⟩ := ParseState.exists_opens (n := 0) "$"
    { Settings.standard with errorLimit := 0 } (by decide) (by decide)
  obtain ⟨t, ht, -⟩ := ParseState.exists_opens (n := 0) "$"
    { Settings.standard with errorLimit := 0, arenaReserve := 44, poolReserve := 288 }
    (by decide) (by decide)
  have hs' := ParseState.ofText_eq_ok.2 hs
  have ht' := ParseState.ofText_eq_ok.2 ht
  have hc := compiled_atEnd hs (hs.window ▸ hend)
  have hd := compiled_atEnd ht (ht.window ▸ hend)
  have hroom {reports : Queue} (h : reports = (Window.ofText "$").skipErrors.1.foldl reportToken
      (Queue.withConfig ⟨0, true⟩)) :
      reports.flush.1 ≠ [] ∧ ∀ r ∈ reports.flush.1, r.code ≠ .exhausted := by
    rw [h]
    decide +kernel
  have hsame := reservations_unobserved "$" { Settings.standard with errorLimit := 0 } 44 288 rfl
    hs' ht'
  rw [hc, hd] at hsame
  have hleft := hroom hs.reports
  have hright := hroom ht.reports
  exact ⟨s, t, _, _, rfl, hs', ht', hc, hd, hleft.1, hleft.2, hright.2, hsame.1 hleft.2 hright.2⟩

end Compilation

end FrontEnd
