import FrontEnd.Proofs.Grammar.Strict
import FrontEnd.Proofs.Program.Typed

/-!
Nothing is dropped without a report. Where there are none, all of the text was read, no statement
failed, and every node is one of the program.
-/

namespace FrontEnd

/-- A node in the place of what could not be read. -/
def Node.Flawed : Node → Prop
  | .expr e => e.kind = .error
  | .stmt s => s.kind = .error

theorem Branch.Settled.not_flawed {types : TypeTable} {declared : Overload → Prop} {b c : Branch}
    (h : b.Settled types declared) (hc : c ∈ b.all) : ¬c.node.Flawed := by
  have hfits := h c hc
  obtain ⟨root, node, parts⟩ := c
  cases node with
  | stmt s => exact hfits
  | expr e =>
    intro hflaw
    have hsuits := hfits.2
    rw [Expr.Suits, show e.kind = .error from hflaw] at hsuits
    exact hsuits

namespace Compilation

open Parse

variable {text : String} {settings : Settings} {c : Compilation} {s t : ParseState} {k : Nat}

/-- All of the text is in the program. -/
structure Complete (text : String) (settings : Settings) (c : Compilation) : Prop where
  /-- The text has no lexical errors. -/
  tokens : ∀ t ∈ tokenize text, t.kind ≠ .error
  /-- Its tokens are read up to the last one. No statement fails, in a body or outside, and each is
  in the tree as it was read. -/
  read : ∃ s t n, ParseState.ofText text settings = .ok s ∧
    strictly c.tree .program s = .ok c.items t ∧ t.tree = c.tree ∧
    t.window = (Window.ofText text).drop n ∧ t.window.atEnd = true
  /-- All that the tree holds is below the statements of the program, and stands for what was
  read. -/
  nodes : ∀ id node, c.tree.node? id = some node →
    ¬node.Flawed ∧ ∃ ks, c.tree.Path (c.items.map .stmt) ks id
  truncated : c.truncated = false

/-- An error token that was passed leaves a report. -/
theorem no_errors_atEnd (hs : s.Opens text settings) (ho : s.Onto k t)
    (hend : t.window.atEnd = true) (hq : t.reports.reports = #[]) :
    ∀ t ∈ tokenize text, t.kind ≠ .error := by
  obtain ⟨n, hn, ha⟩ := hs.tokens ho
  intro token htoken hkind
  have hmem : token ∈ (Window.ofText text).errors n := by
    rw [Window.errors_ofText (hn ▸ hend)]
    exact List.mem_filter.2 ⟨htoken, beq_iff_eq.2 hkind⟩
  have hpos := ha.nonempty ⟨token, hmem, (Window.marked_ofText text).errors n token hmem⟩
  simp [hq] at hpos

/-- Without reports a compilation is complete, under all settings with which it can begin. -/
theorem complete_of_no_reports (text : String) (settings : Settings) :
    match ofText text settings with
    | .ok c => c.reports = [] → c.Complete text settings
    | .error (.cause e) => ParseState.ofText text settings = .error e
    | .error (.fault f) => ∃ verb, f = .overflow verb := by
  refine compiles fun s items t hopens hrun hr => ?_
  have hq : t.reports.reports = #[] := reports_eq_empty hr
  have ho := (steady_production .program).ok hrun hopens.sound
  have hstrict := strictly_of_quiet hopens.sound hrun hq
  have hend : t.window.atEnd = true := atEnd_of_strictWithin hstrict
  obtain ⟨n, hn, -⟩ := hopens.tokens ho
  obtain ⟨bs, hends⟩ := (solo_program t.types hopens).of_ok hrun
  have hquiet : (Pass.solo settings.folds text t.types).Quiet t := ⟨hq, .refl _⟩
  obtain ⟨os, hsettled, -⟩ := hends.settled hquiet
  refine ⟨no_errors_atEnd hopens ho hend hq,
    ⟨s, t, n, ParseState.ofText_eq_ok.2 hopens, hstrict, rfl, hn, hend⟩,
    fun id node hnode => ?_, (ho.sound.reports hq).2⟩
  have hid := (hends.counts hquiet).only id node hnode
  change ¬ node.Flawed ∧ ∃ ks, t.tree.Path (items.map .stmt) ks id
  rw [← hends.roots]
  refine ⟨?_, hends.holds.exists_path hid⟩
  obtain ⟨b, hb, rfl⟩ := List.mem_map.1 hid
  obtain rfl := Option.some.inj (hnode.symm.trans (hends.holds.stores b hb).node)
  obtain ⟨a, ha, hba⟩ := Branch.mem_allIn.1 hb
  exact (hsettled a ha).not_flawed hba

/-- A single constant is all of its text. -/
theorem constant_complete : ∃ c, ofText "const N := 5;" Settings.standard = .ok c ∧
    c.reports = [] ∧ c.Complete "const N := 5;" Settings.standard := by
  obtain ⟨c, -, -, hc, hr, -⟩ := exists_constant true
  have hcomplete := complete_of_no_reports "const N := 5;" Settings.standard
  rw [show ofText "const N := 5;" Settings.standard = .ok c from hc] at hcomplete
  exact ⟨c, hc, hr, hcomplete hr⟩

end Compilation

end FrontEnd
