import FrontEnd.Proofs.Grammar.Opening
import FrontEnd.Proofs.Pair.StatementRuns

/-! Two runs of reading one text, from the first token on. -/

namespace FrontEnd

open Tie Parse

variable {D : Prop} {n : Nat} {text : String} {a b : Settings} {s t : ParseState}

/-! ### Basic types -/

theorem Interner.matches_withReserve {reserve reserve' : Nat} (h : D → reserve = reserve') :
    Matches D (withReserve reserve) reserve (withReserve reserve') reserve' :=
  ⟨fits_withReserve _, fits_withReserve _, rfl, h⟩

namespace TypeTable

variable {t u : TypeTable} {names names' : Interner} {scratch scratch' : Nat}

theorem Matches.addBasics (h : t.Matches D u) (hn : names.Matches D scratch names' scratch')
    (basics : List BasicType) :
    Answers D (fun x y => x.1.Matches D y.1 ∧ x.2.Matches D scratch y.2 scratch')
      (t.addBasics names basics) (u.addBasics names' basics) := by
  induction basics generalizing t u names names' with
  | nil => exact .ok ⟨h, hn⟩
  | cons b rest ih =>
    refine (hn.intern b.text).bind ?_
    rintro ⟨name, names⟩ ⟨name', names'⟩ ⟨hname, hn⟩
    obtain rfl : name = name' := hname
    refine (h.add (.basic b) name).bind ?_
    rintro ⟨id, t⟩ ⟨id', u⟩ ⟨-, h⟩
    exact ih h hn

/-- Tables of basic types that both found room. -/
theorem matches_basics {reserve reserve' slots slots' : Nat}
    (hD : D → reserve = reserve' ∧ slots = slots')
    (ht : withMaxSlots (Interner.withReserve reserve) slots = .ok (t, names))
    (hu : withMaxSlots (Interner.withReserve reserve') slots' = .ok (u, names')) :
    t.Matches D u ∧ names.Matches D reserve names' reserve' := by
  have hbasics := Matches.addBasics (t := ⟨Pool.withMaxSlots slots⟩)
    (u := ⟨Pool.withMaxSlots slots'⟩) (Pool.matches_withMaxSlots fun h => (hD h).2)
    (Interner.matches_withReserve fun h => (hD h).1) BasicType.all
  unfold withMaxSlots at ht hu
  rw [ht, hu] at hbasics
  cases hbasics with
  | ok h => exact h

end TypeTable

/-! ### Programs -/

/-- The settings differ only in a ceiling of the first run and, unless `D` holds, in their
reservations. -/
structure Settings.Limits (D : Prop) (n : Nat) (a b : Settings) : Prop where
  limit : a.errorLimit = n
  unlimited : b.errorLimit = 0
  folds : a.folds = b.folds
  deduplicate : a.deduplicate = b.deduplicate
  reserves : D → a.arenaReserve = b.arenaReserve ∧ a.poolReserve = b.poolReserve
  ceiling : ¬D → n = 0

namespace ParseState

/-- Runs begin in step, unless errors in front of the first token pass the ceiling. -/
theorem Opens.inStep (hs : s.Opens text a) (ht : t.Opens text b) (hab : a.Limits D n b) :
    s.InStep D n t ∨ s.reports.Cut n t.reports := by
  obtain ⟨htypes, hnames⟩ := TypeTable.matches_basics hab.reserves hs.basics ht.basics
  have htokens := (Queue.limits_withConfig n b.deduplicate).tokens
    (Window.ofText text).skipErrors.1
  rw [hs.reports, ht.reports, hab.limit, hab.unlimited, hab.deduplicate]
  refine htokens.imp_left fun hreports => ?_
  exact {
    window := hs.window.trans ht.window.symm
    lines := hs.lines.trans ht.lines.symm
    tree := by
      rw [hs.tree, ht.tree]
      exact Tree.matches_withMaxSlots fun hD => (hab.reserves hD).2
    types := htypes
    names := by
      rw [hs.scratch, ht.scratch]
      exact hnames
    symbols := hs.symbols.trans ht.symbols.symm
    scope := hs.scope.trans ht.scope.symm
    folder := hs.folder.trans ht.folder.symm
    reports := by
      rw [hs.reports, ht.reports, hab.limit, hab.unlimited, hab.deduplicate]
      exact hreports
    returns := hs.returns.trans ht.returns.symm
    folds := by rw [hs.folds, ht.folds, hab.folds]
    ceiling := hab.ceiling }

/-- Runs over one text stay in step to the end, or part for good. -/
theorem Opens.pair_program (hs : s.Opens text a) (ht : t.Opens text b) (hab : a.Limits D n b) :
    (tie D n).Pair (production .program s) (production .program t) := by
  have hsteps := steps_production (D := D) (n := n) .program
  rcases hs.inStep ht hab with h | h
  · exact hsteps.pair s t h
  · exact .parted (Lawful.right (Lawful.left (.inl h) (hsteps.left s)) (hsteps.left t))

end ParseState

end FrontEnd
