import FrontEnd.Proofs.Grammar.SteadyStatements
import FrontEnd.Proofs.Storage.Room

/-! The state in which reading of a text begins. -/

namespace FrontEnd

theorem Parse.skipErrors_run (s : ParseState) : Parse.skipErrors s = .ok ⟨⟩ { s with
    window := s.window.skipErrors.2
    reports := s.window.skipErrors.1.foldl Parse.reportToken s.reports } := rfl

namespace ParseState

variable {text : String} {settings : Settings} {s : ParseState}

/-- Nothing is stored or declared yet, and no token is taken. -/
structure Opens (text : String) (settings : Settings) (s : ParseState) : Prop where
  window : s.window = (Window.ofText text).skipErrors.2
  lines : s.lines = Lines.ofText text
  tree : s.tree = Tree.withMaxSlots settings.poolReserve
  symbols : s.symbols = .empty
  scope : s.scope = .top
  folder : s.folder = .empty
  reports : s.reports = (Window.ofText text).skipErrors.1.foldl Parse.reportToken
    (Queue.withConfig ⟨settings.errorLimit, settings.deduplicate⟩)
  returns : s.returns = []
  folds : s.folds = settings.folds
  scratch : s.scratch = settings.arenaReserve
  basics : TypeTable.withMaxSlots (Interner.withReserve settings.arenaReserve)
    settings.poolReserve = .ok (s.types, s.names)

theorem ofText_eq_ok : ofText text settings = .ok s ↔ s.Opens text settings := by
  unfold ofText
  constructor
  · intro h
    cases ht : TypeTable.withMaxSlots (Interner.withReserve settings.arenaReserve)
        settings.poolReserve with
    | error e => simp [ht, Bind.bind, Except.bind] at h
    | ok r =>
      obtain ⟨types, names⟩ := r
      simp only [ht, Bind.bind, Except.bind] at h
      cases h
      exact ⟨rfl, rfl, rfl, rfl, rfl, rfl, rfl, rfl, rfl, rfl, ht⟩
  · rintro ⟨hwindow, hlines, htree, hsymbols, hscope, hfolder, hreports, hreturns, hfolds,
      hscratch, hbasics⟩
    simp only [hbasics, Bind.bind, Except.bind, Pure.pure, Except.pure, Parse.skipErrors_run,
      Except.ok.injEq]
    rw [← hwindow, ← hlines, ← htree, ← hsymbols, ← hscope, ← hfolder, ← hreports, ← hreturns,
      ← hfolds, ← hscratch]

theorem ofText_eq_error {e : StorageError} : ofText text settings = .error e ↔
    TypeTable.withMaxSlots (Interner.withReserve settings.arenaReserve) settings.poolReserve =
      .error e := by
  unfold ofText
  cases TypeTable.withMaxSlots (Interner.withReserve settings.arenaReserve)
      settings.poolReserve with
  | error e' =>
    constructor
    · intro h
      cases h
      rfl
    · intro h
      cases h
      rfl
  | ok r => exact iff_of_false nofun nofun

theorem Opens.sound (h : s.Opens text settings) : s.Sound := sound_ofText (ofText_eq_ok.2 h)

/-- The error tokens that were passed since the start of the text are accounted for. -/
theorem Opens.tokens {t : ParseState} {k : Nat} (h : s.Opens text settings) (ho : s.Onto k t) :
    ∃ n, t.window = (Window.ofText text).drop n ∧
      (Queue.withConfig ⟨settings.errorLimit, settings.deduplicate⟩).Accounts
        ((Window.ofText text).errors n) t.reports := by
  obtain ⟨i, hi, -⟩ := (Window.ofText text).skipErrors_errors
  obtain ⟨j, hj, ha⟩ := ho.tokens
  have hfirst :=
    ((Queue.sound_withConfig ⟨settings.errorLimit, settings.deduplicate⟩).accounts_tokens
    ((Window.ofText text).errors i)).2
  rw [h.window, h.reports, hi] at ha
  exact ⟨i + j, by rw [hj, h.window, hi, Window.drop_drop],
    by rw [Window.errors_add]; exact hfirst.trans ha⟩

/-- In a text shorter than four gibibytes, reports stand where they point from then on. -/
theorem Opens.placed {t : ParseState} {k : Nat} (h : s.Opens text settings) (ho : s.Onto k t)
    (hsize : text.utf8ByteSize ≤ maxOffset) : t.reports.Placed (Lines.ofText text) := by
  obtain ⟨n, hn, -⟩ := (Window.ofText text).skipErrors_errors
  have hwindow := Window.placed_ofText hsize
  have hplaced := ho.placed
  rw [KeepsPlaces, h.lines, h.window, h.reports, hn] at hplaced
  exact hplaced (hwindow.drop n) ((Queue.placed_withConfig _ _).tokens (hwindow.errors n))

/-- Reading can begin if the basic types and their texts find room; more of it is left for bytes
and types. -/
theorem exists_opens_roomy (text : String) (settings : Settings) {n k : Nat}
    (hnames : 44 + n ≤ min settings.arenaReserve maxOffset)
    (hslots : (k + 9) * poolBatch ≤ min settings.poolReserve maxOffset) :
    ∃ s, Opens text settings s ∧ s.names.Roomy n ∧ s.types.types.Roomy k := by
  have hreserve : (Interner.withReserve settings.arenaReserve).Roomy (44 + n) := by
    unfold Interner.Roomy
    change 0 + (44 + n) ≤ min settings.arenaReserve maxOffset
    omega
  have hpool : (Pool.withMaxSlots settings.poolReserve : Pool TypeDesc).Roomy (k + 9) :=
    Pool.roomy_withMaxSlots hslots
  obtain ⟨types, names, hbasics, hroom⟩ := TypeTable.exists_addBasics BasicType.all
    (t := ⟨Pool.withMaxSlots settings.poolReserve⟩) hpool hreserve
  exact ⟨⟨_, _, _, types, names, _, _, _, _, _, _, _⟩,
    ⟨rfl, rfl, rfl, rfl, rfl, rfl, rfl, rfl, rfl, rfl, hbasics⟩, hroom⟩

/-- Reading can begin if the basic types and their texts find room; further bytes are left. -/
theorem exists_opens (text : String) (settings : Settings) {n : Nat}
    (hnames : 44 + n ≤ min settings.arenaReserve maxOffset)
    (hslots : 9 * poolBatch ≤ min settings.poolReserve maxOffset) :
    ∃ s, Opens text settings s ∧ s.names.Roomy n := by
  obtain ⟨s, hs, hroom, -⟩ := exists_opens_roomy (k := 0) text settings hnames
    (by rwa [Nat.zero_add])
  exact ⟨s, hs, hroom⟩

end ParseState

end FrontEnd
