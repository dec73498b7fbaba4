import FrontEnd.Proofs.Constant.FoldSteps
import FrontEnd.Proofs.Symbol.Declarations
import FrontEnd.Proofs.Token.Places
import FrontEnd.Proofs.Types.TableGrowth
import FrontEnd.Proofs.Typing.CheckSteps

/-!
What no step of reading undoes: tokens are only taken, reports, names and types only added, and
nothing is declared outside the current block. Error tokens are reported when they are taken, and
no other lexical error is. Reports stand where they point.
-/

namespace FrontEnd

namespace Scope

variable {s t u : Scope} {k : Nat}

/-- No namespace is used from a deeper block. -/
def Sound (s : Scope) : Prop := ∀ c ∈ s.contexts, c.isNamespace = false → c.depth ≤ s.depth

/-- The same block, in which more namespaces are used unless `k` is positive. -/
structure Onto (k : Nat) (s t : Scope) : Prop where
  depth : t.depth = s.depth
  contexts : ∃ used, t.contexts = used ++ s.contexts ∧
    ∀ c ∈ used, k = 0 ∧ c.isNamespace = false ∧ c.depth = s.depth

theorem Onto.refl (k : Nat) (s : Scope) : s.Onto k s := ⟨rfl, [], rfl, nofun⟩

theorem Onto.trans (h : s.Onto k t) (h' : t.Onto k u) : s.Onto k u := by
  obtain ⟨hd, used, hc, hall⟩ := h
  obtain ⟨hd', used', hc', hall'⟩ := h'
  refine ⟨hd'.trans hd, used' ++ used, by rw [hc', hc, List.append_assoc], fun c hm => ?_⟩
  rcases List.mem_append.1 hm with hm | hm
  · exact hd ▸ hall' c hm
  · exact hall c hm

theorem Onto.mono {j : Nat} (h : s.Onto k t) (hj : j ≤ k) : s.Onto j t := by
  obtain ⟨hd, used, hc, hall⟩ := h
  refine ⟨hd, used, hc, fun c hm => ⟨?_, (hall c hm).2⟩⟩
  have := (hall c hm).1
  omega

theorem Onto.sound (h : s.Onto k t) (hs : s.Sound) : t.Sound := by
  obtain ⟨hd, used, hc, hall⟩ := h
  intro c hm hn
  rw [hc] at hm
  rcases List.mem_append.1 hm with hm | hm
  · exact (hd ▸ (hall c hm).2.2).le
  · exact hd ▸ hs c hm hn

theorem sound_top : top.Sound := nofun

theorem Sound.enter (h : s.Sound) : s.enter.Sound :=
  fun c hm hn => Nat.le_succ_of_le (h c hm hn)

theorem Sound.pushNamespace (h : s.Sound) (name : Name) : (s.pushNamespace name).Sound := by
  intro c hm hn
  rcases List.mem_cons.1 hm with rfl | hm
  · cases hn
  · exact h c hm hn

/-- At the end of a block all is as it was. -/
theorem Onto.leave (h : s.enter.Onto 0 t) (hs : s.Sound) : t.leave = s := by
  obtain ⟨hd, used, hc, hall⟩ := h
  have hdepth : t.depth = s.depth + 1 := hd
  have hc : t.contexts = used ++ s.contexts := hc
  have hold : ∀ c ∈ s.contexts, (c.isNamespace || c.depth < t.depth) = true := by
    intro c hm
    cases hn : c.isNamespace with
    | true => rfl
    | false => simpa [hdepth] using Nat.lt_succ_of_le (hs c hm hn)
  have hnew : ∀ c ∈ used, ¬(c.isNamespace || c.depth < t.depth) = true := by
    intro c hm
    obtain ⟨-, hn, hlt⟩ := hall c hm
    simp [hn, hlt, hd]
  have hcontexts :
      t.contexts.filter (fun c => c.isNamespace || c.depth < t.depth) = s.contexts := by
    rw [hc, List.filter_append, List.filter_eq_nil_iff.2 hnew, List.filter_eq_self.2 hold]
    rfl
  rw [Scope.leave, hcontexts, hdepth]
  rfl

/-- At the end of a namespace as well. -/
theorem Onto.popNamespace {name : Name} (h : (s.pushNamespace name).Onto k t) :
    t.popNamespace.2 = s := by
  obtain ⟨hd, used, hc, hall⟩ := h
  have hdepth : t.depth = s.depth := hd
  have hdrop : t.contexts.dropWhile (!·.isNamespace) = ⟨name, s.depth, true⟩ :: s.contexts := by
    rw [hc, List.dropWhile_append_of_pos fun c hm => by simp [(hall c hm).2.1]]
    rfl
  simp only [Scope.popNamespace, hdrop, hdepth]

end Scope

namespace ParseState

variable {s t u : ParseState} {k : Nat}

/-- The storages are as their operations leave them, no error token is current, and
error tokens say what is wrong. -/
structure Sound (s : ParseState) : Prop where
  front : s.window.current.kind ≠ .error
  marks : s.window.Marked
  tree : s.tree.Sound
  types : s.types.Sound
  names : s.names.Sound
  reports : s.reports.Sound
  symbols : s.symbols.Sound
  shallow : s.symbols.Shallow s.scope.depth
  bindings : ∀ key, s.scope.depth < key.depth → s.folder.bindingAt key = none

/-- Reports are only added, and as long as there are none, the stored statements remain. -/
structure Grows (s t : ParseState) : Prop where
  reports : s.reports.reports.size ≤ t.reports.reports.size
  stmts : t.reports.reports = #[] → s.tree.Remains t.tree

theorem Grows.quiet (h : s.Grows t) (hq : t.reports.reports = #[]) : s.reports.reports = #[] := by
  have hle := h.reports
  rw [hq] at hle
  exact Array.size_eq_zero_iff.1 (Nat.le_zero.1 hle)

theorem Grows.trans (h : s.Grows t) (h' : t.Grows u) : s.Grows u where
  reports := h.reports.trans h'.reports
  stmts hq := (h.stmts (h'.quiet hq)).trans (h'.stmts hq)

/-- Reports that stand where they point, put in the place of those of a state whose tokens and
reports do. -/
def KeepsPlaces (s : ParseState) (reports : Queue) : Prop :=
  s.window.Placed s.lines → s.reports.Placed s.lines → reports.Placed s.lines

/-- `t` comes after `s`, and what is declared at depths below that of `s` and `k` more is the
same. -/
structure Onto (k : Nat) (s t : ParseState) : Prop where
  sound : t.Sound
  tokens : ∃ n, t.window = s.window.drop n ∧ s.reports.Accounts (s.window.errors n) t.reports
  placed : s.KeepsPlaces t.reports
  stmts : t.reports.reports = #[] → s.tree.Remains t.tree
  names : s.names.Grows t.names
  types : s.types.Grows t.types
  depth : t.scope.depth = s.scope.depth
  scope : s.scope.Sound → s.scope.Onto k t.scope
  symbols : s.symbols.Agree (s.scope.depth + k) t.symbols
  bindings : ∀ key, key.depth < s.scope.depth + k →
    t.folder.bindingAt key = s.folder.bindingAt key
  lines : t.lines = s.lines
  folds : t.folds = s.folds
  scratch : t.scratch = s.scratch
  returns : t.returns = s.returns

theorem Sound.refl (h : s.Sound) (k : Nat) : s.Onto k s where
  sound := h
  tokens := ⟨0, rfl, .refl _⟩
  placed _ hq := hq
  stmts _ := .refl _
  names := .refl _
  types := .refl _
  depth := rfl
  scope _ := .refl k _
  symbols := .refl _ _
  bindings _ _ := rfl
  lines := rfl
  folds := rfl
  scratch := rfl
  returns := rfl

theorem Onto.window (h : s.Onto k t) : ∃ n, t.window = s.window.drop n :=
  let ⟨n, hn, _⟩ := h.tokens
  ⟨n, hn⟩

theorem Onto.reports (h : s.Onto k t) : s.reports.reports.size ≤ t.reports.reports.size :=
  let ⟨_, _, ha⟩ := h.tokens
  ha.size_le

theorem Onto.grows (h : s.Onto k t) : s.Grows t := ⟨h.reports, h.stmts⟩

theorem Onto.endless (h : s.Onto k t) (hs : s.reports.Endless) : t.reports.Endless :=
  let ⟨_, _, ha⟩ := h.tokens
  ha.endless hs

theorem Onto.trans (h : s.Onto k t) (h' : t.Onto k u) : s.Onto k u where
  sound := h'.sound
  tokens := by
    obtain ⟨i, hi, ha⟩ := h.tokens
    obtain ⟨j, hj, ha'⟩ := h'.tokens
    rw [hi] at ha'
    exact ⟨i + j, by rw [hj, hi, Window.drop_drop], by rw [Window.errors_add]; exact ha.trans ha'⟩
  placed hw hq := by
    have hq' := h'.placed
    obtain ⟨n, hn⟩ := h.window
    rw [KeepsPlaces, h.lines, hn] at hq'
    exact hq' (hw.drop n) (h.placed hw hq)
  stmts := (h.grows.trans h'.grows).stmts
  names := h.names.trans h'.names
  types := h.types.trans h'.types
  depth := h'.depth.trans h.depth
  scope hs := (h.scope hs).trans (h'.scope ((h.scope hs).sound hs))
  symbols := h.symbols.trans (h.depth ▸ h'.symbols)
  bindings key hk := (h'.bindings key (by rw [h.depth]; exact hk)).trans (h.bindings key hk)
  lines := h'.lines.trans h.lines
  folds := h'.folds.trans h.folds
  scratch := h'.scratch.trans h.scratch
  returns := h'.returns.trans h.returns

theorem Onto.mono {j : Nat} (h : s.Onto k t) (hj : j ≤ k) : s.Onto j t :=
  { h with
    scope := fun hs => (h.scope hs).mono hj
    symbols := h.symbols.mono (by omega)
    bindings := fun key hk => h.bindings key (by omega) }

end ParseState

namespace Parse

variable {α β : Type} {k : Nat} {p : Parse α} {f : α → Parse β}

/-- From a sound state every step leads on to a later one, and a syntax error leaves a report. -/
abbrev Steady (k : Nat) (p : Parse α) : Prop :=
  Keeps (fun s t => s.Sound → s.Onto k t)
    (fun s e t => s.Sound → s.Onto k t ∧ (e = .reported → 0 < t.reports.reports.size)) p

instance : Std.Refl fun s t : ParseState => s.Sound → s.Onto k t := ⟨fun _ h => h.refl k⟩

instance : Trans (fun s t : ParseState => s.Sound → s.Onto k t) (fun s t => s.Sound → s.Onto k t)
    fun s t => s.Sound → s.Onto k t where
  trans h h' hs := (h hs).trans (h' (h hs).sound)

instance : Absorbs (fun s t : ParseState => s.Sound → s.Onto k t)
    fun s e t => s.Sound → s.Onto k t ∧ (e = Stop.reported → 0 < t.reports.reports.size) where
  absorb h h' hs := by
    obtain ⟨ht, he⟩ := h' (h hs).sound
    exact ⟨(h hs).trans ht, he⟩

/-- After a report, from a sound state every step leads on to a later one. -/
abbrev Loud (k : Nat) (p : Parse α) : Prop :=
  Keeps (fun s t => s.Sound → 0 < s.reports.reports.size → s.Onto k t)
    (fun s _ t => s.Sound → 0 < s.reports.reports.size → s.Onto k t) p

instance : Std.Refl fun s t : ParseState => s.Sound → 0 < s.reports.reports.size → s.Onto k t :=
  ⟨fun _ h _ => h.refl k⟩

instance : Trans (fun s t : ParseState => s.Sound → 0 < s.reports.reports.size → s.Onto k t)
    (fun s t => s.Sound → 0 < s.reports.reports.size → s.Onto k t)
    fun s t => s.Sound → 0 < s.reports.reports.size → s.Onto k t where
  trans h h' hs hpos := by
    have ht := h hs hpos
    exact ht.trans (h' ht.sound (hpos.trans_le ht.reports))

theorem Steady.loud (h : Steady k p) : Loud k p where
  meets s := (h.meets s).imp (fun _ _ ht hs _ => ht hs) fun _ _ ht hs _ => (ht hs).1

end Parse

end FrontEnd
