import FrontEnd.Proofs.Grammar.Opening

/-! However reading a block ends, names, scopes and return types are what they were before. -/

namespace FrontEnd

namespace ParseState

variable {s t : ParseState}

/-- The same scopes are open, and the same is declared in them. -/
structure SameScopes (s t : ParseState) : Prop where
  scope : t.scope = s.scope
  returns : t.returns = s.returns
  vars : ∀ key, t.symbols.vars.get? key = s.symbols.vars.get? key
  funcs : ∀ key, t.symbols.funcs.get? key = s.symbols.funcs.get? key
  types : ∀ key, t.symbols.types.get? key = s.symbols.types.get? key
  bindings : ∀ key, t.folder.bindingAt key = s.folder.bindingAt key

/-- Nothing is declared deeper than in the current block. -/
structure Flat (s : ParseState) : Prop where
  symbols : s.symbols.Shallow s.scope.depth
  bindings : ∀ key, s.scope.depth < key.depth → s.folder.bindingAt key = none
  scope : s.scope.Sound

theorem Onto.flat {k : Nat} (h : s.Onto k t) (hs : s.scope.Sound) : t.Flat :=
  ⟨h.sound.shallow, h.sound.bindings, (h.scope hs).sound hs⟩

/-- Where nothing is declared at the current depth, nothing changes at all. -/
theorem Onto.sameScopes (h : s.Onto 1 t) (hs : s.Sound) (hc : s.scope.Sound) : s.SameScopes t := by
  have hdepth (key : ScopedKey) : key.depth < s.scope.depth + 1 ∨ s.scope.depth < key.depth := by
    omega
  have ht := h.sound.shallow
  rw [h.depth] at ht
  refine ⟨?_, h.returns, fun key => ?_, fun key => ?_, fun key => ?_, fun key => ?_⟩
  · obtain ⟨hd, used, hcontexts, hused⟩ := h.scope hc
    have hnil : used = [] := List.eq_nil_iff_forall_not_mem.2 fun c hm => by
      have := (hused c hm).1
      omega
    rw [hnil, List.nil_append] at hcontexts
    cases hts : t.scope
    cases hss : s.scope
    simp_all
  · rcases hdepth key with hk | hk
    · exact h.symbols.vars key hk
    · rw [ht.vars key hk, hs.shallow.vars key hk]
  · rcases hdepth key with hk | hk
    · exact h.symbols.funcs key hk
    · rw [ht.funcs key hk, hs.shallow.funcs key hk]
  · rcases hdepth key with hk | hk
    · exact h.symbols.types key hk
    · rw [ht.types key hk, hs.shallow.types key hk]
  · rcases hdepth key with hk | hk
    · exact h.bindings key hk
    · rw [h.sound.bindings key (h.depth ▸ hk), hs.bindings key hk]

end ParseState

namespace Parse

variable {α : Type} {p : Parse α} {s : ParseState}

/-- Where a run ends, with a result or without. -/
def Reaches (p : Parse α) (s t : ParseState) : Prop :=
  (∃ a, p s = .ok a t) ∨ ∃ e, p s = .error e t

theorem Steady.onto {k : Nat} {t : ParseState} (h : Steady k p) (hs : s.Sound)
    (ht : Reaches p s t) : s.Onto k t := by
  obtain ⟨a, ha⟩ | ⟨e, he⟩ := ht
  · exact h.ok ha hs
  · exact (h.error he hs).1

/-- However they end, blocks and the bodies of functions leave scopes, declarations and return types
as they were; statements leave the block open, and declare nothing deeper. -/
theorem bodies_restore_scopes (h : s.Sound) (hc : s.scope.Sound) :
    (∀ t, Reaches (block production) s t → s.SameScopes t) ∧
    (∀ type t, Reaches (functionBody production type) s t → s.SameScopes t) ∧
    ∀ t, Reaches (production .stmt) s t →
      t.scope.depth = s.scope.depth ∧ t.returns = s.returns ∧ t.Flat := by
  refine ⟨fun t ht => ?_, fun type t ht => ?_, fun t ht => ?_⟩
  · exact ((stores_block steady_production).steady.onto h ht).sameScopes h hc
  · exact ((steady_functionBody steady_production type).onto h ht).sameScopes h hc
  · have ho := (steady_production .stmt).onto h ht
    exact ⟨ho.depth, ho.returns, ho.flat hc⟩

/-- A block in the state in which reading of `{ x : int; }` begins. -/
theorem first_block_restores_scopes : ∃ s, ParseState.ofText "{ x : int; }" .standard = .ok s ∧
    s.Sound ∧ s.scope.Sound ∧ ∀ t, Reaches (block production) s t → s.SameScopes t := by
  obtain ⟨s, hs, -⟩ :=
    ParseState.exists_opens "{ x : int; }" .standard (n := 0) (by decide) (by decide)
  have hscope : s.scope.Sound := hs.scope ▸ Scope.sound_top
  exact ⟨s, ParseState.ofText_eq_ok.2 hs, hs.sound, hscope,
    (bodies_restore_scopes hs.sound hscope).1⟩

end Parse

end FrontEnd
