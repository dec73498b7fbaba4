import FrontEnd.Proofs.Grammar.Link

/-! How linked runs are put together, and the small steps that both of them make. -/

namespace FrontEnd

namespace Link

variable {l : Link} {α β : Type} {es es' : List Entry} {x : Entry} {s₁ s₂ t₁ t₂ : ParseState}
  {p₁ p₂ : Parse α} {f₁ f₂ : α → Parse β} {R R' : α → α → ParseState → ParseState → Prop}
  {Q : β → β → ParseState → ParseState → Prop} {k : Nat}

/-! ### Rules -/

theorem firm_of_ok {a b : α} (h₁ : p₁ s₁ = .ok a t₁) (h₂ : p₂ s₂ = .ok b t₂) (h : R a b t₁ t₂) :
    l.Firm es p₁ p₂ s₁ s₂ R :=
  .ok h₁ h₂ h

theorem firm_pure {a b : α} (h : R a b s₁ s₂) : l.Firm es (pure a) (pure b) s₁ s₂ R :=
  .ok rfl rfl h

theorem Firm.imp (h : l.Firm es p₁ p₂ s₁ s₂ R)
    (hR : ∀ a b t₁ t₂, R a b t₁ t₂ → R' a b t₁ t₂) : l.Firm es p₁ p₂ s₁ s₂ R' := by
  cases h with
  | ok h₁ h₂ h => exact .ok h₁ h₂ (hR _ _ _ _ h)
  | stop h₁ h₂ h hpos => exact .stop h₁ h₂ h hpos
  | fault h₁ h₂ hf => exact .fault h₁ h₂ hf
  | first h₁ hb => exact .first h₁ hb
  | second h₂ hb => exact .second h₂ hb

theorem Pair.imp (h : l.Pair es p₁ p₂ s₁ s₂ R)
    (hR : ∀ a b t₁ t₂, R a b t₁ t₂ → R' a b t₁ t₂) : l.Pair es p₁ p₂ s₁ s₂ R' := by
  cases h with
  | firm h => exact .firm (h.imp hR)
  | apart h => exact .apart h

theorem Firm.bind (h : l.Firm es p₁ p₂ s₁ s₂ R)
    (hf : ∀ a b t₁ t₂, R a b t₁ t₂ → l.Firm es (f₁ a) (f₂ b) t₁ t₂ Q) :
    l.Firm es (p₁ >>= f₁) (p₂ >>= f₂) s₁ s₂ Q := by
  cases h with
  | ok h₁ h₂ h =>
    cases hf _ _ _ _ h with
    | ok g₁ g₂ g => exact .ok ((bind_of_ok h₁).trans g₁) ((bind_of_ok h₂).trans g₂) g
    | stop g₁ g₂ g hpos => exact .stop ((bind_of_ok h₁).trans g₁) ((bind_of_ok h₂).trans g₂) g hpos
    | fault g₁ g₂ hf => exact .fault ((bind_of_ok h₁).trans g₁) ((bind_of_ok h₂).trans g₂) hf
    | first g₁ hb => exact .first ((bind_of_ok h₁).trans g₁) hb
    | second g₂ hb => exact .second ((bind_of_ok h₂).trans g₂) hb
  | stop h₁ h₂ h hpos => exact .stop (bind_of_error h₁) (bind_of_error h₂) h hpos
  | fault h₁ h₂ hf => exact .fault (bind_of_error h₁) (bind_of_error h₂) hf
  | first h₁ hb => exact .first (bind_of_error h₁) hb
  | second h₂ hb => exact .second (bind_of_error h₂) hb

theorem pair_bind_of_ok {a b : α} (h₁ : p₁ s₁ = .ok a t₁) (h₂ : p₂ s₂ = .ok b t₂)
    (h : l.Pair es (f₁ a) (f₂ b) t₁ t₂ Q) : l.Pair es (p₁ >>= f₁) (p₂ >>= f₂) s₁ s₂ Q := by
  have hrun₁ := bind_of_ok (f := f₁) h₁
  have hrun₂ := bind_of_ok (f := f₂) h₂
  cases h with
  | firm h =>
    cases h with
    | ok g₁ g₂ g => exact .firm (.ok (hrun₁.trans g₁) (hrun₂.trans g₂) g)
    | stop g₁ g₂ g hpos => exact .firm (.stop (hrun₁.trans g₁) (hrun₂.trans g₂) g hpos)
    | fault g₁ g₂ hf => exact .firm (.fault (hrun₁.trans g₁) (hrun₂.trans g₂) hf)
    | first g₁ hb => exact .firm (.first (hrun₁.trans g₁) hb)
    | second g₂ hb => exact .firm (.second (hrun₂.trans g₂) hb)
  | apart h =>
    refine .apart ?_
    rwa [hrun₁, hrun₂]

/-- After a step in which the runs cannot part. -/
theorem Firm.bind_pair (h : l.Firm es p₁ p₂ s₁ s₂ R)
    (hf : ∀ a b t₁ t₂, R a b t₁ t₂ → l.Pair es (f₁ a) (f₂ b) t₁ t₂ Q) :
    l.Pair es (p₁ >>= f₁) (p₂ >>= f₂) s₁ s₂ Q := by
  cases h with
  | ok h₁ h₂ h => exact pair_bind_of_ok h₁ h₂ (hf _ _ _ _ h)
  | stop h₁ h₂ h hpos => exact .firm (.stop (bind_of_error h₁) (bind_of_error h₂) h hpos)
  | fault h₁ h₂ hf => exact .firm (.fault (bind_of_error h₁) (bind_of_error h₂) hf)
  | first h₁ hb => exact .firm (.first (bind_of_error h₁) hb)
  | second h₂ hb => exact .firm (.second (bind_of_error h₂) hb)

theorem firm_get_bind {g₁ g₂ : ParseState → Parse β} (h : l.Firm es (g₁ s₁) (g₂ s₂) s₁ s₂ Q) :
    l.Firm es (get >>= g₁) (get >>= g₂) s₁ s₂ Q :=
  Firm.bind (firm_of_ok (R := fun a b t₁ t₂ => s₁ = a ∧ s₂ = b ∧ s₁ = t₁ ∧ s₂ = t₂)
    (get_eq s₁) (get_eq s₂) ⟨rfl, rfl, rfl, rfl⟩) fun _ _ _ _ => by
      rintro ⟨rfl, rfl, rfl, rfl⟩
      exact h

theorem pair_get_bind {g₁ g₂ : ParseState → Parse β} (h : l.Pair es (g₁ s₁) (g₂ s₂) s₁ s₂ Q) :
    l.Pair es (get >>= g₁) (get >>= g₂) s₁ s₂ Q :=
  pair_bind_of_ok (get_eq s₁) (get_eq s₂) h

/-- Whatever follows leads on from where a run was. -/
theorem onto_last {p : Parse α} {f : α → Parse β} {s : ParseState} (hs : (last (p s)).Sound)
    (hf : ∀ a, Parse.Steady 0 (f a)) : (last (p s)).Onto 0 (last ((p >>= f) s)) := by
  cases hp : p s with
  | ok a t =>
    rw [hp] at hs
    rw [bind_of_ok hp]
    cases hq : f a t with
    | ok b u => exact (hf a).ok hq hs
    | error e u => exact ((hf a).error hq hs).1
  | error e t =>
    rw [hp] at hs
    rw [bind_of_error hp]
    exact hs.refl 0

/-- Where steady runs lead. -/
theorem Firm.onto (h : l.Firm es p₁ p₂ s₁ s₂ R) (h₁ : Parse.Steady k p₁) (h₂ : Parse.Steady k p₂)
    (hs₁ : s₁.Sound) (hs₂ : s₂.Sound) : l.Firm es p₁ p₂ s₁ s₂ fun a b t₁ t₂ =>
      R a b t₁ t₂ ∧ s₁.Onto k t₁ ∧ s₂.Onto k t₂ := by
  cases h with
  | ok g₁ g₂ g => exact .ok g₁ g₂ ⟨g, h₁.ok g₁ hs₁, h₂.ok g₂ hs₂⟩
  | stop g₁ g₂ g hpos => exact .stop g₁ g₂ g hpos
  | fault g₁ g₂ hf => exact .fault g₁ g₂ hf
  | first g₁ hb => exact .first g₁ hb
  | second g₂ hb => exact .second g₂ hb

theorem Pair.onto (h : l.Pair es p₁ p₂ s₁ s₂ R) (h₁ : Parse.Steady k p₁) (h₂ : Parse.Steady k p₂)
    (hs₁ : s₁.Sound) (hs₂ : s₂.Sound) : l.Pair es p₁ p₂ s₁ s₂ fun a b t₁ t₂ =>
      R a b t₁ t₂ ∧ s₁.Onto k t₁ ∧ s₂.Onto k t₂ := by
  cases h with
  | firm h => exact .firm (h.onto h₁ h₂ hs₁ hs₂)
  | apart h => exact .apart h

/-- Reports are not taken back. -/
theorem Apart.later (h : l.Apart s₁ s₂) (h₁ : t₁.Sound) (h₂ : t₂.Sound)
    (hle₁ : s₁.reports.reports.size ≤ t₁.reports.reports.size)
    (hle₂ : s₂.reports.reports.size ≤ t₂.reports.reports.size) : l.Apart t₁ t₂ :=
  ⟨h₁, h₂, h.parts, h.reports.imp (fun hpos => Nat.lt_of_lt_of_le hpos hle₁)
    fun hpos => Nat.lt_of_lt_of_le hpos hle₂⟩

/-! ### Where the runs are -/

/-- Further on at this window, in the same block. -/
structure At (l : Link) (es : List Entry) (s₁ : ParseState) (w : Window) (t₁ t₂ : ParseState) :
    Prop where
  rel : l.Rel es t₁ t₂
  window : t₁.window = w
  onto : s₁.Onto 1 t₁
  moved : ∃ window names reports, t₁ = s₁.glide window names reports

theorem Rel.here (h : l.Rel es s₁ s₂) : l.At es s₁ s₁.window s₁ s₂ :=
  ⟨h, rfl, h.sound₁.refl 1, s₁.window, s₁.names, s₁.reports, rfl⟩

/-- One step after the other, where the second one stays at its window. -/
theorem At.trans {u₁ u₂ : ParseState} {w : Window} (h : l.At es s₁ w t₁ t₂)
    (h' : l.At es t₁ t₁.window u₁ u₂) : l.At es s₁ w u₁ u₂ := by
  obtain ⟨_, hw, ho, _, _, _, rfl⟩ := h
  obtain ⟨hr, hw', ho', window, names, reports, rfl⟩ := h'
  exact ⟨hr, hw'.trans hw, ho.trans ho', window, names, reports, rfl⟩

theorem Rel.sees (h : l.Rel es s₁ s₂) : l.Sees s₁.window := ⟨es, s₁, s₂, h, rfl⟩

/-- After a step in which the runs may part. -/
theorem Pair.bind (h : l.Pair es p₁ p₂ s₁ s₂ R) (c₁ : ∀ a, Parse.Steady 0 (f₁ a))
    (c₂ : ∀ a, Parse.Steady 0 (f₂ a))
    (hf : ∀ a b t₁ t₂, R a b t₁ t₂ → l.Pair es (f₁ a) (f₂ b) t₁ t₂ Q) :
    l.Pair es (p₁ >>= f₁) (p₂ >>= f₂) s₁ s₂ Q := by
  cases h with
  | firm h => exact h.bind_pair hf
  | apart h =>
    have ho₁ := onto_last h.sound₁ c₁
    have ho₂ := onto_last h.sound₂ c₂
    exact .apart (h.later ho₁.sound ho₂.sound ho₁.reports ho₂.reports)

/-- How a run alone can end does not depend on what is done about it. -/
theorem Breaks.mono {ids ids' : List NodeId} {e : Stop} (h : l.Breaks ids e s₁)
    (ht : t₁.tree = s₁.tree) (hs : ids'.Sublist ids) : l.Breaks ids' e t₁ := by
  cases e with
  | exhausted cause =>
    show t₁.tree.Owns ids'
    rw [ht]
    exact Tree.Owns.sublist h hs
  | fault f => exact h
  | reported => exact h

theorem Breaks.shed {es : List Entry} {side : Entry → List NodeId} {e : Stop}
    (h : l.Breaks ((x :: es).flatMap side) e s₁) : l.Breaks (es.flatMap side) e s₁ := by
  rw [List.flatMap_cons] at h
  exact h.mono rfl (List.sublist_append_right ..)

section

variable [l.Moves]

theorem Firm.shed (h : l.Firm (x :: es) p₁ p₂ s₁ s₂ R) : l.Firm es p₁ p₂ s₁ s₂ R := by
  cases h with
  | ok h₁ h₂ h => exact .ok h₁ h₂ h
  | stop h₁ h₂ h hpos => exact .stop h₁ h₂ (Moves.shed h hpos) hpos
  | fault h₁ h₂ hf => exact .fault h₁ h₂ hf
  | first h₁ hb => exact .first h₁ hb.shed
  | second h₂ hb => exact .second h₂ hb.shed

theorem Pair.shed (h : l.Pair (x :: es) p₁ p₂ s₁ s₂ R) : l.Pair es p₁ p₂ s₁ s₂ R := by
  cases h with
  | firm h => exact .firm h.shed
  | apart h => exact .apart h

theorem Firm.sheds (h : l.Firm (es' ++ es) p₁ p₂ s₁ s₂ R) : l.Firm es p₁ p₂ s₁ s₂ R := by
  induction es' with
  | nil => exact h
  | cons x es' ih => exact ih h.shed

theorem Pair.sheds (h : l.Pair (es' ++ es) p₁ p₂ s₁ s₂ R) : l.Pair es p₁ p₂ s₁ s₂ R := by
  cases h with
  | firm h => exact .firm h.sheds
  | apart h => exact .apart h

theorem Rel.same (h : l.Rel es s₁ s₂) : s₁.Same s₂ := Moves.same h.rel

theorem Rel.glide (h : l.Rel es s₁ s₂) (window : Window) (names : Interner) (reports : Queue)
    (hw : window = s₁.window ∨ window = s₁.window.after)
    (h₁ : s₁.Onto 1 (s₁.glide window names reports))
    (h₂ : s₂.Onto 1 (s₂.glide window names reports)) :
    l.At es s₁ window (s₁.glide window names reports) (s₂.glide window names reports) :=
  ⟨⟨h₁.sound, h₂.sound, Moves.glide h hw h₁ h₂⟩, rfl, h₁, window, names, reports, rfl⟩

end

end Link

end FrontEnd
