import FrontEnd.Proofs.Grammar.SteadyStatements
import FrontEnd.Proofs.Token.Places

/-!
Two programs that do the same from a state on, all the time or as long as nothing is reported, and
how many tokens they take.
-/

namespace FrontEnd

namespace Parse

variable {α β : Type} {i k n : Nat} {tree : Tree} {final : Option Tree} {s t : ParseState}
  {p p₁ p₂ : Parse α} {f f₁ f₂ : α → Parse β}

/-- There are no reports, and the stored statements are in this tree. -/
structure Calm (tree : Tree) (s : ParseState) : Prop where
  reports : s.reports.reports = #[]
  remains : s.tree.Remains tree

/-- It was calm before, if it is now. -/
theorem Calm.of_grows (h : Calm tree t) (hg : s.Grows t) : Calm tree s :=
  ⟨hg.quiet h.reports, (hg.stmts h.reports).trans h.remains⟩

/-- From `s`, there is a calm result. -/
def Quietly (tree : Tree) (p : Parse α) (s : ParseState) : Prop :=
  ∃ a t, p s = .ok a t ∧ Calm tree t

/-- From `s`, two programs do the same; if a final tree is given, then at least where the first one
has a calm result. Each result takes so many tokens. -/
structure Tracks (final : Option Tree) (k : Nat) (p₁ p₂ : Parse α) (s : ParseState) : Prop where
  eq : (∀ tree ∈ final, Quietly tree p₁ s) → p₁ s = p₂ s
  takes : ∀ a t, p₁ s = .ok a t → t.Sound ∧ t.window.left + k ≤ s.window.left
  grows : ∀ a t, p₁ s = .ok a t → s.Grows t

theorem Tracks.same (h : Tracks none k p₁ p₂ s) : p₁ s = p₂ s := h.eq nofun

/-- It was calm before a calm result. -/
theorem Quietly.first {a : α} (h : Quietly tree (p >>= f) s) (hp : p s = .ok a t)
    (hf : ∀ b u, f a t = .ok b u → t.Grows u) : Calm tree t ∧ Quietly tree (f a) t := by
  obtain ⟨b, u, hb, hu⟩ := h
  rw [bind_of_ok hp] at hb
  exact ⟨hu.of_grows (hf b u hb), b, u, hb, hu⟩

theorem Steady.takes {a : α} {t : ParseState} (h : Steady i p) (hs : s.Sound)
    (hp : p s = .ok a t) : t.Sound ∧ t.window.left ≤ s.window.left := by
  have ho := h.ok hp hs
  obtain ⟨m, hm⟩ := ho.window
  exact ⟨ho.sound, hm ▸ Window.left_drop_le _ _⟩

/-- Two programs that do the same, of which one is steady. -/
theorem tracks_of_eq (h : Steady i p₁) (hs : s.Sound)
    (he : (∀ tree ∈ final, Quietly tree p₁ s) → p₁ s = p₂ s) : Tracks final 0 p₁ p₂ s :=
  ⟨he, fun _ _ hp => h.takes hs hp, fun _ _ hp => (h.ok hp hs).grows⟩

theorem Steady.tracks (h : Steady i p) (hs : s.Sound) : Tracks final 0 p p s :=
  tracks_of_eq h hs fun _ => rfl

/-- A program without a result. -/
theorem tracks_of_error {e : Stop} {t : ParseState} (hp : p s = .error e t) :
    Tracks final k p p s :=
  ⟨fun _ => rfl, fun _ _ ha => (nomatch hp.symm.trans ha), fun _ _ ha => nomatch hp.symm.trans ha⟩

theorem Tracks.mono (h : Tracks final k p₁ p₂ s) (hi : i ≤ k) : Tracks final i p₁ p₂ s :=
  { h with
    takes := fun a t hp => by
      obtain ⟨ht, hle⟩ := h.takes a t hp
      exact ⟨ht, by omega⟩ }

theorem Tracks.congr (h : Tracks final k p₁ p₂ s) {q₁ q₂ : Parse α} (h₁ : q₁ s = p₁ s)
    (h₂ : q₂ s = p₂ s) : Tracks final k q₁ q₂ s where
  eq hq := h₁.trans ((h.eq fun d hd => by simpa only [Quietly, h₁] using hq d hd).trans h₂.symm)
  takes a t hq := h.takes a t (h₁ ▸ hq)
  grows a t hq := h.grows a t (h₁ ▸ hq)

/-- The tokens that two steps take add up. -/
theorem Tracks.seq (hp : Tracks final i p₁ p₂ s)
    (hf : ∀ a t, t.Sound → t.window.left + i ≤ s.window.left → Tracks final k (f₁ a) (f₂ a) t) :
    Tracks final (i + k) (p₁ >>= f₁) (p₂ >>= f₂) s := by
  cases hr : p₁ s with
  | error e t =>
    have hnone (b : β) (u : ParseState) : (p₁ >>= f₁) s ≠ .ok b u := by
      rw [bind_of_error hr]
      nofun
    refine ⟨fun hq => ?_, fun b u hb => absurd hb (hnone b u), fun b u hb => absurd hb (hnone b u)⟩
    have hr₂ : p₂ s = .error e t := by
      rw [← hp.eq fun d hd => ?_, hr]
      obtain ⟨b, u, hb, -⟩ := hq d hd
      exact absurd hb (hnone b u)
    rw [bind_of_error hr, bind_of_error hr₂]
  | ok a t =>
    obtain ⟨ht, hle⟩ := hp.takes a t hr
    have hrest := hf a t ht hle
    refine ⟨fun hq => ?_, fun b u hb => ?_, fun b u hb => ?_⟩
    · have hfirst (d : Tree) (hd : d ∈ final) := (hq d hd).first hr hrest.grows
      have hr₂ : p₂ s = .ok a t := hp.eq (fun d hd => ⟨a, t, hr, (hfirst d hd).1⟩) ▸ hr
      rw [bind_of_ok hr, bind_of_ok hr₂, hrest.eq fun d hd => (hfirst d hd).2]
    · obtain ⟨hu, hle'⟩ := hrest.takes b u ((bind_of_ok hr).symm.trans hb)
      exact ⟨hu, by omega⟩
    · exact (hp.grows a t hr).trans (hrest.grows b u ((bind_of_ok hr).symm.trans hb))

theorem Tracks.bind (hp : Tracks final k p₁ p₂ s)
    (hf : ∀ a t, t.Sound → t.window.left + k ≤ s.window.left → Tracks final 0 (f₁ a) (f₂ a) t) :
    Tracks final k (p₁ >>= f₁) (p₂ >>= f₂) s := hp.seq hf

/-- What follows is a single program. -/
theorem Tracks.then (hp : Tracks final k p₁ p₂ s) (hf : ∀ a, Steady i (f a)) :
    Tracks final k (p₁ >>= f) (p₂ >>= f) s := hp.bind fun a _ ht _ => (hf a).tracks ht

/-- A step before tokens are taken. -/
theorem Tracks.after (hp : Tracks final 0 p₁ p₂ s)
    (hf : ∀ a t, t.Sound → t.window.left ≤ s.window.left → Tracks final k (f₁ a) (f₂ a) t) :
    Tracks final k (p₁ >>= f₁) (p₂ >>= f₂) s := by
  have h := hp.seq hf
  rwa [Nat.zero_add] at h

theorem Steady.tracks_bind (hp : Steady i p) (hs : s.Sound)
    (hf : ∀ a t, t.Sound → t.window.left ≤ s.window.left → Tracks final k (f₁ a) (f₂ a) t) :
    Tracks final k (p >>= f₁) (p >>= f₂) s := (hp.tracks hs).after hf

/-- A step that only looks. -/
theorem tracks_of_reads {a : α} (hp : p s = .ok a s) (h : Tracks final k (f₁ a) (f₂ a) s) :
    Tracks final k (p >>= f₁) (p >>= f₂) s :=
  h.congr (bind_of_ok hp) (bind_of_ok hp)

theorem tracks_pure {a : α} (hs : s.Sound) : Tracks final 0 (pure a : Parse α) (pure a) s :=
  Steady.tracks (i := 0) (keeps_pure a) hs

theorem Tracks.map {g : α → β} (h : Tracks final k p₁ p₂ s) :
    Tracks final k (g <$> p₁) (g <$> p₂) s := by
  rw [map_eq_pure_bind, map_eq_pure_bind]
  exact h.then (i := 0) fun _ => keeps_pure _

/-! ### Tokens -/

theorem tracks_advance (hs : s.Sound) (hk : s.window.current.kind ≠ .eof) :
    Tracks final 1 advance advance s := by
  refine { (steady_advance (k := 0)).tracks hs with takes := fun a t ha => ?_ }
  rw [advance_eq] at ha
  cases ha
  obtain ⟨m, hm, -⟩ := s.window.bump.skipErrors_eq
  refine ⟨(onto_advanced hs 0).sound, ?_⟩
  have hlt := Window.left_bump_lt hk
  have hle := Window.left_drop_le s.window.bump m
  have hwindow : s.advanced.window = s.window.bump.drop m := congrArg Prod.snd hm
  rw [hwindow]
  omega

theorem tracks_expect {kind : TokenKind} (hs : s.Sound) (hk : kind ≠ .eof) :
    Tracks final 1 (expect kind) (expect kind) s := by
  refine tracks_of_reads (a := s.window.currentIs kind) rfl ?_
  cases hc : s.window.currentIs kind with
  | true =>
    refine tracks_advance hs fun heof => hk ?_
    rw [← heof]
    exact (beq_iff_eq.1 hc).symm
  | false => exact tracks_of_error rfl

theorem tracks_expectName (hs : s.Sound) : Tracks final 1 expectName expectName s := by
  refine tracks_of_reads (a := s.window.currentIs .ident) rfl ?_
  cases hc : s.window.currentIs .ident with
  | true =>
    refine (tracks_advance hs fun heof => ?_).then (i := 0) fun token =>
      keeps_get.bind fun _ => (steady_intern _).bind fun _ => keeps_pure _
    rw [Window.currentIs, heof] at hc
    exact absurd hc (by decide)
  | false => exact tracks_of_error rfl

/-- A token may be taken or not. -/
theorem tracks_eat {kind : TokenKind} {f₁ f₂ : Bool → Parse β} (hs : s.Sound) (hk : kind ≠ .eof)
    (htrue : ∀ t, t.Sound → t.window.left < s.window.left →
      Tracks final 0 (f₁ true) (f₂ true) t)
    (hfalse : Tracks final k (f₁ false) (f₂ false) s) (hle : k ≤ 1) :
    Tracks final k (eat kind >>= f₁) (eat kind >>= f₂) s := by
  cases hc : s.window.currentIs kind with
  | true =>
    have hkind : s.window.current.kind ≠ .eof := by
      rw [beq_iff_eq.1 hc]
      exact hk
    have heat : eat kind s = .ok true s.advanced := by
      simp [eat, currentIs, hc, Bind.bind, EStateM.bind, get_eq, advance_eq, Pure.pure,
        EStateM.pure]
    have htaken (f : Bool → Parse β) : (eat kind >>= f) s = (advance >>= fun _ => f true) s := by
      rw [bind_of_ok heat, bind_of_ok (advance_eq s)]
    exact (((tracks_advance hs hkind).bind fun _ t ht hlt => htrue t ht hlt).congr (htaken f₁)
      (htaken f₂)).mono hle
  | false =>
    have heat : eat kind s = .ok false s := by
      simp [eat, currentIs, hc, Bind.bind, EStateM.bind, get_eq, Pure.pure, EStateM.pure]
    exact tracks_of_reads heat hfalse

/-! ### Scopes -/

/-- What follows in any case leaves reports and statements alone. -/
theorem Quietly.of_ensuring {after : ParseState → ParseState}
    (hafter : ∀ t, (after t).reports = t.reports ∧ (after t).tree = t.tree)
    (h : Quietly tree (ensuring p after) s) : Quietly tree p s := by
  obtain ⟨a, t, hp, ht⟩ := h
  cases hr : p s with
  | ok b u =>
    simp only [ensuring, hr] at hp
    cases hp
    obtain ⟨hreports, htree⟩ := hafter u
    exact ⟨a, u, hr, hreports ▸ ht.reports, htree ▸ ht.remains⟩
  | error e u =>
    simp only [ensuring, hr] at hp
    cases hp

theorem ensuring_congr (after : ParseState → ParseState)
    (hafter : ∀ t, (after t).reports = t.reports ∧ (after t).tree = t.tree)
    (h : Tracks final k p₁ p₂ s) (hq : ∀ tree ∈ final, Quietly tree (ensuring p₁ after) s) :
    ensuring p₁ after s = ensuring p₂ after s := by
  simp only [ensuring, h.eq fun d hd => (hq d hd).of_ensuring hafter]

theorem Tracks.inScope (hp : Steady 0 p₁) (hs : s.Sound)
    (h : ∀ t, t.Sound → t.window = s.window → Tracks final k p₁ p₂ t) :
    Tracks final 0 (inScope p₁) (inScope p₂) s :=
  tracks_of_eq (steady_inScope hp) hs
    (ensuring_congr leaveScope (fun _ => ⟨rfl, rfl⟩) (h _ hs.enter rfl))

theorem Tracks.returning {ret : TypeId} (hp : Steady i p₁) (hs : s.Sound)
    (h : ∀ t, t.Sound → t.window = s.window → Tracks final k p₁ p₂ t) :
    Tracks final 0 (returning ret p₁) (returning ret p₂) s :=
  tracks_of_eq (steady_returning ret hp) hs
    (ensuring_congr (fun s => { s with returns := s.returns.tail }) (fun _ => ⟨rfl, rfl⟩)
      (h { s with returns := ret :: s.returns } { hs with } rfl))

theorem Tracks.inNamespace (name : Name) (hp : Steady i p₁) (hs : s.Sound)
    (h : ∀ t, t.Sound → t.window = s.window → Tracks final k p₁ p₂ t) : Tracks final 0 (do
      modify fun s => { s with scope := s.scope.pushNamespace name }
      ensuring p₁ fun s => { s with scope := s.scope.popNamespace.2 }) (do
      modify fun s => { s with scope := s.scope.pushNamespace name }
      ensuring p₂ fun s => { s with scope := s.scope.popNamespace.2 }) s :=
  tracks_of_eq (steady_inNamespace name hp) hs
    (ensuring_congr (fun s => { s with scope := s.scope.popNamespace.2 }) (fun _ => ⟨rfl, rfl⟩)
      (h { s with scope := s.scope.pushNamespace name } { hs with } rfl))

/-- An outcome is caught, and something follows that goes by it. -/
theorem Tracks.attempt {f₁ f₂ : Except Stop α → Parse β} (h : Tracks none k p₁ p₂ s)
    (hf : ∀ r, Steady i (f₁ r)) (hp : Steady i p₁) (hs : s.Sound)
    (hok : ∀ a t, p₁ s = .ok a t → f₁ (.ok a) t = f₂ (.ok a) t)
    (herror : ∀ e t, p₁ s = .error e t → f₁ (.error e) t = f₂ (.error e) t) :
    Tracks none 0 (Parse.attempt p₁ >>= f₁) (Parse.attempt p₂ >>= f₂) s := by
  refine tracks_of_eq ((steady_attempt hp).bind hf) hs fun _ => ?_
  cases hr : p₁ s with
  | ok a t =>
    have hr₂ : p₂ s = .ok a t := h.same ▸ hr
    rw [bind_of_ok (a := .ok a) (u := t) (by simp only [Parse.attempt, hr]),
      bind_of_ok (a := .ok a) (u := t) (by simp only [Parse.attempt, hr₂]), hok a t hr]
  | error e t =>
    have hr₂ : p₂ s = .error e t := h.same ▸ hr
    rw [bind_of_ok (a := .error e) (u := t) (by simp only [Parse.attempt, hr]),
      bind_of_ok (a := .error e) (u := t) (by simp only [Parse.attempt, hr₂]), herror e t hr]

/-- After a statement that failed, reading goes on further ahead. -/
theorem left_synchronize {t u : ParseState} (hend : s.window.atEnd = false) (ht : t.Sound)
    (hw : ∃ m, t.window = s.window.drop m) (hu : synchronize s.window.current.span t = .ok ⟨⟩ u) :
    u.Sound ∧ u.window.left < s.window.left := by
  refine ⟨((steady_synchronize (k := 0) _).takes ht hu).1, ?_⟩
  by_cases hsame : t.window = s.window
  · have hrest : Tracks none 1 (synchronize s.window.current.span)
        (synchronize s.window.current.span) t := by
      refine tracks_of_reads (a := t.window.current.span) rfl ?_
      refine tracks_of_reads (a := t.window.atEnd) rfl ?_
      rw [hsame]
      simp only [hend, Bool.not_false, and_self, if_true]
      refine (tracks_advance ht fun heof => ?_).then (i := 0) fun _ =>
        keeps_get.bind fun _ => steady_skipToBoundary _
      rw [hsame] at heof
      simp [Window.atEnd, Window.currentIs, heof] at hend
    have := (hrest.takes _ _ hu).2
    rwa [hsame] at this
  · obtain ⟨m, hm⟩ := hw
    have hle := ((steady_synchronize (k := 0) _).takes ht hu).2
    rw [hm] at hsame hle
    exact hle.trans_lt (Window.left_drop_lt hend hsame)

end Parse

end FrontEnd
