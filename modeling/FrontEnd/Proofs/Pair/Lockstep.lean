import FrontEnd.Proofs.Grammar.Outcome

/-!
Two runs from related states. They are in step as long as they yield the same results; where they
part, each goes on alone.
-/

namespace FrontEnd

variable {ε σ α β : Type}

/-- Why a run stopped, if it did, and where it is. -/
abbrev Ending (ε σ : Type) : Type := Option ε × σ

def ending : EStateM.Result ε σ α → Ending ε σ
  | .ok _ s => (none, s)
  | .error e s => (some e, s)

/-- What ties two runs to each other. -/
structure Tie (ε σ : Type) where
  /-- States of runs that are in step. -/
  inStep : σ → σ → Prop
  /-- How runs are after they parted. -/
  parted : Ending ε σ → Ending ε σ → Prop
  /-- How a run goes on alone. -/
  leads : Ending ε σ → Ending ε σ → Prop

/-- Runs that parted never meet again. -/
class Tie.Lawful (T : Tie ε σ) : Prop where
  refl (x : Ending ε σ) : T.leads x x
  trans {x y z : Ending ε σ} : T.leads x y → T.leads y z → T.leads x z
  left {x x' y : Ending ε σ} : T.parted x y → T.leads x x' → T.parted x' y
  right {x y y' : Ending ε σ} : T.parted x y → T.leads y y' → T.parted x y'

namespace Tie

variable {T : Tie ε σ} {p q : EStateM ε σ α} {f g : α → EStateM ε σ β} {s t : σ}

/-- Outcomes of two runs that were in step. -/
inductive Pair (T : Tie ε σ) : EStateM.Result ε σ α → EStateM.Result ε σ α → Prop
  | ok {a s t} : T.inStep s t → Pair T (.ok a s) (.ok a t)
  | stop {e s t} : T.inStep s t → Pair T (.error e s) (.error e t)
  | parted {x y} : T.parted (ending x) (ending y) → Pair T x y

/-- From wherever a run is, `p` leads on. -/
def Alone (T : Tie ε σ) (p : EStateM ε σ α) : Prop := ∀ s, T.leads (none, s) (ending (p s))

/-- Runs of `p` and `q` that are in step stay so, or part. -/
structure Lockstep (T : Tie ε σ) (p q : EStateM ε σ α) : Prop where
  left : T.Alone p
  right : T.Alone q
  pair : ∀ s t, T.inStep s t → T.Pair (p s) (q t)

/-- Runs of `p` from states that are in step stay so, or part. -/
abbrev Steps (T : Tie ε σ) (p : EStateM ε σ α) : Prop := T.Lockstep p p

theorem Steps.mk (ha : T.Alone p) (hp : ∀ s t, T.inStep s t → T.Pair (p s) (p t)) : T.Steps p :=
  ⟨ha, ha, hp⟩

theorem steps_modify {k : σ → σ} (ha : ∀ s, T.leads (none, s) (none, k s))
    (hp : ∀ s t, T.inStep s t →
      T.inStep (k s) (k t) ∨ T.parted (none, k s) (none, k t)) :
    T.Steps (modify k : EStateM ε σ PUnit) := by
  refine .mk ha fun s t h => ?_
  rcases hp s t h with hk | hk
  · exact .ok hk
  · exact .parted hk

theorem get_bind (f : σ → EStateM ε σ β) (s : σ) : (get >>= f) s = f s s := rfl

/-- A look at the state, and what follows it. -/
theorem steps_get_bind {f : σ → EStateM ε σ β} (ha : ∀ s, T.leads (none, s) (ending (f s s)))
    (hp : ∀ s t, T.inStep s t → T.Pair (f s s) (f t t)) : T.Steps (get >>= f) :=
  .mk ha hp

/-- A look that makes the same of both states. -/
theorem lockstep_look {f g : σ → EStateM ε σ β} (hfg : ∀ s, T.Lockstep (f s) (g s))
    (hsame : ∀ s t, T.inStep s t → g s = g t) : T.Lockstep (get >>= f) (get >>= g) where
  left s := (hfg s).left s
  right s := (hfg s).right s
  pair s t h := by
    have hrun := (hfg s).pair s t h
    rw [show g s t = g t t from congrFun (hsame s t h) t] at hrun
    exact hrun

section

variable [T.Lawful]

theorem alone_of_reads (h : ∀ s, ∃ a, p s = .ok a s) : T.Alone p := by
  intro s
  obtain ⟨a, ha⟩ := h s
  rw [ha]
  exact Lawful.refl _

theorem Alone.bind (hp : T.Alone p) (hf : ∀ a, T.Alone (f a)) : T.Alone (p >>= f) := by
  intro s
  have h := hp s
  cases hr : p s with
  | ok a u =>
    rw [hr] at h
    rw [bind_of_ok hr]
    exact Lawful.trans h (hf a u)
  | error e u =>
    rw [hr] at h
    rw [bind_of_error hr]
    exact h

/-- What follows the first part of a run leads on from there. -/
theorem leads_bind (hf : ∀ a, T.Alone (f a)) (s : σ) :
    T.leads (ending (p s)) (ending ((p >>= f) s)) := by
  cases hr : p s with
  | ok a u =>
    rw [bind_of_ok hr]
    exact hf a u
  | error e u =>
    rw [bind_of_error hr]
    exact Lawful.refl _

theorem Pair.bind (h : T.Pair (p s) (q t)) (hf : ∀ a, T.Alone (f a)) (hg : ∀ a, T.Alone (g a))
    (hfg : ∀ a s t, T.inStep s t → T.Pair (f a s) (g a t)) :
    T.Pair ((p >>= f) s) ((q >>= g) t) := by
  generalize hx : p s = x at h
  generalize hy : q t = y at h
  cases h with
  | ok hst =>
    rw [bind_of_ok hx, bind_of_ok hy]
    exact hfg _ _ _ hst
  | stop hst =>
    rw [bind_of_error hx, bind_of_error hy]
    exact .stop hst
  | parted hpart =>
    rw [← hx, ← hy] at hpart
    exact .parted (Lawful.right (Lawful.left hpart (leads_bind hf s)) (leads_bind hg t))

theorem Lockstep.bind (h : T.Lockstep p q) (hf : ∀ a, T.Lockstep (f a) (g a)) :
    T.Lockstep (p >>= f) (q >>= g) where
  left := h.left.bind fun a => (hf a).left
  right := h.right.bind fun a => (hf a).right
  pair s t hst := (h.pair s t hst).bind (fun a => (hf a).left) (fun a => (hf a).right)
    fun a s t hst => (hf a).pair s t hst

theorem steps_pure (a : α) : T.Steps (pure a : EStateM ε σ α) :=
  .mk (alone_of_reads fun _ => ⟨a, rfl⟩) fun _ _ h => .ok h

theorem Lockstep.map {k : α → β} (h : T.Lockstep p q) : T.Lockstep (k <$> p) (k <$> q) := by
  rw [map_eq_pure_bind, map_eq_pure_bind]
  exact h.bind fun a => steps_pure _

/-- A program that only looks, and sees the same in both runs. -/
theorem steps_of_reads {k : σ → α} (hr : ∀ s, p s = .ok (k s) s)
    (hk : ∀ s t, T.inStep s t → k s = k t) : T.Steps p := by
  refine .mk (alone_of_reads fun s => ⟨_, hr s⟩) fun s t h => ?_
  rw [hr s, hr t, hk s t h]
  exact .ok h

theorem lockstep_mapM {f g : α → EStateM ε σ β} (l : List α)
    (h : ∀ a ∈ l, T.Lockstep (f a) (g a)) : T.Lockstep (l.mapM f) (l.mapM g) := by
  induction l with
  | nil =>
    rw [List.mapM_nil, List.mapM_nil]
    exact steps_pure _
  | cons a l ih =>
    rw [List.mapM_cons, List.mapM_cons]
    refine (h a (by simp)).bind fun b => ?_
    exact (ih fun a ha => h a (by simp [ha])).bind fun _ => steps_pure _

theorem steps_forM {f : α → EStateM ε σ PUnit} (l : List α) (h : ∀ a, T.Steps (f a)) :
    T.Steps (l.forM f) := by
  induction l with
  | nil => exact steps_pure _
  | cons a l ih => exact (h a).bind fun _ => ih

/-- A loop that runs through a list to its end. -/
theorem lockstep_forIn {f g : α → PUnit → EStateM ε σ (ForInStep PUnit)} (l : List α)
    (h : ∀ a u, T.Lockstep (f a u) (g a u)) : T.Lockstep (forIn l ⟨⟩ f) (forIn l ⟨⟩ g) := by
  induction l with
  | nil => exact steps_pure _
  | cons a l ih =>
    rw [List.forIn_cons, List.forIn_cons]
    refine (h a _).bind fun r => ?_
    cases r with
    | done u => exact steps_pure _
    | yield u => exact ih

end

/-! ### Requests that can fail -/

/-- Answers to a request in both runs. One of them may be refused alone unless `D` holds. -/
inductive Answers {γ : Type} (D : Prop) (R : α → β → Prop) : Except γ α → Except γ β → Prop
  | ok {a b} : R a b → Answers D R (.ok a) (.ok b)
  | refused {e} : Answers D R (.error e) (.error e)
  | left {e r} : ¬D → Answers D R (.error e) r
  | right {e r} : ¬D → Answers D R r (.error e)

theorem Answers.same {γ : Type} {D : Prop} (x : Except γ α) : Answers D Eq x x := by
  cases x with
  | ok a => exact .ok rfl
  | error e => exact .refused

theorem Answers.bind {γ ι : Type} {D : Prop} {R : α → α → Prop} {S : ι → ι → Prop}
    {x y : Except γ α} {f g : α → Except γ ι} (h : Answers D R x y)
    (hf : ∀ a b, R a b → Answers D S (f a) (g b)) : Answers D S (x >>= f) (y >>= g) := by
  cases h with
  | ok h => exact hf _ _ h
  | refused => exact .refused
  | left hd => exact .left hd
  | right hd => exact .right hd

theorem Answers.liftCause {γ : Type} {D : Prop} {R : α → β → Prop} {x : Except γ α}
    {y : Except γ β} (h : Answers D R x y) : Answers D R (Halt.liftCause x) (Halt.liftCause y) := by
  cases h with
  | ok h => exact .ok h
  | refused => exact .refused
  | left hd => exact .left hd
  | right hd => exact .right hd

/-- How a run goes that makes a request and hands on the refusal. -/
def answered {γ : Type} (stop : γ → ε) (s : σ) : Except γ α → EStateM.Result ε σ α
  | .ok a => .ok a s
  | .error e => .error (stop e) s

theorem Answers.of {γ : Type} {D : Prop} {R : α → α → Prop} {x y : Except γ α} (hD : D → x = y)
    (h : ∀ a b, x = .ok a → y = .ok b → (D → a = b) → R a b) : Answers D R x y := by
  cases x with
  | ok a =>
    cases y with
    | ok b => exact .ok (h a b rfl rfl fun hd => Except.ok.inj (hD hd))
    | error e => exact .right fun hd => nomatch hD hd
  | error e =>
    by_cases hd : D
    · rw [← hD hd]
      exact .refused
    · exact .left hd

theorem leads_answer {γ : Type} {x : Except γ α} {stop : γ → ε} (hx : p s = answered stop s x)
    (hstop : ∀ e, T.leads (none, s) (some (stop e), s))
    (hf : ∀ a, x = .ok a → T.leads (none, s) (ending (f a s))) :
    T.leads (none, s) (ending ((p >>= f) s)) := by
  cases x with
  | ok a =>
    rw [bind_of_ok hx]
    exact hf a rfl
  | error e =>
    rw [bind_of_error hx]
    exact hstop e

theorem Pair.answer {γ : Type} {D : Prop} {R : α → α → Prop} {x y : Except γ α} {stop : γ → ε}
    (hx : p s = answered stop s x) (hy : q t = answered stop t y) (hst : T.inStep s t)
    (h : Answers D R x y) (hleft : ¬D → ∀ e z, T.parted (some (stop e), s) z)
    (hright : ¬D → ∀ e z, T.parted z (some (stop e), t))
    (hfg : ∀ a b, R a b → T.Pair (f a s) (g b t)) : T.Pair ((p >>= f) s) ((q >>= g) t) := by
  cases h with
  | ok h =>
    rw [bind_of_ok hx, bind_of_ok hy]
    exact hfg _ _ h
  | refused =>
    rw [bind_of_error hx, bind_of_error hy]
    exact .stop hst
  | left hd =>
    rw [bind_of_error hx]
    exact .parted (hleft hd _ _)
  | right hd =>
    rw [bind_of_error hy]
    exact .parted (hright hd _ _)

end Tie

end FrontEnd
