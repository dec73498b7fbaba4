import FrontEnd.Grammar.State

/-!
What a step leads to, whether it yields a result or stops, and relations that every step of a
program keeps to, however it ends.
-/

namespace FrontEnd

/-! ### Outcomes -/

section

variable {ε σ α β : Type} {p : EStateM ε σ α} {f : α → EStateM ε σ β} {s t : σ}
  {Q R : α → σ → Prop} {S : β → σ → Prop} {E F : ε → σ → Prop}

/-- From `s`, a result of `p` is as `Q` tells, and a stop as `E` tells. -/
def Meets (p : EStateM ε σ α) (s : σ) (Q : α → σ → Prop) (E : ε → σ → Prop) : Prop :=
  match p s with
  | .ok a s => Q a s
  | .error e s => E e s

theorem Meets.of_ok {a : α} (h : Meets p s Q E) (hp : p s = .ok a t) : Q a t := by
  unfold Meets at h
  rwa [hp] at h

theorem Meets.of_error {e : ε} (h : Meets p s Q E) (hp : p s = .error e t) : E e t := by
  unfold Meets at h
  rwa [hp] at h

theorem meets_of_ok {a : α} (hp : p s = .ok a t) (h : Q a t) : Meets p s Q E := by
  unfold Meets
  rwa [hp]

theorem meets_of_error {e : ε} (hp : p s = .error e t) (h : E e t) : Meets p s Q E := by
  unfold Meets
  rwa [hp]

theorem meets_intro (hQ : ∀ a t, p s = .ok a t → Q a t) (hE : ∀ e t, p s = .error e t → E e t) :
    Meets p s Q E := by
  cases h : p s with
  | ok a t => exact meets_of_ok h (hQ a t h)
  | error e t => exact meets_of_error h (hE e t h)

theorem Meets.imp (h : Meets p s Q E) (hQ : ∀ a t, Q a t → R a t) (hE : ∀ e t, E e t → F e t) :
    Meets p s R F :=
  meets_intro (fun a t hp => hQ a t (h.of_ok hp)) fun e t hp => hE e t (h.of_error hp)

theorem meets_pure {a : α} (h : Q a s) : Meets (pure a : EStateM ε σ α) s Q E := h

theorem meets_throw {e : ε} (h : E e s) : Meets (throw e : EStateM ε σ α) s Q E := h

theorem meets_get {Q : σ → σ → Prop} (h : Q s s) : Meets (get : EStateM ε σ σ) s Q E := h

theorem get_eq (s : σ) : (get : EStateM ε σ σ) s = .ok s s := rfl

theorem meets_set {Q : Unit → σ → Prop} (h : Q () t) :
    Meets (set t : EStateM ε σ PUnit) s Q E := h

theorem meets_modify {Q : PUnit → σ → Prop} {g : σ → σ} (h : Q ⟨⟩ (g s)) :
    Meets (modify g : EStateM ε σ PUnit) s Q E := h

theorem meets_ofExcept {r : Except ε α} (hQ : ∀ a, r = .ok a → Q a s)
    (hE : ∀ e, r = .error e → E e s) : Meets (ofExcept r : EStateM ε σ α) s Q E := by
  cases r with
  | ok a => exact hQ a rfl
  | error e => exact hE e rfl

theorem Meets.congr {q : EStateM ε σ α} (h : Meets q s Q E) (he : p s = q s) : Meets p s Q E := by
  unfold Meets at h ⊢
  rwa [he]

/-- One step and then the others. -/
theorem Meets.bind (h : Meets p s R E) (hf : ∀ a t, R a t → Meets (f a) t S E) :
    Meets (p >>= f) s S E := by
  cases hp : p s with
  | ok a t =>
    have := hf a t (h.of_ok hp)
    simp only [Meets, Bind.bind, EStateM.bind, hp] at this ⊢
    exact this
  | error e t => exact meets_of_error (by simp [Bind.bind, EStateM.bind, hp]) (h.of_error hp)

theorem meets_bind_of_ok {a : α} (hp : p s = .ok a t) (h : Meets (f a) t S E) :
    Meets (p >>= f) s S E :=
  Meets.bind (R := fun b u => b = a ∧ u = t) (meets_of_ok hp ⟨rfl, rfl⟩) fun _ _ => by
    rintro ⟨rfl, rfl⟩
    exact h

theorem Meets.map {g : α → β} (h : Meets p s (fun a t => S (g a) t) E) :
    Meets (g <$> p) s S E := by
  cases hp : p s with
  | ok a t =>
    exact meets_of_ok (by simp [Functor.map, EStateM.map, hp]) (h.of_ok hp)
  | error e t =>
    exact meets_of_error (by simp [Functor.map, EStateM.map, hp]) (h.of_error hp)

/-! ### Runs that yield a result -/

theorem bind_eq_ok {b : β} (h : (p >>= f) s = .ok b t) :
    ∃ a u, p s = .ok a u ∧ f a u = .ok b t := by
  cases hp : p s with
  | ok a u => exact ⟨a, u, rfl, by simpa [Bind.bind, EStateM.bind, hp] using h⟩
  | error e u => simp [Bind.bind, EStateM.bind, hp] at h

theorem bind_of_ok {a : α} {u : σ} (h : p s = .ok a u) : (p >>= f) s = f a u := by
  simp [Bind.bind, EStateM.bind, h]

theorem bind_of_error {e : ε} {u : σ} (h : p s = .error e u) : (p >>= f) s = .error e u := by
  simp [Bind.bind, EStateM.bind, h]

namespace Parse

variable {α β : Type} {s : ParseState} {p : Parse α} {Q : α → ParseState → Prop}
  {E : Stop → ParseState → Prop}

theorem meets_check {p : Env → Check α} (h : Meets (p s.env) ⟨s.tree, s.reports⟩
    (fun a t => Q a { s with tree := t.tree, reports := t.reports })
    fun f t => E (.fault f) { s with tree := t.tree, reports := t.reports }) :
    Meets (check p) s Q E := by
  cases hr : p s.env ⟨s.tree, s.reports⟩ with
  | ok a t => exact meets_of_ok (by simp only [check, hr]) (h.of_ok hr)
  | error f t => exact meets_of_error (by simp only [check, hr]) (h.of_error hr)

theorem check_ok {p : Env → Check α} {a : α} {t : ParseState} (h : check p s = .ok a t) :
    ∃ u, p s.env ⟨s.tree, s.reports⟩ = .ok a u ∧
      t = { s with tree := u.tree, reports := u.reports } := by
  unfold check at h
  split at h
  next u hp =>
    cases h
    exact ⟨u, hp, rfl⟩
  next => cases h

theorem meets_fold {id : ExprId} {Q : Option Value → ParseState → Prop}
    (hoff : s.folds = false → Q none s)
    (hon : s.folds = true → Meets (s.folder.fold s.scope.depth id) s.tree
      (fun value tree => Q value { s with tree }) fun f tree => E (.fault f) { s with tree }) :
    Meets (fold id) s Q E := by
  cases hf : s.folds with
  | false => exact meets_of_ok (by simp [fold, hf]) (hoff hf)
  | true =>
    cases hr : s.folder.fold s.scope.depth id s.tree with
    | ok value tree => exact meets_of_ok (by simp [fold, hf, hr]) ((hon hf).of_ok hr)
    | error f tree => exact meets_of_error (by simp [fold, hf, hr]) ((hon hf).of_error hr)

theorem meets_ofFault {r : Except Fault α} (hQ : ∀ a, r = .ok a → Q a s)
    (hE : ∀ f, r = .error f → E (.fault f) s) : Meets (ofFault r) s Q E := by
  cases r with
  | ok a => exact hQ a rfl
  | error f => exact hE f rfl

theorem ofFault_ok {r : Except Fault α} {a : α} {t : ParseState} (h : ofFault r s = .ok a t) :
    r = .ok a ∧ t = s := by
  cases r with
  | error f => cases h
  | ok b =>
    cases h
    exact ⟨rfl, rfl⟩

theorem ofStorage_ok {r : Except StorageError α} {a : α} {t : ParseState}
    (h : ofStorage r s = .ok a t) : r = .ok a ∧ t = s := by
  cases r with
  | error e => cases h
  | ok b =>
    cases h
    exact ⟨rfl, rfl⟩

theorem meets_ofStorage {r : Except StorageError α} (hQ : ∀ a, r = .ok a → Q a s)
    (hE : ∀ e, r = .error e → E (.exhausted e) s) : Meets (ofStorage r) s Q E := by
  cases r with
  | ok a => exact hQ a rfl
  | error e => exact hE e rfl

theorem meets_ofHalting {r : Except (Halt StorageError) α} (hQ : ∀ a, r = .ok a → Q a s)
    (hE : ∀ e, r = .error e → E (.ofHalt e) s) : Meets (ofHalting r) s Q E := by
  cases r with
  | ok a => exact hQ a rfl
  | error e => exact hE e rfl

theorem meets_ensuring {after : ParseState → ParseState}
    (h : Meets p s (fun a t => Q a (after t)) fun e t => E e (after t)) :
    Meets (ensuring p after) s Q E := by
  cases hr : p s with
  | ok a t => exact meets_of_ok (by simp only [ensuring, hr]) (h.of_ok hr)
  | error e t => exact meets_of_error (by simp only [ensuring, hr]) (h.of_error hr)

theorem meets_attempt {Q : Except Stop α → ParseState → Prop}
    (h : Meets p s (fun a t => Q (.ok a) t) fun e t => Q (.error e) t) :
    Meets (attempt p) s Q E := by
  cases hr : p s with
  | ok a t => exact meets_of_ok (by simp only [attempt, hr]) (h.of_ok hr)
  | error e t => exact meets_of_ok (by simp only [attempt, hr]) (h.of_error hr)

theorem meets_addFunction {signature : Signature} {Q : TypeId → ParseState → Prop}
    (h : Meets (TypeTable.addFunction s.scratch signature) (s.types, s.names)
      (fun id t => Q id { s with types := t.1, names := t.2 })
      fun e t => E (.ofHalt e) { s with types := t.1, names := t.2 }) :
    Meets (addFunction signature) s Q E := by
  cases hr : TypeTable.addFunction s.scratch signature (s.types, s.names) with
  | ok id t => exact meets_of_ok (by simp only [addFunction, hr]) (h.of_ok hr)
  | error e t => exact meets_of_error (by simp only [addFunction, hr]) (h.of_error hr)

end Parse

end

/-! ### Kept relations -/

section

/-- A stop after further steps is still a stop after the first. -/
class Absorbs {ε σ : Type} (R : σ → σ → Prop) (X : σ → ε → σ → Prop) : Prop where
  absorb {s t u : σ} {e : ε} : R s t → X t e u → X s e u

variable {ε σ α β : Type} {R : σ → σ → Prop} {X : σ → ε → σ → Prop} {p : EStateM ε σ α}
  {f : α → EStateM ε σ β}

/-- `p` yields its results along `R`, and stops along `X`. -/
structure Keeps (R : σ → σ → Prop) (X : σ → ε → σ → Prop) (p : EStateM ε σ α) : Prop where
  meets : ∀ s, Meets p s (fun _ t => R s t) fun e t => X s e t

theorem Keeps.ok {s t : σ} {a : α} (h : Keeps R X p) (hp : p s = .ok a t) : R s t :=
  (h.meets s).of_ok hp

theorem Keeps.error {s t : σ} {e : ε} (h : Keeps R X p) (hp : p s = .error e t) : X s e t :=
  (h.meets s).of_error hp

theorem keeps_modify {g : σ → σ} (h : ∀ s, R s (g s)) :
    Keeps R X (modify g : EStateM ε σ PUnit) := ⟨fun s => meets_modify (h s)⟩

/-- What follows may make use of the state that was looked at. -/
theorem keeps_get_bind {f : σ → EStateM ε σ β}
    (h : ∀ s, Meets (f s) s (fun _ t => R s t) fun e t => X s e t) : Keeps R X (get >>= f) :=
  ⟨fun s => Meets.bind (meets_get (Q := fun a t => a = s ∧ t = s) ⟨rfl, rfl⟩) fun _ _ => by
    rintro ⟨rfl, rfl⟩
    exact h _⟩

theorem Keeps.map {g : α → β} (h : Keeps R X p) : Keeps R X (g <$> p) :=
  ⟨fun s => Meets.map (h.meets s)⟩

section

variable [Std.Refl R]

theorem keeps_pure (a : α) : Keeps R X (pure a : EStateM ε σ α) :=
  ⟨fun s => meets_pure (Std.Refl.refl s)⟩

theorem keeps_get : Keeps R X (get : EStateM ε σ σ) :=
  ⟨fun s => meets_get (Std.Refl.refl s)⟩

/-- A program that only looks. -/
theorem keeps_of_reads (h : ∀ s, ∃ a, p s = .ok a s) : Keeps R X p := by
  refine ⟨fun s => ?_⟩
  obtain ⟨a, ha⟩ := h s
  exact meets_of_ok ha (Std.Refl.refl s)

theorem keeps_ofExcept {r : Except ε α} (h : ∀ e s, r = .error e → X s e s) :
    Keeps R X (ofExcept r : EStateM ε σ α) :=
  ⟨fun s => meets_ofExcept (fun _ _ => Std.Refl.refl s) fun e he => h e s he⟩

end

theorem keeps_throw {e : ε} (h : ∀ s, X s e s) : Keeps R X (throw e : EStateM ε σ α) :=
  ⟨fun s => meets_throw (h s)⟩

section

variable [Trans R R R] [Absorbs R X]

theorem Keeps.bind (h : Keeps R X p) (hf : ∀ a, Keeps R X (f a)) : Keeps R X (p >>= f) := by
  refine ⟨fun s => ?_⟩
  cases hp : p s with
  | error e t => exact meets_of_error (bind_of_error hp) (h.error hp)
  | ok a t =>
    cases hq : f a t with
    | ok b u =>
      exact meets_of_ok ((bind_of_ok hp).trans hq) (Trans.trans (h.ok hp) ((hf a).ok hq))
    | error e u =>
      exact meets_of_error ((bind_of_ok hp).trans hq)
        (Absorbs.absorb (h.ok hp) ((hf a).error hq))

variable [Std.Refl R]

theorem keeps_mapM {f : α → EStateM ε σ β} (l : List α) (h : ∀ a ∈ l, Keeps R X (f a)) :
    Keeps R X (l.mapM f) := by
  induction l with
  | nil =>
    rw [List.mapM_nil]
    exact keeps_pure _
  | cons a l ih =>
    rw [List.mapM_cons]
    refine (h a (by simp)).bind fun b => ?_
    exact (ih fun a ha => h a (by simp [ha])).bind fun _ => keeps_pure _

theorem keeps_forM {f : α → EStateM ε σ PUnit} (l : List α) (h : ∀ a, Keeps R X (f a)) :
    Keeps R X (l.forM f) := by
  induction l with
  | nil => exact keeps_pure _
  | cons a l ih => exact (h a).bind fun _ => ih

/-- A loop that runs through a list to its end. -/
theorem keeps_forIn {f : α → PUnit → EStateM ε σ (ForInStep PUnit)} (l : List α)
    (h : ∀ a u, Keeps R X (f a u)) : Keeps R X (forIn l ⟨⟩ f) := by
  induction l with
  | nil => exact keeps_pure _
  | cons a l ih =>
    rw [List.forIn_cons]
    refine (h a _).bind fun r => ?_
    cases r with
    | done u => exact keeps_pure _
    | yield u => exact ih

end

/-- Stops are told apart from results by nothing. -/
instance {R : σ → σ → Prop} [Trans R R R] : Absorbs R (fun s (_ : ε) t => R s t) :=
  ⟨fun h h' => Trans.trans h h'⟩

end

end FrontEnd
