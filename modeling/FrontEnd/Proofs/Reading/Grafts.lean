import FrontEnd.Proofs.Constant.Flags
import FrontEnd.Proofs.Program.Statements
import FrontEnd.Proofs.Reading.Invariants

/-!
Steps that graft new branches onto a forest and leave the others as they are. A step is told for two
families of productions, which may differ where reading does not come.
-/

namespace FrontEnd

open Parse

/-- In the course of reading, branches stand on top of a forest, with flags that tell constants from
other expressions. -/
structure ParseState.Bears (o : ParseState) (xs F : List Branch) (s : ParseState) : Prop where
  reading : o.Reading s
  holds : s.tree.Holds (xs ++ F)
  flagged : ∀ x ∈ xs, x.Flagged s.constants

/-- From `s`, both programs do the same. A result is as `Q` tells, and after a syntax error the
forest still stands. -/
structure Grafts {α : Type} (o : ParseState) (k : Nat) (F : List Branch) (p p' : Parse α)
    (s : ParseState) (Q : α → ParseState → Prop) : Prop where
  same : p s = p' s
  meets : Meets p s (fun a t => s.Onto k t ∧ Q a t)
    fun e t => s.Onto k t ∧ o.Reading t ∧ (e = .reported → t.tree.Holds F)

/-- The outcome of such a step, where it is caught. -/
def ParseState.Caught {α : Type} (o : ParseState) (F : List Branch) (Q : α → ParseState → Prop) :
    Except Stop α → ParseState → Prop
  | .ok a, t => Q a t
  | .error e, t => o.Reading t ∧ (e = .reported → t.tree.Holds F)

namespace Grafts

variable {α β : Type} {o s t : ParseState} {j k : Nat} {F zs : List Branch} {p p' q q' : Parse α}
  {f f' : α → Parse β} {Q R : α → ParseState → Prop} {S : β → ParseState → Prop}

theorem imp (h : Grafts o k F p p' s Q) (hQ : ∀ a t, s.Onto k t → Q a t → R a t) :
    Grafts o k F p p' s R :=
  ⟨h.same, h.meets.imp (fun a t ht => ⟨ht.1, hQ a t ht.1 ht.2⟩) fun _ _ ht => ht⟩

theorem mono (h : Grafts o k F p p' s Q) (hj : j ≤ k) : Grafts o j F p p' s Q :=
  ⟨h.same, h.meets.imp (fun _ _ ht => ⟨ht.1.mono hj, ht.2⟩) fun _ _ ht => ⟨ht.1.mono hj, ht.2⟩⟩

/-- Some of the forest may be forgotten. -/
theorem frame (zs : List Branch) (h : Grafts o k (zs ++ F) p p' s Q) : Grafts o k F p p' s Q :=
  ⟨h.same, h.meets.imp (fun _ _ ht => ht)
    fun _ _ ht => ⟨ht.1, ht.2.1, fun he => (ht.2.2 he).right⟩⟩

theorem congr (h : Grafts o k F p p' s Q) (hq : q s = p s) (hq' : q' s = p' s) :
    Grafts o k F q q' s Q :=
  ⟨hq.trans (h.same.trans hq'.symm), h.meets.congr hq⟩

theorem bind (h : Grafts o k F p p' s Q)
    (hf : ∀ a t, s.Onto k t → Q a t → Grafts o k F (f a) (f' a) t S) :
    Grafts o k F (p >>= f) (p' >>= f') s S := by
  have hmeets := h.meets
  have hsame := h.same
  cases hp : p s with
  | ok a t =>
    rw [hp] at hsame
    obtain ⟨ho, hQ⟩ := hmeets.of_ok hp
    have hrest := hf a t ho hQ
    refine ⟨(bind_of_ok hp).trans (hrest.same.trans (bind_of_ok hsame.symm).symm),
      meets_bind_of_ok hp (hrest.meets.imp (fun _ u hu => ?_) fun _ u hu => ?_)⟩
    · exact ⟨ho.trans hu.1, hu.2⟩
    · exact ⟨ho.trans hu.1, hu.2⟩
  | error e t =>
    rw [hp] at hsame
    exact ⟨(bind_of_error hp).trans (bind_of_error hsame.symm).symm,
      meets_of_error (bind_of_error hp) (hmeets.of_error hp)⟩

theorem run (h : Grafts o k F p p' s Q) : Grafts o k F p p' s fun a t => p s = .ok a t ∧ Q a t := by
  refine ⟨h.same, meets_intro (fun a t hrun => ?_) fun e t hrun => h.meets.of_error hrun⟩
  obtain ⟨ho, hQ⟩ := h.meets.of_ok hrun
  exact ⟨ho, hrun, hQ⟩

theorem pure {a : α} (h : o.Reading s) (ha : Q a s) :
    Grafts o k F (Pure.pure a : Parse α) (Pure.pure a) s Q :=
  ⟨rfl, meets_pure ⟨h.sound.refl k, ha⟩⟩

theorem throw {e : Stop} (h : o.Reading s) (he : e = .reported → s.tree.Holds F) :
    Grafts o k F (MonadExcept.throw e : Parse α) (MonadExcept.throw e) s Q :=
  ⟨rfl, meets_throw ⟨h.sound.refl k, h, he⟩⟩

/-- A step that changes the tree alone. -/
theorem ofTree (h : o.Reading s) (hp : ∀ k, Steady k p)
    (hm : Meets p s (fun a t => s.SameTables t ∧ (s.Onto 1 t → o.Reading t → Q a t))
      fun e t => s.SameTables t ∧ e ≠ .reported) : Grafts o k F p p s Q := by
  refine ⟨rfl, meets_intro (fun a t hrun => ?_) fun e t hrun => ?_⟩
  · have ho := (hp 1).ok hrun h.sound
    obtain ⟨hsame, hQ⟩ := hm.of_ok hrun
    exact ⟨(hp k).ok hrun h.sound, hQ ho (h.onto ho hsame)⟩
  · have ho := ((hp k).error hrun h.sound).1
    obtain ⟨hsame, he⟩ := hm.of_error hrun
    exact ⟨ho, h.onto ho hsame, fun hr => absurd hr he⟩

/-- What follows a step that only looks. -/
theorem reads {r : Parse α} {a : α} (hr : r s = .ok a s)
    (h : Grafts o k F (f a) (f' a) s S) : Grafts o k F (r >>= f) (r >>= f') s S :=
  h.congr (bind_of_ok hr) (bind_of_ok hr)

theorem map {g : α → β} (h : Grafts o k F p p' s fun a t => S (g a) t) :
    Grafts o k F (g <$> p) (g <$> p') s S :=
  ⟨by simp only [Functor.map, EStateM.map, h.same], h.meets.map⟩

theorem attempt (h : Grafts o k F p p' s Q) :
    Grafts o k F (Parse.attempt p) (Parse.attempt p') s (o.Caught F Q) :=
  ⟨by simp only [Parse.attempt, h.same],
    meets_attempt (h.meets.imp (fun _ _ ht => ht) fun _ _ ht => ht)⟩

/-- A step between two changes, the second of which undoes the first. -/
theorem ensuring {u : ParseState} {after : ParseState → ParseState}
    (h : Grafts o j F p p' u Q) (hback : ∀ t, u.Onto j t → o.Reading t →
      s.Onto k (after t) ∧ o.Reading (after t) ∧ (after t).tree = t.tree)
    (hQ : ∀ a t, Q a t → o.Reading t)
    (hR : ∀ a t, Q a t → o.Reading (after t) → (after t).tree = t.tree → R a (after t))
    (hq : q s = Parse.ensuring p after u) (hq' : q' s = Parse.ensuring p' after u) :
    Grafts o k F q q' s R := by
  refine ⟨by rw [hq, hq']; simp only [Parse.ensuring, h.same], Meets.congr (q := fun s =>
    Parse.ensuring p after u) ?_ hq⟩
  have hmeets := h.meets
  cases hp : p u with
  | ok a t =>
    obtain ⟨ho, ha⟩ := hmeets.of_ok hp
    obtain ⟨hs, hr, ht⟩ := hback t ho (hQ a t ha)
    exact meets_of_ok (by simp only [Parse.ensuring, hp]) ⟨hs, hR a t ha hr ht⟩
  | error e t =>
    obtain ⟨ho, hr, hF⟩ := hmeets.of_error hp
    obtain ⟨hs, hr, ht⟩ := hback t ho hr
    exact meets_of_error (by simp only [Parse.ensuring, hp]) ⟨hs, hr, fun he => ht ▸ hF he⟩

end Grafts

namespace ParseState.Bears

variable {α β : Type} {o s t : ParseState} {j k : Nat} {F xs ys zs : List Branch} {p : Parse α}
  {f f' : α → Parse β} {Q : α → ParseState → Prop} {S : β → ParseState → Prop} {a : α}
  {x : Branch} {id : ExprId}

/-- The same branches, or some of them, later on. -/
theorem onto (h : o.Bears xs F s) (ho : s.Onto 1 t) (hr : o.Reading t)
    (ht : t.tree.Holds (ys ++ zs)) (hys : ys ⊆ xs) : o.Bears ys zs t :=
  ⟨hr, ht, fun y hy => by rw [ho.constants_eq]; exact h.flagged y (hys hy)⟩

/-- Branches may be forgotten, or become part of the forest. -/
theorem perm (h : o.Bears xs F s) (hp : (xs ++ F).Perm (ys ++ zs)) (hys : ys ⊆ xs) :
    o.Bears ys zs s :=
  h.onto (h.reading.sound.refl 1) h.reading (h.holds.perm hp) hys

theorem sink (xs : List Branch) (h : o.Bears (xs ++ ys) F s) : o.Bears xs (ys ++ F) s :=
  h.perm (by rw [List.append_assoc]) (List.subset_append_left xs ys)

/-- What a step grafts onto branches and the forest under them stands on top of the branches. -/
theorem stack (h : o.Bears ys F s) (ht : o.Bears xs (ys ++ F) t) (ho : s.Onto 1 t) :
    o.Bears (xs ++ ys) F t := by
  refine ⟨ht.reading, by rw [List.append_assoc]; exact ht.holds, fun x hx => ?_⟩
  rcases List.mem_append.1 hx with hx | hx
  · exact ht.flagged x hx
  · rw [ho.constants_eq]
    exact h.flagged x hx

theorem idle (h : o.Bears xs F s) (hp : Idle p) :
    Grafts o k F p p s fun a t => p s = .ok a t ∧ o.Bears xs F t := by
  refine ⟨rfl, meets_intro (fun a t hrun => ?_) fun e t hrun => ?_⟩
  · have ho := (hp.steady 1).ok hrun h.reading.sound
    have hstill := hp.still.ok hrun
    exact ⟨(hp.steady k).ok hrun h.reading.sound, hrun, h.onto ho
      (h.reading.onto ho hstill.toSameTables) (hstill.tree ▸ h.holds) fun _ => id⟩
  · have ho := ((hp.steady k).error hrun h.reading.sound).1
    have hstill := hp.still.error hrun
    exact ⟨ho, h.reading.onto ho hstill.toSameTables, fun _ => hstill.tree ▸ h.holds.right⟩

theorem reject {code : ErrorCode} (h : o.Bears xs F s) (hcode : code.stage ≠ .lexer)
    (message label : String) :
    Grafts o k F (Parse.reject code message label) (Parse.reject code message label) s Q :=
  (h.idle (idle_reject hcode message label)).imp fun _ _ _ ⟨hrun, _⟩ => nomatch hrun

theorem expected {code : ErrorCode} (h : o.Bears xs F s) (hcode : code.stage ≠ .lexer)
    (wanted : String) :
    Grafts o k F (Parse.expected code wanted) (Parse.expected code wanted) s Q :=
  (h.idle (idle_expected hcode wanted)).imp fun _ _ _ ⟨hrun, _⟩ => nomatch hrun

/-- What follows an idle step begins with the same branches. -/
theorem before (h : o.Bears xs F s) (hp : Idle p)
    (hf : ∀ a t, p s = .ok a t → o.Bears xs F t → Grafts o k F (f a) (f' a) t S) :
    Grafts o k F (p >>= f) (p >>= f') s S :=
  (h.idle hp).bind fun a t _ ⟨hrun, ht⟩ => hf a t hrun ht

/-- The same where branches of the forest wait for a statement. -/
theorem before_end (ys : List Branch) (h : o.Bears xs (ys ++ F) s) (hp : Idle p)
    (hf : ∀ a t, o.Bears xs (ys ++ F) t → Grafts o k F (f a) (f' a) t S) :
    Grafts o k F (p >>= f) (p >>= f') s S :=
  ((h.idle hp).frame ys).bind fun a t _ ht => hf a t ht.2

end ParseState.Bears

end FrontEnd
