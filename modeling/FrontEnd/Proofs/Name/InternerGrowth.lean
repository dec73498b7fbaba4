import FrontEnd.Name.Interner
import Mathlib.Data.List.Find

/-! Interning gives a name to a text and takes none away. -/

namespace FrontEnd

namespace Interner

variable {t u : Interner} {n : Name} {text : String}

/-- The name was handed out, for this text. -/
def Has (t : Interner) (n : Name) (text : String) : Prop := t.texts[n.index]? = some text

/-- Every name in a bucket was handed out. -/
def Sound (t : Interner) : Prop :=
  ∀ h : UInt64, ∀ n ∈ t.buckets.getD h [], n.index < t.texts.size

/-- Names keep their texts. -/
def Grows (t u : Interner) : Prop := ∀ n text, t.Has n text → u.Has n text

theorem Grows.refl (t : Interner) : t.Grows t := fun _ _ h => h

theorem Grows.trans {v : Interner} (h : t.Grows u) (h' : u.Grows v) : t.Grows v :=
  fun n text ht => h' n text (h n text ht)

theorem Has.lookup (h : t.Has n text) : t.lookup n = text := by
  unfold Has at h
  simp [Interner.lookup, h]

theorem sound_withHash (hashOf : String → UInt64) (reserve : Nat) :
    (withHash hashOf reserve).Sound := by
  intro h n hn
  simp only [withHash, Std.HashMap.ofList_singleton, Std.HashMap.getD_insert] at hn ⊢
  split at hn
  · simp only [List.mem_singleton] at hn
    simp [hn, Name.empty]
  · simp at hn

theorem sound_withReserve (reserve : Nat) : (withReserve reserve).Sound :=
  sound_withHash hash reserve

theorem Sound.get? (h : t.Sound) (hg : t.get? text = some n) : t.Has n text := by
  unfold Interner.get? at hg
  have hmem := List.mem_of_find?_eq_some hg
  have htext := List.find?_some hg
  have hlt := h _ n hmem
  simp only [Interner.lookup, Array.getElem?_eq_getElem hlt, Option.getD_some, beq_iff_eq] at htext
  rw [Has, Array.getElem?_eq_getElem hlt, htext]

theorem has_push (t : Interner) (text : String) : (t.push text).2.Has (t.push text).1 text := by
  simp [Has, push]

theorem grows_push (t : Interner) (text : String) : t.Grows (t.push text).2 := by
  intro n old h
  obtain ⟨hlt, -⟩ := Array.getElem?_eq_some_iff.1 h
  simp only [Has, push, Array.getElem?_push, show n.index ≠ t.texts.size by omega, if_false]
  exact h

theorem Sound.push (h : t.Sound) (text : String) : (t.push text).2.Sound := by
  intro k n hn
  simp only [Interner.push, Std.HashMap.getD_insert, Array.size_push] at hn ⊢
  split at hn
  · rcases List.mem_append.1 hn with hn | hn
    · have := h _ n hn
      omega
    · simp at hn
      simp [hn]
  · have := h _ n hn
    omega

/-- What interning a text leads to. -/
theorem Sound.intern (h : t.Sound) (hi : t.intern text = .ok (n, u)) :
    u.Sound ∧ u.Has n text ∧ t.Grows u := by
  unfold Interner.intern at hi
  split at hi
  · rename_i m hm
    simp only [Except.ok.injEq, Prod.mk.injEq] at hi
    obtain ⟨rfl, rfl⟩ := hi
    exact ⟨h, h.get? hm, .refl t⟩
  · split at hi
    · have he := Except.ok.inj hi
      have h1 : (t.push text).1 = n := by rw [he]
      have h2 : (t.push text).2 = u := by rw [he]
      subst h1 h2
      exact ⟨h.push text, has_push t text, grows_push t text⟩
    · simp at hi

theorem lookup_push (h : n.index < t.texts.size) (text : String) :
    (t.push text).2.lookup n = t.lookup n := by
  simp [lookup, Interner.push, Array.getElem?_push, show n.index ≠ t.texts.size by omega]

/-- A text that was interned is found again. -/
theorem Sound.get?_push (h : t.Sound) (hg : t.get? text = none) :
    (t.push text).2.get? text = some (t.push text).1 := by
  unfold Interner.get? at hg ⊢
  have hold : (t.buckets.getD (t.hashOf text) []).find?
      (fun n => (t.push text).2.lookup n == text) = none := by
    refine List.find?_eq_none.2 fun n hn => ?_
    rw [lookup_push (h _ n hn)]
    exact List.find?_eq_none.1 hg n hn
  change List.find? _ ((t.buckets.insert (t.hashOf text) _).getD (t.hashOf text) []) = _
  rw [Std.HashMap.getD_insert_self, List.find?_append, hold, Option.none_or]
  exact List.find?_cons_of_pos (beq_iff_eq.2 (has_push t text).lookup)

/-- A name is found under its text when other texts are added. -/
theorem Sound.get?_push_of_some (h : t.Sound) (hg : t.get? text = some n) (other : String) :
    (t.push other).2.get? text = some n := by
  have hkeep (k : UInt64) : (t.buckets.getD k []).find?
      (fun n => (t.push other).2.lookup n == text) =
        (t.buckets.getD k []).find? fun n => t.lookup n == text :=
    List.find?_congr fun m hm => by rw [lookup_push (h _ m hm)]
  have hold : (t.buckets.getD (t.hashOf text) []).find?
      (fun n => (t.push other).2.lookup n == text) = some n := (hkeep _).trans hg
  change List.find? _ ((t.buckets.insert (t.hashOf other) _).getD (t.hashOf text) []) = _
  rw [Std.HashMap.getD_insert]
  split
  next he => rw [beq_iff_eq.1 he, List.find?_append, hold, Option.some_or]
  next => exact hold

/-- A name stays that of its text. -/
theorem Sound.get?_stays {other : String} {m : Name} (h : t.Sound)
    (hi : t.intern other = .ok (m, u)) (hg : t.get? text = some n) : u.get? text = some n := by
  unfold Interner.intern at hi
  split at hi
  · cases hi
    exact hg
  · split at hi
    · have hu : (t.push other).2 = u := by rw [Except.ok.inj hi]
      exact hu ▸ h.get?_push_of_some hg other
    · cases hi

theorem Sound.get?_intern (h : t.Sound) (hi : t.intern text = .ok (n, u)) :
    u.get? text = some n := by
  unfold Interner.intern at hi
  split at hi
  · rename_i m hm
    cases hi
    exact hm
  · rename_i hnone
    split at hi
    · have he := Except.ok.inj hi
      have hpush := h.get?_push hnone
      rw [he] at hpush
      exact hpush
    · cases hi

theorem intern_of_get? (h : t.get? text = some n) : t.intern text = .ok (n, t) := by
  rw [intern, h]

end Interner

end FrontEnd
