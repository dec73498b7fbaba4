import FrontEnd.Proofs.Name.ComposedTexts
import FrontEnd.Proofs.Pair.Lockstep

/-!
Names under two reservations. What is composed in a scratch arena is the same as long as both have
room; and an arena without room for a qualified name hides none, since names have no more room.
-/

namespace FrontEnd

open Tie

namespace Draft

variable {d e : Draft} {pieces : List String} {piece text text' : String}

/-- The drafts hold the same text, as long as both are complete. -/
def Agree (d e : Draft) : Prop := d.complete = true → e.complete = true → d.text = e.text

theorem agree_withReserve (m n : Nat) : (withReserve m).Agree (withReserve n) := fun _ _ => rfl

theorem text_of_put (h : (d.put piece).complete = true) :
    d.complete = true ∧ (d.put piece).text = d.text ++ piece := by
  unfold put at h ⊢
  split at h
  next hfits =>
    rw [if_pos hfits]
    exact ⟨h, rfl⟩
  next => cases h

theorem Agree.put (h : d.Agree e) (piece : String) : (d.put piece).Agree (e.put piece) := by
  intro hd he
  obtain ⟨hd, htext⟩ := text_of_put hd
  obtain ⟨he, htext'⟩ := text_of_put he
  rw [htext, htext', h hd he]

/-- Where room runs out, the draft stays incomplete. -/
theorem puts_cons (d : Draft) (piece : String) (rest : List String) :
    d.puts (piece :: rest) = (d.put piece).puts rest ∨
      (d.puts (piece :: rest)).complete = false := by
  rw [puts]
  split
  · exact .inl rfl
  · exact .inr rfl

theorem Agree.puts (h : d.Agree e) (pieces : List String) :
    (d.puts pieces).Agree (e.puts pieces) := by
  induction pieces generalizing d e with
  | nil => exact h
  | cons piece rest ih =>
    intro hd he
    rcases d.puts_cons piece rest with hsame | hfalse
    · rcases e.puts_cons piece rest with hsame' | hfalse
      · rw [hsame] at hd ⊢
        rw [hsame'] at he ⊢
        exact ih (h.put piece) hd he
      · rw [hfalse] at he
        cases he
    · rw [hfalse] at hd
      cases hd

theorem Agree.foldl (h : d.Agree e) (groups : List (List String)) :
    (groups.foldl Draft.puts d).Agree (groups.foldl Draft.puts e) := by
  induction groups generalizing d e with
  | nil => exact h
  | cons group groups ih => exact ih (h.puts group)

/-- Finished drafts that agree yield one text. -/
theorem Agree.finish (h : d.Agree e) (hd : d.finish = .ok text) (he : e.finish = .ok text') :
    text = text' := by
  obtain ⟨hcomplete, rfl⟩ := finish_eq_ok.1 hd
  obtain ⟨hcomplete', rfl⟩ := finish_eq_ok.1 he
  exact h hcomplete hcomplete'

theorem size_le_foldl (pieces : List String) (start : String) :
    start.utf8ByteSize ≤ (pieces.foldl (· ++ ·) start).utf8ByteSize := by
  induction pieces generalizing start with
  | nil => exact Nat.le_refl _
  | cons piece rest ih =>
    have hle := ih (start ++ piece)
    rw [String.utf8ByteSize_append] at hle
    exact Nat.le_trans (Nat.le_add_right _ _) hle

/-- Pieces that fit together are all written. -/
theorem finish_puts (hc : d.complete = true)
    (hfits : (pieces.foldl (· ++ ·) d.text).utf8ByteSize ≤ d.reserve) :
    (d.puts pieces).finish = .ok (pieces.foldl (· ++ ·) d.text) := by
  induction pieces generalizing d with
  | nil => exact finish_eq_ok.2 ⟨hc, rfl⟩
  | cons piece rest ih =>
    have hle := size_le_foldl rest (d.text ++ piece)
    rw [String.utf8ByteSize_append] at hle
    have hroom : d.size + piece.utf8ByteSize ≤ d.reserve := Nat.le_trans hle hfits
    have hput : d.put piece = { d with text := d.text ++ piece } := if_pos hroom
    rw [puts, if_pos hroom, hput]
    exact ih hc hfits

end Draft

namespace Interner

variable {D : Prop} {a b t u : Interner} {scratch scratch' : Nat} {n : Name} {text : String}

/-! ### One interner -/

/-- Every text fits into a scratch arena of this reservation. -/
structure Fits (t : Interner) (scratch : Nat) : Prop where
  sound : t.Sound
  reserve : t.reserve = min scratch maxOffset
  texts : ∀ n text, t.Has n text → text.utf8ByteSize ≤ t.reserve

theorem fits_withReserve (reserve : Nat) : (withReserve reserve).Fits reserve := by
  refine ⟨sound_withReserve reserve, rfl, fun n text h => ?_⟩
  obtain ⟨hlt, htext⟩ := Array.getElem?_eq_some_iff.1 h
  obtain rfl : "" = text := by simpa [withReserve, withHash] using htext
  exact Nat.zero_le _

/-- Interning finds a text, or adds one that there is room for. -/
theorem intern_cases (h : t.intern text = .ok (n, u)) : t.get? text = some n ∧ u = t ∨
    t.get? text = none ∧ t.used + text.utf8ByteSize ≤ t.reserve ∧ (n, u) = t.push text := by
  unfold intern at h
  split at h
  next m hm =>
    cases h
    exact .inl ⟨hm, rfl⟩
  next hm =>
    split at h
    next hroom => exact .inr ⟨hm, hroom, (Except.ok.inj h).symm⟩
    next => cases h

theorem Fits.intern (h : t.Fits scratch) (hi : t.intern text = .ok (n, u)) : u.Fits scratch := by
  rcases intern_cases hi with ⟨-, rfl⟩ | ⟨-, hroom, hpush⟩
  · exact h
  · obtain rfl : u = (t.push text).2 := congrArg Prod.snd hpush
    refine ⟨h.sound.push text, h.reserve, fun m old hm => ?_⟩
    simp only [Has, push, Array.getElem?_push] at hm
    split at hm
    · obtain rfl := Option.some.inj hm
      exact Nat.le_trans (Nat.le_add_left _ _) hroom
    · exact h.texts m old hm

/-- A member of a namespace is found if its whole name was interned, however small the scratch
arena is. -/
theorem find?_eq_get? (hs : t.Sound)
    (hfits : ∀ n text, t.Has n text → text.utf8ByteSize ≤ min scratch maxOffset)
    (outer name : Name) : Qualified.find? t scratch outer name =
      t.get? (t.lookup outer ++ "::" ++ t.lookup name) := by
  have hfull : [t.lookup outer, "::", t.lookup name].foldl (· ++ ·) "" =
      t.lookup outer ++ "::" ++ t.lookup name := by simp
  unfold Qualified.find? Qualified.draft
  cases hg : t.get? (t.lookup outer ++ "::" ++ t.lookup name) with
  | some n =>
    have hsize := hfits n _ (hs.get? hg)
    rw [← hfull] at hsize
    rw [Draft.finish_puts (d := Draft.withReserve scratch) rfl hsize]
    exact (congrArg t.get? hfull).trans hg
  | none =>
    cases hf : ((Draft.withReserve scratch).puts
        [t.lookup outer, "::", t.lookup name]).finish with
    | error e => rfl
    | ok text =>
      have htext := Draft.text_of_finish hf
      have hfound : t.get? text = none := by
        rw [htext, ← hg]
        simp [Draft.withReserve, String.append_assoc]
      exact hfound

theorem Fits.find?_eq (h : t.Fits scratch) (outer name : Name) :
    Qualified.find? t scratch outer name = t.get? (t.lookup outer ++ "::" ++ t.lookup name) :=
  find?_eq_get? h.sound (fun n text hn => h.reserve ▸ h.texts n text hn) outer name

/-! ### Both interners -/

/-- The interners hold the same texts under the same names, and each fits its own scratch arena.
If `D` holds, the reservations are equal too. -/
structure Matches (D : Prop) (a : Interner) (scratch : Nat) (b : Interner) (scratch' : Nat) :
    Prop where
  left : a.Fits scratch
  right : b.Fits scratch'
  same : a = { b with reserve := a.reserve }
  scratch_eq : D → scratch = scratch'

namespace Matches

theorem eq (h : Matches D a scratch b scratch') (hD : D) : a = b := by
  have hreserve : a.reserve = b.reserve := by
    rw [h.left.reserve, h.right.reserve, h.scratch_eq hD]
  rw [h.same, hreserve]

theorem lookup_eq (h : Matches D a scratch b scratch') (n : Name) : a.lookup n = b.lookup n := by
  rw [h.same]
  rfl

theorem get?_eq (h : Matches D a scratch b scratch') (text : String) :
    a.get? text = b.get? text := by
  rw [h.same]
  rfl

theorem find?_eq (h : Matches D a scratch b scratch') (outer name : Name) :
    Qualified.find? a scratch outer name = Qualified.find? b scratch' outer name := by
  rw [h.left.find?_eq, h.right.find?_eq, h.get?_eq, h.lookup_eq, h.lookup_eq]

/-- Both give a text the same name, unless one has no room for it. -/
theorem intern (h : Matches D a scratch b scratch') (text : String) :
    Answers D (fun x y => x.1 = y.1 ∧ Matches D x.2 scratch y.2 scratch') (a.intern text)
      (b.intern text) := by
  refine .of (fun hD => by rw [h.eq hD]) ?_
  rintro ⟨n, a'⟩ ⟨m, b'⟩ ha hb -
  have hleft := h.left.intern ha
  have hright := h.right.intern hb
  rcases intern_cases ha with ⟨hget, rfl⟩ | ⟨hget, -, hpush⟩
  · rcases intern_cases hb with ⟨hget', rfl⟩ | ⟨hget', -, -⟩
    · rw [h.get?_eq, hget'] at hget
      exact ⟨(Option.some.inj hget).symm, h⟩
    · rw [h.get?_eq, hget'] at hget
      cases hget
  · rcases intern_cases hb with ⟨hget', -⟩ | ⟨-, -, hpush'⟩
    · rw [h.get?_eq, hget'] at hget
      cases hget
    · rw [h.same] at hpush
      obtain ⟨rfl, rfl⟩ := Prod.mk.inj hpush
      obtain ⟨rfl, rfl⟩ := Prod.mk.inj hpush'
      exact ⟨rfl, hleft, hright, rfl, h.scratch_eq⟩

/-- A text that is composed and then interned. -/
theorem finish_intern (h : Matches D a scratch b scratch') {d e : Draft} (hde : d.Agree e)
    (hD : D → d = e) : Answers D (fun x y => x.1 = y.1 ∧ Matches D x.2 scratch y.2 scratch')
      (d.finish >>= a.intern) (e.finish >>= b.intern) := by
  refine Answers.bind (R := Eq) (.of (fun hd => by rw [hD hd]) fun _ _ hx hy _ =>
    hde.finish hx hy) ?_
  rintro text _ rfl
  exact h.intern text

theorem qualified (h : Matches D a scratch b scratch') (outer name : Name) :
    Answers D (fun x y => x.1 = y.1 ∧ Matches D x.2 scratch y.2 scratch')
      (Qualified.make a scratch outer name) (Qualified.make b scratch' outer name) := by
  unfold Qualified.make Qualified.draft
  rw [h.lookup_eq, h.lookup_eq]
  exact h.finish_intern ((Draft.agree_withReserve _ _).puts _) fun hD => by rw [h.scratch_eq hD]

end Matches

end Interner

end FrontEnd
