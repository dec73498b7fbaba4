import FrontEnd.Proofs.Token.Locality
import Mathlib.Logic.Function.Iterate

/-!
A plain reader looks at what is next and passes one byte after the other. Where the scanner passes
many bytes at once it comes to the same.
-/

namespace FrontEnd

/-! ### The plain reader -/

namespace Bytewise

open Scanner

/-- Passes single bytes while they satisfy `p`. -/
def passWhile (p : UInt8 → Bool) (s : Scanner) : Scanner :=
  match _h : s.peek with
  | none => s
  | some b => if p b then passWhile p s.bump else s
termination_by s.rest.length
decreasing_by exact length_bump_lt _h

/-- Passes one whole character. -/
def character (s : Scanner) : Scanner := passWhile continuesChar s.bump

/-- Passes single bytes, and both bytes of what opens or closes a block comment, until none of the
`depth` comments that are open is left. -/
def closeComment : (depth : Nat) → (s : Scanner) → Except Scanner Scanner
  | 0, s => .ok s
  | depth + 1, s =>
    match _h : s.peek with
    | none => .error s
    | some b =>
      if b = star ∧ s.peekSecond = some slash then closeComment depth s.bump.bump
      else if b = slash ∧ s.peekSecond = some star then closeComment (depth + 2) s.bump.bump
      else closeComment (depth + 1) s.bump
termination_by _ s => s.rest.length
decreasing_by
  all_goals
    have := length_bump_lt _h
    have := length_bump_le s.bump
    omega

/-- A block comment, from its two opening bytes on. -/
def blockComment (s : Scanner) : Except Scanner Scanner := closeComment 1 s.bump.bump

theorem passWhile_of_peek {p : UInt8 → Bool} {s : Scanner} {b : UInt8} (h : s.peek = some b)
    (hp : p b = true) : passWhile p s = passWhile p s.bump := by
  conv_lhs => rw [passWhile]
  split
  next hnone => exact absurd (h.symm.trans hnone) nofun
  next c hc => rw [if_pos (Option.some.inj (h.symm.trans hc) ▸ hp)]

theorem passWhile_done {p : UInt8 → Bool} {s : Scanner} (h : ∀ b ∈ s.peek, p b = false) :
    passWhile p s = s := by
  rw [passWhile]
  split
  next => rfl
  next b hb => rw [if_neg (by simp [h b hb])]

theorem length_passWhile_le (p : UInt8 → Bool) (s : Scanner) :
    (passWhile p s).rest.length ≤ s.rest.length := by
  fun_induction passWhile p s with
  | case1 | case3 => exact Nat.le_refl _
  | case2 s b h _ ih => exact ih.trans (length_bump_le s)

theorem length_character_le (s : Scanner) : (character s).rest.length ≤ s.rest.length :=
  (length_passWhile_le ..).trans (length_bump_le s)

theorem length_closeComment_le {depth : Nat} {s t : Scanner} (h : closeComment depth s = .ok t) :
    t.rest.length ≤ s.rest.length := by
  fun_induction closeComment depth s with
  | case1 => exact (Except.ok.inj h) ▸ Nat.le_refl _
  | case2 => cases h
  | case3 depth s b hb _ ih | case4 depth s b hb _ _ ih =>
    exact (ih h).trans ((length_bump_le _).trans (length_bump_le s))
  | case5 depth s b hb _ _ ih => exact (ih h).trans (length_bump_le s)

/-- Passes blanks and comments. -/
def skipTrivia (s : Scanner) : Trivia :=
  match _h : s.peek with
  | none => .passed s
  | some b =>
    if b ∈ [32, 9, 13, lineFeed] then skipTrivia s.bump
    else if b = slash ∧ s.peekSecond = some slash then
      skipTrivia (passWhile (· != lineFeed) s.bump.bump)
    else if b = slash ∧ s.peekSecond = some star then
      match _hc : blockComment s with
      | .ok t => skipTrivia t
      | .error stop => .unterminated s stop
    else .passed s
termination_by s.rest.length
decreasing_by
  · exact length_bump_lt _h
  · have := length_passWhile_le (· != lineFeed) s.bump.bump
    have := length_bump_le s.bump
    have := length_bump_lt _h
    omega
  · have := length_closeComment_le _hc
    have := length_bump_le s.bump
    have := length_bump_lt _h
    omega

/-- Passes the rest of a string literal. -/
def closeString (s : Scanner) : Except Scanner Scanner :=
  match _h : s.peek with
  | none => .error s
  | some b =>
    if b = quotationMark then .ok s.bump
    else if b = backslash then closeString (character s.bump)
    else closeString s.bump
termination_by s.rest.length
decreasing_by
  · exact (length_character_le _).trans_lt (length_bump_lt _h)
  · exact length_bump_lt _h

/-- The token of a string literal, of which the rest was passed. -/
def stringToken (start : Scanner) : Except Scanner Scanner → Token × Scanner
  | .ok stop => start.make stop .stringLit
  | .error stop => start.fail stop .unterminatedString

def string (start s : Scanner) : Token × Scanner := stringToken start (closeString s)

end Bytewise

/-! ### Runs of bytes -/

namespace Scanner

variable {s t : Scanner} {b : UInt8} {wanted : List UInt8}

/-- Bytes that are passed at once are passed one by one. -/
theorem skip_eq_iterate (s : Scanner) (len : Nat) : s.skip len = bump^[len] s := by
  induction len generalizing s with
  | zero => exact s.skip_zero
  | succ len ih => rw [Function.iterate_succ_apply, ← ih, bump_eq_skip, skip_skip, Nat.add_comm]

theorem skip_two (s : Scanner) : s.skip 2 = s.bump.bump := s.skip_eq_iterate 2

/-- Neither line nor column gets further ahead than the bytes that are passed. -/
theorem counters_iterate_le (s : Scanner) (len : Nat) :
    (bump^[len] s).line ≤ s.line + len ∧ (bump^[len] s).col ≤ s.col + len := by
  induction len generalizing s with
  | zero => exact ⟨Nat.le_refl _, Nat.le_refl _⟩
  | succ len ih =>
    have hbump : s.bump.line ≤ s.line + 1 ∧ s.bump.col ≤ s.col + 1 := by
      unfold bump
      split
      · exact ⟨Nat.le_succ _, Nat.le_succ _⟩
      · split
        · exact ⟨Nat.le_refl _, Nat.le_add_left ..⟩
        · exact ⟨Nat.le_succ _, Nat.le_refl _⟩
    obtain ⟨hline, hcol⟩ := ih s.bump
    rw [Function.iterate_succ_apply]
    omega

/-- A reader that only passes these bytes finds the same if they are passed at once. -/
theorem read_skip {α : Type} {read : Scanner → α} {plain : UInt8 → Prop}
    (hread : ∀ s b, s.peek = some b → plain b → read s = read s.bump) (len : Nat)
    (h : ∀ b ∈ s.rest.take len, plain b) : read s = read (s.skip len) := by
  induction len generalizing s with
  | zero => rw [skip_zero]
  | succ len ih =>
    cases hs : s.rest with
    | nil => rw [skip_of_take_nil (by rw [hs, List.take_nil])]
    | cons b after =>
      rw [hs, List.take_succ_cons, List.forall_mem_cons] at h
      calc read s = read s.bump := hread s b (by rw [peek, hs, List.head?_cons]) h.1
        _ = read (s.bump.skip len) := ih (by rw [rest_bump, hs]; exact h.2)
        _ = read (s.skip (len + 1)) := by rw [bump_eq_skip, skip_skip, Nat.add_comm]

theorem read_skipTo? {α : Type} {read : Scanner → α}
    (hread : ∀ s b, s.peek = some b → b ∉ wanted → read s = read s.bump)
    (h : s.skipTo? (· ∈ wanted) = some t) : read s = read t := by
  obtain ⟨len, hlen, rfl⟩ := Option.map_eq_some_iff.1 h
  obtain ⟨hlt, -, hbefore⟩ := List.findIdx?_eq_some_iff_getElem.1 hlen
  refine read_skip hread len fun b hb => ?_
  obtain ⟨i, hi, rfl⟩ := List.mem_take_iff_getElem.1 hb
  simpa using hbefore i (by omega)

theorem read_skipAll {α : Type} {read : Scanner → α}
    (hread : ∀ s b, s.peek = some b → b ∉ wanted → read s = read s.bump)
    (h : s.skipTo? (· ∈ wanted) = none) : read s = read s.skipAll := by
  have hnone := List.findIdx?_eq_none_iff.1 (Option.map_eq_none_iff.1 h)
  refine read_skip hread s.rest.length fun b hb => ?_
  simpa using hnone b (List.mem_of_mem_take hb)

theorem peek_bump (s : Scanner) : s.bump.peek = s.peekSecond := by
  rw [peek, rest_bump, peekSecond]

theorem two_le_of_peekSecond (h : s.peekSecond = some b) : 2 ≤ s.rest.length := by
  obtain ⟨after, hs⟩ := List.head?_eq_some_iff.1 h
  have hlen := congrArg List.length hs
  rw [List.length_tail, List.length_cons] at hlen
  omega

theorem peek_skipAll (s : Scanner) : s.skipAll.peek = none := by
  rw [peek, skipAll, rest_skip, List.drop_length, List.head?_nil]

theorem passWhile_eq (p : UInt8 → Bool) (s : Scanner) : Bytewise.passWhile p s = s.eatWhile p := by
  have hrun : ∀ b ∈ s.rest.take (s.rest.takeWhile p).length, p b = true := by
    rw [← List.prefix_iff_eq_take.1 (List.takeWhile_prefix p)]
    exact List.all_eq_true.1 List.all_takeWhile
  -- Behind the run the plain reader has nothing left to pass.
  calc Bytewise.passWhile p s = Bytewise.passWhile p (s.eatWhile p) :=
        read_skip (fun _ _ => Bytewise.passWhile_of_peek) _ hrun
    _ = s.eatWhile p := Bytewise.passWhile_done fun _ => peek_eatWhile

theorem character_eq (s : Scanner) : Bytewise.character s = s.bumpChar := passWhile_eq _ _

end Scanner

/-! ### Single steps -/

namespace Bytewise

open Scanner

variable {s t : Scanner} {depth : Nat} {b : UInt8}

theorem closeComment_end (h : s.peek = none) : closeComment (depth + 1) s = .error s := by
  rw [closeComment]
  split
  next => rfl
  next b hb => exact absurd (h.symm.trans hb) nofun

theorem closeComment_of_peek (h : s.peek = some b) : closeComment (depth + 1) s =
    if b = star ∧ s.peekSecond = some slash then closeComment depth s.bump.bump
    else if b = slash ∧ s.peekSecond = some star then closeComment (depth + 2) s.bump.bump
    else closeComment (depth + 1) s.bump := by
  conv_lhs => rw [closeComment]
  split
  next hnone => exact absurd (h.symm.trans hnone) nofun
  next c hc => rw [Option.some.inj (hc.symm.trans h)]

theorem closeComment_close (h : s.peek = some star) (h' : s.peekSecond = some slash) :
    closeComment (depth + 1) s = closeComment depth s.bump.bump := by
  rw [closeComment_of_peek h, if_pos ⟨rfl, h'⟩]

theorem closeComment_open (h : s.peek = some slash) (h' : s.peekSecond = some star) :
    closeComment (depth + 1) s = closeComment (depth + 2) s.bump.bump := by
  rw [closeComment_of_peek h, if_neg fun hc => absurd hc.1 (by decide), if_pos ⟨rfl, h'⟩]

theorem closeComment_byte (h : s.peek = some b)
    (hclose : ¬(s.peek = some star ∧ s.peekSecond = some slash))
    (hopen : ¬(s.peek = some slash ∧ s.peekSecond = some star)) :
    closeComment (depth + 1) s = closeComment (depth + 1) s.bump := by
  rw [h, Option.some.injEq] at hclose hopen
  rw [closeComment_of_peek h, if_neg hclose, if_neg hopen]

theorem closeComment_plain (s : Scanner) (b : UInt8) (h : s.peek = some b)
    (hb : b ∉ [star, slash]) : closeComment (depth + 1) s = closeComment (depth + 1) s.bump := by
  rw [closeComment_of_peek h, if_neg fun hc => hb (by simp [hc.1]),
    if_neg fun hc => hb (by simp [hc.1])]

/-- Nothing happens before the next star or slash. -/
theorem closeComment_seek (h : s.skipTo? (· ∈ [star, slash]) = some t) :
    closeComment (depth + 1) s = closeComment (depth + 1) t :=
  read_skipTo? closeComment_plain h

theorem closeComment_never (h : s.skipTo? (· ∈ [star, slash]) = none) :
    closeComment (depth + 1) s = .error s.skipAll := by
  rw [read_skipAll closeComment_plain h, closeComment_end s.peek_skipAll]

theorem character_end (h : s.peek = none) : character s = s := by
  have hbump : s.bump = s := by
    unfold bump
    rw [List.head?_eq_none_iff.1 h]
  rw [character, hbump, passWhile_done (by simp [h])]

theorem closeString_end (h : s.peek = none) : closeString s = .error s := by
  rw [closeString]
  split
  next => rfl
  next b hb => exact absurd (h.symm.trans hb) nofun

theorem closeString_of_peek (h : s.peek = some b) : closeString s =
    if b = quotationMark then .ok s.bump
    else if b = backslash then closeString (character s.bump)
    else closeString s.bump := by
  conv_lhs => rw [closeString]
  split
  next hnone => exact absurd (h.symm.trans hnone) nofun
  next c hc => rw [Option.some.inj (hc.symm.trans h)]

theorem closeString_quote (h : s.peek = some quotationMark) : closeString s = .ok s.bump := by
  rw [closeString_of_peek h, if_pos rfl]

theorem closeString_escape (h : s.peek = some backslash) :
    closeString s = closeString (character s.bump) := by
  rw [closeString_of_peek h, if_neg (by decide), if_pos rfl]

theorem closeString_plain (s : Scanner) (b : UInt8) (h : s.peek = some b)
    (hb : b ∉ [quotationMark, backslash]) : closeString s = closeString s.bump := by
  rw [closeString_of_peek h, if_neg fun he => hb (by simp [he]), if_neg fun he => hb (by simp [he])]

/-- Nothing happens before the next quotation mark or backslash. -/
theorem closeString_seek (h : s.skipTo? (· ∈ [quotationMark, backslash]) = some t) :
    closeString s = closeString t :=
  read_skipTo? closeString_plain h

theorem closeString_never (h : s.skipTo? (· ∈ [quotationMark, backslash]) = none) :
    closeString s = .error s.skipAll := by
  rw [read_skipAll closeString_plain h, closeString_end s.peek_skipAll]

theorem skipTrivia_end (h : s.peek = none) : skipTrivia s = .passed s := by
  rw [skipTrivia]
  split
  next => rfl
  next b hb => exact absurd (h.symm.trans hb) nofun

theorem skipTrivia_of_peek (h : s.peek = some b) : skipTrivia s =
    if b ∈ [32, 9, 13, lineFeed] then skipTrivia s.bump
    else if b = slash ∧ s.peekSecond = some slash then
      skipTrivia (passWhile (· != lineFeed) s.bump.bump)
    else if b = slash ∧ s.peekSecond = some star then
      match blockComment s with
      | .ok t => skipTrivia t
      | .error stop => .unterminated s stop
    else .passed s := by
  conv_lhs => rw [skipTrivia]
  split
  next hnone => exact absurd (h.symm.trans hnone) nofun
  next c hc =>
    obtain rfl := Option.some.inj (hc.symm.trans h)
    refine if_congr Iff.rfl rfl (if_congr Iff.rfl rfl (if_congr Iff.rfl ?_ rfl))
    split <;> next hblock => rw [hblock]

theorem skipTrivia_blank (h : s.peek = some b) (hb : b ∈ [32, 9, 13, lineFeed]) :
    skipTrivia s = skipTrivia s.bump := by
  rw [skipTrivia_of_peek h, if_pos hb]

theorem skipTrivia_line (h : s.peek = some slash) (h' : s.peekSecond = some slash) :
    skipTrivia s = skipTrivia (passWhile (· != lineFeed) s.bump.bump) := by
  rw [skipTrivia_of_peek h, if_neg (by decide), if_pos ⟨rfl, h'⟩]

theorem skipTrivia_block (h : s.peek = some slash) (h' : s.peekSecond = some star) :
    skipTrivia s = match blockComment s with
      | .ok t => skipTrivia t
      | .error stop => .unterminated s stop := by
  have hline : ¬(slash = slash ∧ s.peekSecond = some slash) := by simp [h', star, slash]
  rw [skipTrivia_of_peek h, if_neg (by decide), if_neg hline, if_pos ⟨rfl, h'⟩]

theorem skipTrivia_done (h : s.peek = some b) (hb : b ∉ [32, 9, 13, lineFeed])
    (hline : ¬(s.peek = some slash ∧ s.peekSecond = some slash))
    (hblock : ¬(s.peek = some slash ∧ s.peekSecond = some star)) : skipTrivia s = .passed s := by
  rw [h, Option.some.injEq] at hline hblock
  rw [skipTrivia_of_peek h, if_neg hb, if_neg hline, if_neg hblock]

end Bytewise

/-! ### The scanner -/

namespace Scanner

variable {s : Scanner} {b : UInt8} {after : List UInt8}

theorem byteChar_injective : Function.Injective byteChar := fun _ c h =>
  UInt8.toNat_inj.1 ((byteChar_eq h).trans (toNat_byteChar c))

theorem peek_of_rest (h : s.rest = b :: after) : s.peek = some b := by
  rw [peek, h, List.head?_cons]

/-- What the next two characters are, told by their bytes. -/
theorem peeks_iff (x y : UInt8) (h : s.rest = b :: after) :
    (byteChar b = byteChar x ∧ after.head?.map byteChar = some (byteChar y)) ↔
      s.peek = some x ∧ s.peekSecond = some y := by
  rw [peek, peekSecond, h, List.head?_cons, List.tail_cons, Option.some.injEq,
    byteChar_injective.eq_iff, ← Option.map_some, (Option.map_injective byteChar_injective).eq_iff]

theorem stops_comment : (fun b => byteChar b == '*' || byteChar b == '/') =
    fun b => decide (b ∈ [star, slash]) := by
  funext b
  have hstar : byteChar b = '*' ↔ b = star := byteChar_injective.eq_iff (b := star)
  have hslash : byteChar b = '/' ↔ b = slash := byteChar_injective.eq_iff (b := slash)
  rw [Bool.eq_iff_iff]
  simp [hstar, hslash]

/-- The scanner counts levels below the outermost comment, the plain reader comments. -/
theorem closeComment_eq (depth : Nat) (s : Scanner) :
    closeComment depth s = Bytewise.closeComment (depth + 1) s := by
  fun_induction closeComment depth s with
  | case1 depth s hnone =>
    rw [stops_comment] at hnone
    rw [Bytewise.closeComment_never hnone]
  | case2 depth s u hu hnil =>
    obtain ⟨b, hb, -⟩ := peek_skipTo? hu
    simp [peek, hnil] at hb
  | case3 s u hu b after hb hsecond hfirst =>
    rw [stops_comment] at hu
    obtain ⟨hstar, hslash⟩ := (peeks_iff star slash hb).1 ⟨hfirst, hsecond⟩
    rw [Bytewise.closeComment_seek hu, Bytewise.closeComment_close hstar hslash,
      Bytewise.closeComment, skip_two]
  | case4 depth s u hu b after hb hsecond hfirst hdepth ih =>
    rw [stops_comment] at hu
    obtain ⟨hstar, hslash⟩ := (peeks_iff star slash hb).1 ⟨hfirst, hsecond⟩
    rw [Bytewise.closeComment_seek hu, Bytewise.closeComment_close hstar hslash, ih, skip_two,
      Nat.sub_one_add_one hdepth]
  | case5 depth s u hu b after hb hsecond hfirst ih =>
    rw [stops_comment] at hu
    obtain ⟨hslash, hstar⟩ := (peeks_iff slash star hb).1 ⟨hfirst, hsecond⟩
    rw [Bytewise.closeComment_seek hu, Bytewise.closeComment_open hslash hstar, ih, skip_two]
  | case6 depth s u hu b after hb hclose hopen ih =>
    obtain ⟨c, hc, -⟩ := peek_skipTo? hu
    rw [stops_comment] at hu
    have hclose' := fun h => and_imp.2 hclose ((peeks_iff star slash hb).2 h)
    have hopen' := fun h => and_imp.2 hopen ((peeks_iff slash star hb).2 h)
    rw [Bytewise.closeComment_seek hu, Bytewise.closeComment_byte hc hclose' hopen', ih]

theorem stops_string : (fun b => b == quotationMark || b == backslash) =
    fun b => decide (b ∈ [quotationMark, backslash]) := by
  funext b
  rw [Bool.eq_iff_iff]
  simp

theorem closeString_eq (s : Scanner) : s.closeString = Bytewise.closeString s := by
  fun_induction closeString s with
  | case1 s hnone =>
    rw [stops_string] at hnone
    rw [Bytewise.closeString_never hnone]
  | case2 s u hu hnil =>
    obtain ⟨b, hb, -⟩ := peek_skipTo? hu
    simp [peek, hnil] at hb
  | case3 s u hu after hb =>
    rw [stops_string] at hu
    rw [Bytewise.closeString_seek hu, Bytewise.closeString_quote (peek_of_rest hb)]
  | case4 s u hu b after hb hne ih =>
    rw [stops_string] at hu
    obtain ⟨c, hc, hstop⟩ := peek_skipTo? hu
    obtain rfl := Option.some.inj (hc.symm.trans (peek_of_rest hb))
    have hescape : c = backslash := by simpa [hne] using hstop
    rw [hescape] at hc
    rw [Bytewise.closeString_seek hu, Bytewise.closeString_escape hc, ih, character_eq]

theorem string_eq (start s : Scanner) : start.string s = Bytewise.string start s := by
  rw [string, closeString_eq, Bytewise.string]
  cases Bytewise.closeString s <;> rfl

theorem skipTrivia_eq (s : Scanner) : s.skipTrivia = Bytewise.skipTrivia s := by
  fun_induction skipTrivia s with
  | case1 s hnil => rw [Bytewise.skipTrivia_end (by rw [peek, hnil, List.head?_nil])]
  | case2 s b after hb hblank ih =>
    rw [Bytewise.skipTrivia_blank (peek_of_rest hb) (isBlank_iff.1 hblank), ih]
  | case3 s b after hb hblank hsecond hfirst ih =>
    obtain ⟨hslash, hslash'⟩ := (peeks_iff slash slash hb).1 ⟨hfirst, hsecond⟩
    rw [Bytewise.skipTrivia_line hslash hslash', ih, skip_two, passWhile_eq]
  | case4 s b after hb hblank hsecond hfirst t ht ih =>
    obtain ⟨hslash, hstar⟩ := (peeks_iff slash star hb).1 ⟨hfirst, hsecond⟩
    rw [closeComment_eq, skip_two] at ht
    rw [Bytewise.skipTrivia_block hslash hstar, Bytewise.blockComment, ht, ih]
  | case5 s b after hb hblank hsecond hfirst stop hstop =>
    obtain ⟨hslash, hstar⟩ := (peeks_iff slash star hb).1 ⟨hfirst, hsecond⟩
    rw [closeComment_eq, skip_two] at hstop
    rw [Bytewise.skipTrivia_block hslash hstar, Bytewise.blockComment, hstop]
  | case6 s b after hb hblank hline hblock =>
    have hline' := fun h => and_imp.2 hline ((peeks_iff slash slash hb).2 h)
    have hblock' := fun h => and_imp.2 hblock ((peeks_iff slash star hb).2 h)
    rw [Bytewise.skipTrivia_done (peek_of_rest hb) (mt isBlank_iff.2 hblank) hline' hblock']

end Scanner

end FrontEnd
