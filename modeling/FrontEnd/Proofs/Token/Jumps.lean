import FrontEnd.Proofs.Token.Bytewise

/-!
Reading by jumps: a search finds the next byte of interest, and all that is before it is passed at
once. Whatever the search is, this is reading byte by byte.
-/

namespace FrontEnd

/-! ### Searches -/

/-- The first of the wanted bytes is at `i`. -/
def FirstAt (wanted bytes : List UInt8) (i : Nat) : Prop :=
  ∃ before b after, bytes = before ++ b :: after ∧ before.length = i ∧ b ∈ wanted ∧
    ∀ c ∈ before, c ∉ wanted

/-- The last `b` is at `i`. -/
def LastAt (b : UInt8) (bytes : List UInt8) (i : Nat) : Prop :=
  ∃ before after, bytes = before ++ b :: after ∧ before.length = i ∧ b ∉ after

/-- Functions that find bytes and count them, however they do it. -/
structure Search where
  /-- Where the first of some wanted bytes is. -/
  first : List UInt8 → List UInt8 → Option Nat
  /-- Where a byte is for the last time. -/
  last : UInt8 → List UInt8 → Option Nat
  /-- How often a byte is there. -/
  count : UInt8 → List UInt8 → Nat
  first_iff (wanted bytes : List UInt8) (i : Nat) :
    first wanted bytes = some i ↔ FirstAt wanted bytes i
  last_iff (b : UInt8) (bytes : List UInt8) (i : Nat) : last b bytes = some i ↔ LastAt b bytes i
  count_eq (b : UInt8) (bytes : List UInt8) : count b bytes = bytes.count b

section

variable {wanted bytes : List UInt8} {b : UInt8} {i : Nat}

theorem findIdx?_iff : bytes.findIdx? (· ∈ wanted) = some i ↔ FirstAt wanted bytes i := by
  rw [List.findIdx?_eq_some_iff_getElem]
  constructor
  · rintro ⟨hlt, hb, hbefore⟩
    refine ⟨bytes.take i, bytes[i], bytes.drop (i + 1), ?_, List.length_take_of_le hlt.le,
      of_decide_eq_true hb, fun c hc => ?_⟩
    · rw [← List.drop_eq_getElem_cons hlt, List.take_append_drop]
    · obtain ⟨j, hj, rfl⟩ := List.mem_take_iff_getElem.1 hc
      simpa using hbefore j (by omega)
  · rintro ⟨before, b, after, rfl, rfl, hb, hbefore⟩
    refine ⟨by simp, by simpa using hb, fun j hj => ?_⟩
    rw [List.getElem_append_left hj, decide_eq_true_eq]
    exact hbefore _ (List.getElem_mem hj)

/-- The last one is the first one from behind. -/
theorem lastAt_iff : LastAt b bytes i ↔
    ∃ j, FirstAt [b] bytes.reverse j ∧ bytes.length - j - 1 = i := by
  constructor
  · rintro ⟨before, after, rfl, rfl, hnot⟩
    refine ⟨after.length, ⟨after.reverse, b, before.reverse, by simp, by simp, by simp, ?_⟩, ?_⟩
    · intro c hc
      rw [List.mem_singleton]
      rintro rfl
      exact hnot (List.mem_reverse.1 hc)
    · simp only [List.length_append, List.length_cons]
      omega
  · rintro ⟨j, ⟨after, c, before, hrev, rfl, hc, hnot⟩, rfl⟩
    obtain rfl := List.mem_singleton.1 hc
    have hbytes : bytes = before.reverse ++ c :: after.reverse := by
      rw [← List.reverse_reverse bytes, hrev]
      simp
    refine ⟨before.reverse, after.reverse, hbytes, ?_, fun hmem => ?_⟩
    · rw [hbytes]
      simp only [List.length_append, List.length_cons, List.length_reverse]
      omega
    · exact hnot c (List.mem_reverse.1 hmem) (List.mem_singleton_self c)

theorem exists_lastAt (h : b ∈ bytes) : ∃ i, LastAt b bytes i := by
  obtain ⟨after, before, hrev, hnot⟩ := List.eq_append_cons_of_mem (List.mem_reverse.2 h)
  exact ⟨_, lastAt_iff.2 ⟨_, ⟨after, b, before, hrev, rfl, List.mem_singleton_self b,
    fun c hc hcb => hnot (List.mem_singleton.1 hcb ▸ hc)⟩, rfl⟩⟩

end

namespace Search

/-- A search that looks at one byte after the other. -/
def linear : Search where
  first wanted bytes := bytes.findIdx? (· ∈ wanted)
  last b bytes := (bytes.reverse.findIdx? (· ∈ [b])).map (bytes.length - · - 1)
  count b bytes := bytes.count b
  first_iff _ _ _ := findIdx?_iff
  last_iff b bytes i := by
    simp only [Option.map_eq_some_iff, findIdx?_iff, lastAt_iff]
  count_eq _ _ := rfl

variable (find : Search) {wanted bytes : List UInt8} {i : Nat}

theorem first_eq (wanted bytes : List UInt8) :
    find.first wanted bytes = bytes.findIdx? (· ∈ wanted) :=
  Option.ext fun i => (find.first_iff wanted bytes i).trans findIdx?_iff.symm

variable {find}

theorem first_lt (h : find.first wanted bytes = some i) : i < bytes.length := by
  obtain ⟨before, b, after, rfl, rfl, -, -⟩ := (find.first_iff ..).1 h
  simp

theorem first_pos {b : UInt8} (h : find.first wanted (b :: bytes) = some i) (hb : b ∉ wanted) :
    0 < i := by
  obtain ⟨before, c, after, hbytes, rfl, hc, -⟩ := (find.first_iff ..).1 h
  cases before with
  | nil => exact absurd ((List.cons.inj hbytes).1 ▸ hc) hb
  | cons => exact Nat.zero_lt_succ _

theorem notMem_of_last (b : UInt8) (h : find.last b bytes = none) : b ∉ bytes := by
  intro hmem
  obtain ⟨i, hi⟩ := exists_lastAt hmem
  exact absurd ((find.last_iff b bytes i).2 hi) (by simp [h])

end Search

/-! ### The reader that jumps -/

namespace Search

open Scanner

variable (find : Search)

/-- Passes `len` bytes at once: their line feeds are counted, and the column counts from the last
of these. -/
def skip (s : Scanner) (len : Nat) : Scanner :=
  let passed := s.rest.take len
  match find.last lineFeed passed with
  | some last => ⟨s.rest.drop len, s.offset + len, s.line + find.count lineFeed passed,
      1 + (len - last - 1)⟩
  | none => ⟨s.rest.drop len, s.offset + len, s.line, s.col + len⟩

@[simp] theorem rest_skip (s : Scanner) (len : Nat) : (find.skip s len).rest = s.rest.drop len := by
  unfold skip
  dsimp only
  split <;> rfl

/-- Passes a line comment, up to a line feed or to the end. -/
def lineComment (s : Scanner) : Scanner :=
  find.skip s ((find.first [lineFeed] s.rest).getD s.rest.length)

/-- Passes what is left of `depth` block comments, from one star or slash to the next. -/
def closeComment : (depth : Nat) → (s : Scanner) → Except Scanner Scanner
  | 0, s => .ok s
  | depth + 1, s =>
    match _h : find.first [star, slash] s.rest with
    | none => .error (find.skip s s.rest.length)
    | some jump =>
      let t := find.skip s jump
      if t.peek = some star ∧ t.peekSecond = some slash then closeComment depth (find.skip t 2)
      else if t.peek = some slash ∧ t.peekSecond = some star then
        closeComment (depth + 2) (find.skip t 2)
      else closeComment (depth + 1) t.bump
termination_by _ s => s.rest.length
decreasing_by
  all_goals
    have := first_lt _h
    simp only [rest_skip, rest_bump, List.length_tail, List.length_drop]
    omega

/-- Passes a block comment, of which the first two bytes open it. -/
def blockComment (s : Scanner) : Except Scanner Scanner := find.closeComment 1 (find.skip s 2)

theorem length_lineComment_lt {s : Scanner} {b : UInt8} (h : s.peek = some b)
    (hb : b ≠ lineFeed) : (find.lineComment s).rest.length < s.rest.length := by
  obtain ⟨after, hs⟩ := peek_eq_some h
  have hpos : 0 < (find.first [lineFeed] s.rest).getD s.rest.length := by
    cases hfirst : find.first [lineFeed] s.rest with
    | none => simp [hs]
    | some i => exact first_pos (hs ▸ hfirst) (by simpa using hb)
  rw [lineComment, rest_skip, List.length_drop]
  rw [hs, List.length_cons] at hpos ⊢
  omega

theorem length_closeComment_le {depth : Nat} {s t : Scanner}
    (h : find.closeComment depth s = .ok t) : t.rest.length ≤ s.rest.length := by
  fun_induction find.closeComment depth s with
  | case1 => exact (Except.ok.inj h) ▸ Nat.le_refl _
  | case2 => cases h
  | case3 depth s jump hjump u _ ih | case4 depth s jump hjump u _ _ ih =>
    refine (ih h).trans ?_
    simp only [u, rest_skip, List.length_drop]
    omega
  | case5 depth s jump hjump u _ _ ih =>
    refine (ih h).trans ((length_bump_le u).trans ?_)
    simp only [u, rest_skip, List.length_drop]
    omega

/-- Passes blanks and comments. -/
def skipTrivia (s : Scanner) : Trivia :=
  match _h : s.peek with
  | none => .passed s
  | some b =>
    if _hb : b ∈ [32, 9, 13, lineFeed] then skipTrivia s.bump
    else if b = slash ∧ s.peekSecond = some slash then skipTrivia (find.lineComment s)
    else if b = slash ∧ s.peekSecond = some star then
      match _hc : find.blockComment s with
      | .ok t => skipTrivia t
      | .error stop => .unterminated s stop
    else .passed s
termination_by s.rest.length
decreasing_by
  · exact length_bump_lt _h
  · exact find.length_lineComment_lt _h fun hfeed => _hb (by simp [hfeed])
  · obtain ⟨after, hs⟩ := peek_eq_some _h
    have := find.length_closeComment_le _hc
    rw [rest_skip, List.length_drop] at this
    rw [hs, List.length_cons] at this ⊢
    omega

/-- Passes the character behind a backslash, if there is one. -/
def escaped (s : Scanner) : Scanner := if s.peek.isSome then Bytewise.character s else s

theorem length_escaped_le (s : Scanner) : (escaped s).rest.length ≤ s.rest.length := by
  unfold escaped
  split
  · exact Bytewise.length_character_le s
  · exact Nat.le_refl _

/-- Passes the rest of a string literal, from one quotation mark or backslash to the next. -/
def closeString (s : Scanner) : Except Scanner Scanner :=
  match _h : find.first [quotationMark, backslash] s.rest with
  | none => .error (find.skip s s.rest.length)
  | some jump =>
    let t := find.skip s jump
    if t.peek = some quotationMark then .ok t.bump
    else closeString (escaped t.bump)
termination_by s.rest.length
decreasing_by
  have := first_lt _h
  have := length_escaped_le t.bump
  simp only [t, rest_bump, rest_skip, List.length_tail, List.length_drop] at this ⊢
  omega

def string (start s : Scanner) : Token × Scanner :=
  Bytewise.stringToken start (find.closeString s)

end Search

/-! ### Jumps and single bytes -/

namespace Search

open Scanner

variable (find : Search) {s : Scanner} {wanted : List UInt8} {i : Nat}

theorem skip_eq (s : Scanner) {len : Nat} (h : len ≤ s.rest.length) :
    find.skip s len = s.skip len := by
  have hlen : (s.rest.take len).length = len := List.length_take_of_le h
  unfold skip Scanner.skip
  dsimp only
  rw [find.count_eq, hlen]
  cases hlast : find.last lineFeed (s.rest.take len) with
  | none =>
    have hnot := notMem_of_last lineFeed hlast
    rw [List.count_eq_zero.2 hnot, if_pos rfl, Nat.add_zero]
  | some last =>
    obtain ⟨before, after, htake, rfl, hnot⟩ := (find.last_iff ..).1 hlast
    have hafter : ∀ b ∈ after.reverse, (b != lineFeed) = true := by
      intro b hb
      exact bne_iff_ne.2 fun he => hnot (he ▸ List.mem_reverse.1 hb)
    -- The bytes behind the last line feed are those in front of the first one from behind.
    have hcol : ((s.rest.take len).reverse.takeWhile (· != lineFeed)).length =
        len - before.length - 1 := by
      have hafterFeed : after.length = len - before.length - 1 := by
        rw [htake, List.length_append, List.length_cons] at hlen
        omega
      rw [htake, List.reverse_append, List.reverse_cons, List.append_assoc,
        List.takeWhile_append_of_pos hafter]
      simpa using hafterFeed
    have hcount : (s.rest.take len).count lineFeed ≠ 0 := by
      simp [htake]
    rw [if_neg hcount, hcol]

theorem skipTo?_of_some (h : find.first wanted s.rest = some i) :
    s.skipTo? (· ∈ wanted) = some (find.skip s i) := by
  rw [find.skip_eq s (first_lt h).le, skipTo?, ← find.first_eq, h]
  rfl

theorem skipTo?_of_none (h : find.first wanted s.rest = none) : s.skipTo? (· ∈ wanted) = none := by
  rw [skipTo?, ← find.first_eq, h]
  rfl

theorem skip_all (s : Scanner) : find.skip s s.rest.length = s.skipAll :=
  find.skip_eq s (Nat.le_refl _)

theorem skip_two (h : 2 ≤ s.rest.length) : find.skip s 2 = s.bump.bump :=
  (find.skip_eq s h).trans s.skip_two

theorem lineComment_eq (s : Scanner) : find.lineComment s = s.eatWhile (· != lineFeed) := by
  have hlen : (find.first [lineFeed] s.rest).getD s.rest.length =
      (s.rest.takeWhile (· != lineFeed)).length := by
    rw [find.first_eq]
    generalize s.rest = bytes
    induction bytes with
    | nil => rfl
    | cons b bytes ih =>
      rw [List.findIdx?_cons, List.takeWhile_cons]
      by_cases hb : b = lineFeed
      · simp [hb]
      · simp [hb, ← ih]
  rw [lineComment, hlen, find.skip_eq s (List.takeWhile_sublist _).length_le, eatWhile]

theorem closeComment_eq (depth : Nat) (s : Scanner) :
    find.closeComment depth s = Bytewise.closeComment depth s := by
  fun_induction find.closeComment depth s with
  | case1 s => rw [Bytewise.closeComment]
  | case2 depth s hnone =>
    rw [Bytewise.closeComment_never (find.skipTo?_of_none hnone), find.skip_all]
  | case3 depth s jump hjump t hclose ih =>
    rw [Bytewise.closeComment_seek (find.skipTo?_of_some hjump),
      Bytewise.closeComment_close hclose.1 hclose.2, ih,
      find.skip_two (two_le_of_peekSecond hclose.2)]
  | case4 depth s jump hjump t hclose hopen ih =>
    rw [Bytewise.closeComment_seek (find.skipTo?_of_some hjump),
      Bytewise.closeComment_open hopen.1 hopen.2, ih,
      find.skip_two (two_le_of_peekSecond hopen.2)]
  | case5 depth s jump hjump t hclose hopen ih =>
    obtain ⟨b, hb, -⟩ := peek_skipTo? (find.skipTo?_of_some hjump)
    rw [Bytewise.closeComment_seek (find.skipTo?_of_some hjump),
      Bytewise.closeComment_byte hb hclose hopen, ih]

theorem escaped_eq (s : Scanner) : escaped s = Bytewise.character s := by
  unfold escaped
  split
  next => rfl
  next h => rw [Bytewise.character_end (by simpa using h)]

theorem closeString_eq (s : Scanner) : find.closeString s = Bytewise.closeString s := by
  fun_induction find.closeString s with
  | case1 s hnone =>
    rw [Bytewise.closeString_never (find.skipTo?_of_none hnone), find.skip_all]
  | case2 s jump hjump t hquote =>
    rw [Bytewise.closeString_seek (find.skipTo?_of_some hjump), Bytewise.closeString_quote hquote]
  | case3 s jump hjump t hquote ih =>
    obtain ⟨b, hb, hstop⟩ := peek_skipTo? (find.skipTo?_of_some hjump)
    -- The jump ends at a quotation mark or a backslash, and it is not the former.
    have hescape : t.peek = some backslash := by
      rcases List.mem_cons.1 (of_decide_eq_true hstop) with rfl | hstop
      · exact absurd hb hquote
      · exact List.mem_singleton.1 hstop ▸ hb
    rw [Bytewise.closeString_seek (find.skipTo?_of_some hjump),
      Bytewise.closeString_escape hescape, ih, escaped_eq]

theorem string_eq (start s : Scanner) : find.string start s = Bytewise.string start s := by
  rw [string, closeString_eq, Bytewise.string]

theorem blockComment_eq (h : 2 ≤ s.rest.length) :
    find.blockComment s = Bytewise.blockComment s := by
  rw [blockComment, closeComment_eq, find.skip_two h, Bytewise.blockComment]

theorem skipTrivia_eq (s : Scanner) : find.skipTrivia s = Bytewise.skipTrivia s := by
  fun_induction find.skipTrivia s with
  | case1 s hnone => rw [Bytewise.skipTrivia_end hnone]
  | case2 s b hb hblank ih => rw [Bytewise.skipTrivia_blank hb hblank, ih]
  | case3 s b hb hblank hline ih =>
    rw [hline.1] at hb
    -- Neither of the slashes is a line feed: the search passes them with what follows.
    have hpass : find.lineComment s = Bytewise.passWhile (· != lineFeed) s.bump.bump := by
      rw [lineComment_eq, ← passWhile_eq, Bytewise.passWhile_of_peek hb (by decide),
        Bytewise.passWhile_of_peek (s.peek_bump.trans hline.2) (by decide)]
    rw [Bytewise.skipTrivia_line hb hline.2, ih, hpass]
  | case4 s b hb hblank hline hblock t ht ih =>
    rw [hblock.1] at hb
    rw [find.blockComment_eq (two_le_of_peekSecond hblock.2)] at ht
    rw [Bytewise.skipTrivia_block hb hblock.2, ht, ih]
  | case5 s b hb hblank hline hblock stop hstop =>
    rw [find.blockComment_eq (two_le_of_peekSecond hblock.2)] at hstop
    rw [hblock.1] at hb
    rw [Bytewise.skipTrivia_block hb hblock.2, hstop]
  | case6 s b hb hblank hline hblock =>
    rw [Bytewise.skipTrivia_of_peek hb, if_neg hblank, if_neg hline, if_neg hblock]

end Search

end FrontEnd
