import FrontEnd.Proofs.Token.Position
import FrontEnd.Proofs.Types.BasicTypes
import Mathlib.Data.Prod.Lex

/-!
What identifiers look like. Offsets have 32 bits, so the text of a token behind offset `maxOffset`
is cut off or empty. Before it no identifier is a keyword.
-/

namespace FrontEnd

namespace Scanner

variable {s t u start stop : Scanner} {kind : TokenKind} {p : UInt8 → Bool}

/-- Line and column of the next byte, in reading order. -/
def place (s : Scanner) : Nat ×ₗ Nat := toLex (s.line, s.col)

theorem place_lt_of_line (h : s.line < t.line) : s.place < t.place :=
  Prod.Lex.toLex_lt_toLex.2 (.inl h)

theorem place_lt_of_col (hl : s.line = t.line) (hc : s.col < t.col) : s.place < t.place :=
  Prod.Lex.toLex_lt_toLex.2 (.inr ⟨hl, hc⟩)

theorem skip_of_take_nil {len : Nat} (h : s.rest.take len = []) : s.skip len = s := by
  have hrest : s.rest.drop len = s.rest := by
    rcases List.take_eq_nil_iff.1 h with rfl | h
    · rfl
    · rw [h, List.drop_nil]
  simp [skip, h, hrest]

theorem skip_zero (s : Scanner) : s.skip 0 = s := skip_of_take_nil List.take_zero

/-- Bytes that are passed in two steps are passed in one. -/
theorem skip_skip (s : Scanner) (i j : Nat) : (s.skip i).skip j = s.skip (i + j) := by
  unfold skip
  simp only [List.take_add, List.drop_drop, List.length_append, List.count_append,
    List.reverse_append, Nat.add_assoc, mk.injEq, true_and]
  generalize s.rest.take i = first
  generalize (s.rest.drop i).take j = second
  by_cases hs : lineFeed ∈ second
  · have hnot : (second.reverse.takeWhile (· != lineFeed)).length ≠ second.reverse.length := by
      intro heq
      have hself := (List.takeWhile_prefix _).eq_of_length heq
      have hall : second.reverse.all (· != lineFeed) = true := hself ▸ List.all_takeWhile
      exact absurd (List.all_eq_true.1 hall lineFeed (List.mem_reverse.2 hs)) (by decide)
    have hpos := List.count_pos_iff.2 hs
    rw [if_neg (by omega), if_neg (by omega), List.takeWhile_append, if_neg hnot]
  · have hall : ∀ b ∈ second.reverse, (b != lineFeed) = true := by
      intro b hb
      have hne : b ≠ lineFeed := fun he => hs (he ▸ List.mem_reverse.1 hb)
      simpa using hne
    rw [List.takeWhile_append_of_pos hall, List.count_eq_zero.2 hs]
    simp only [if_true, Nat.add_zero, List.length_append, List.length_reverse]
    split <;> omega

theorem bump_eq_skip (s : Scanner) : s.bump = s.skip 1 := by
  obtain ⟨rest, offset, line, col⟩ := s
  cases rest with
  | nil => rfl
  | cons b rest =>
    by_cases hb : b = lineFeed
    · subst hb
      rfl
    · simp [bump, skip, hb]

theorem skip_eq_skip_min (s : Scanner) (len : Nat) :
    s.skip len = s.skip (min len s.rest.length) := by
  rcases Nat.le_total len s.rest.length with h | h
  · rw [Nat.min_eq_left h]
  · rw [Nat.min_eq_right h, skip, skip, List.take_of_length_le h, List.take_length,
      List.drop_of_length_le h, List.drop_length]

/-- `t` stands some bytes behind `s`. -/
def Passes (s t : Scanner) : Prop := ∃ k ≤ s.rest.length, t = s.skip k

theorem Passes.refl (s : Scanner) : s.Passes s := ⟨0, Nat.zero_le _, s.skip_zero.symm⟩

theorem Passes.trans (h : s.Passes t) (h' : t.Passes u) : s.Passes u := by
  obtain ⟨i, hi, rfl⟩ := h
  obtain ⟨j, hj, rfl⟩ := h'
  rw [rest_skip, List.length_drop] at hj
  exact ⟨i + j, by omega, s.skip_skip i j⟩

theorem Passes.drops (h : s.Passes t) :
    ∃ k ≤ s.rest.length, t.rest = s.rest.drop k ∧ t.offset = s.offset + k := by
  obtain ⟨k, hk, rfl⟩ := h
  refine ⟨k, hk, rfl, ?_⟩
  rw [skip, List.length_take, Nat.min_eq_left hk]

theorem Passes.offset_le (h : s.Passes t) : s.offset ≤ t.offset := by
  obtain ⟨k, -, -, hoff⟩ := h.drops
  omega

/-- Nothing was passed, or the place is further on. -/
theorem place_skip (s : Scanner) (len : Nat) : s.skip len = s ∨ s.place < (s.skip len).place := by
  cases hpassed : s.rest.take len with
  | nil => exact .inl (skip_of_take_nil hpassed)
  | cons b passed =>
    refine .inr ?_
    by_cases hfeeds : (b :: passed).count lineFeed = 0
    · exact place_lt_of_col (by simp [skip, hpassed, hfeeds]) (by simp [skip, hpassed, hfeeds])
    · refine place_lt_of_line ?_
      simp only [skip, hpassed]
      omega

theorem Passes.place_le (h : s.Passes t) : s.place ≤ t.place := by
  obtain ⟨k, -, rfl⟩ := h
  rcases s.place_skip k with heq | hlt
  · rw [heq]
  · exact hlt.le

theorem Passes.place_lt (h : s.Passes t) (hlt : t.rest.length < s.rest.length) :
    s.place < t.place := by
  obtain ⟨k, -, rfl⟩ := h
  rcases s.place_skip k with heq | hplace
  · rw [heq] at hlt
    exact absurd hlt (Nat.lt_irrefl _)
  · exact hplace

theorem passes_skip (s : Scanner) (len : Nat) : s.Passes (s.skip len) :=
  ⟨min len s.rest.length, Nat.min_le_right .., s.skip_eq_skip_min len⟩

theorem passes_bump (s : Scanner) : s.Passes s.bump := s.bump_eq_skip ▸ passes_skip s 1

theorem passes_eatWhile (s : Scanner) (p : UInt8 → Bool) : s.Passes (s.eatWhile p) :=
  passes_skip ..

theorem passes_bumpChar (s : Scanner) : s.Passes s.bumpChar :=
  (passes_bump s).trans (passes_eatWhile ..)

theorem passes_skipTo? (h : s.skipTo? p = some t) : s.Passes t := by
  obtain ⟨len, -, rfl⟩ := Option.map_eq_some_iff.1 h
  exact passes_skip ..

/-- Both outcomes of a search for the end of something. -/
def Ends (s : Scanner) : Except Scanner Scanner → Prop
  | .ok t | .error t => s.Passes t

theorem Ends.after {r : Except Scanner Scanner} (h : s.Passes t) (h' : t.Ends r) : s.Ends r := by
  cases r <;> exact h.trans h'

theorem ends_closeComment (depth : Nat) (s : Scanner) : s.Ends (closeComment depth s) := by
  fun_induction closeComment depth s with
  | case1 => exact passes_skip ..
  | case2 depth s u hu => exact passes_skipTo? hu
  | case3 s u hu => exact (passes_skipTo? hu).trans (passes_skip ..)
  | case4 depth s u hu b after hb _ _ _ ih =>
    exact ih.after ((passes_skipTo? hu).trans (passes_skip ..))
  | case5 depth s u hu b after hb _ _ ih =>
    exact ih.after ((passes_skipTo? hu).trans (passes_skip ..))
  | case6 depth s u hu b after hb _ _ ih =>
    exact ih.after ((passes_skipTo? hu).trans (passes_bump _))

theorem ends_closeString (s : Scanner) : s.Ends s.closeString := by
  fun_induction closeString s with
  | case1 => exact passes_skip ..
  | case2 s u hu => exact passes_skipTo? hu
  | case3 s u hu => exact (passes_skipTo? hu).trans (passes_bump _)
  | case4 s u hu b after hb _ ih =>
    exact ih.after ((passes_skipTo? hu).trans ((passes_bump _).trans (passes_bumpChar _)))

/-! ### Tokens -/

/-- A token that was found behind `s`: where it stands, and what follows. -/
structure Finds (s : Scanner) (r : Token × Scanner) : Prop where
  passes : s.Passes r.2
  span : ∃ start : Scanner, s.Passes start ∧ start.Passes r.2 ∧
    r.1.span = Span.ofRange start.offset r.2.offset

theorem finds_make (h : start.Passes stop) (kind : TokenKind) :
    start.Finds (start.make stop kind) :=
  ⟨h, start, .refl _, h, rfl⟩

theorem finds_fail (h : start.Passes stop) (error : LexicalError) :
    start.Finds (start.fail stop error) :=
  ⟨h, start, .refl _, h, rfl⟩

theorem Finds.after {r : Token × Scanner} (h : s.Passes t) (h' : t.Finds r) : s.Finds r := by
  obtain ⟨hp, start, hs, he, hspan⟩ := h'
  exact ⟨h.trans hp, start, h.trans hs, he, hspan⟩

theorem finds_closeNumber (h : start.Passes s) (kind : TokenKind) :
    start.Finds (start.closeNumber s kind) := by
  unfold closeNumber
  split
  · exact finds_fail (h.trans (passes_eatWhile ..)) _
  · exact finds_make h _

theorem finds_number (h : start.Passes s) : start.Finds (start.number s) := by
  have hdigits := h.trans (passes_eatWhile s isDigit)
  have hfraction := hdigits.trans ((passes_bump _).trans (passes_eatWhile _ isDigit))
  unfold number
  dsimp only
  repeat' split
  all_goals
    first
    | exact finds_closeNumber hdigits _
    | exact finds_closeNumber hfraction _
    | exact finds_closeNumber (hdigits.trans (passes_bump _)) _
    | exact finds_closeNumber (hfraction.trans (passes_bump _)) _

theorem finds_charLiteral (h : start.Passes s) : start.Finds (start.charLiteral s) := by
  have hclose {t : Scanner} (ht : start.Passes t) : start.Finds (start.closeChar t) := by
    unfold closeChar
    split
    · exact finds_make (ht.trans (passes_bump _)) _
    · split
      · exact finds_fail (ht.trans (passes_skip ..)) _
      · exact finds_fail ht _
  have hchar := h.trans (passes_bumpChar s)
  have hbump := h.trans (passes_bump s)
  unfold charLiteral
  repeat' split
  all_goals
    first
    | exact finds_fail h _
    | exact finds_fail hbump _
    | exact hclose hchar
    | exact hclose (hbump.trans (passes_bumpChar _))

theorem finds_lexeme (s : Scanner) : s.Finds s.lexeme := by
  have hbump := passes_bump s
  unfold lexeme
  split
  · exact finds_make (.refl s) _
  · split
    · unfold operator
      split
      · exact finds_make (hbump.trans (passes_bump _)) _
      · exact finds_make hbump _
    · repeat' split
      · unfold dots
        split
        · exact finds_make (hbump.trans (passes_skip ..)) _
        · exact finds_make hbump _
      · have hends := Ends.after hbump (ends_closeString s.bump)
        unfold string
        split <;> rename_i hclose <;> rw [hclose] at hends
        · exact finds_make hends _
        · exact finds_fail hends _
      · exact finds_charLiteral hbump
      · exact finds_number hbump
      · unfold tag
        repeat' split
        · exact finds_make (hbump.trans (passes_bump _)) _
        · exact finds_make (hbump.trans (passes_eatWhile ..)) _
        · exact finds_fail hbump _
        · exact finds_fail hbump _
      · exact finds_make (hbump.trans (passes_eatWhile ..)) _
      · exact finds_fail (hbump.trans (passes_eatWhile ..)) _

/-- Blanks and comments are passed over. -/
theorem passes_skipTrivia (s : Scanner) : match s.skipTrivia with
    | .passed t => s.Passes t
    | .unterminated start stop => s.Passes start ∧ start.Passes stop := by
  fun_induction skipTrivia s with
  | case1 s => exact .refl s
  | case2 s b after hb _ ih =>
    have := passes_bump s
    split at ih
    · exact this.trans ih
    · exact ⟨this.trans ih.1, ih.2⟩
  | case3 s b after hb _ _ _ ih =>
    have := (passes_skip s 2).trans (passes_eatWhile _ (· != lineFeed))
    split at ih
    · exact this.trans ih
    · exact ⟨this.trans ih.1, ih.2⟩
  | case4 s b after hb _ _ _ t ht ih =>
    have hends := Ends.after (passes_skip s 2) (ends_closeComment 0 (s.skip 2))
    rw [ht] at hends
    have hends : s.Passes t := hends
    split at ih
    · exact hends.trans ih
    · exact ⟨hends.trans ih.1, ih.2⟩
  | case5 s b after hb _ _ _ stop hstop =>
    have hends := Ends.after (passes_skip s 2) (ends_closeComment 0 (s.skip 2))
    rw [hstop] at hends
    exact ⟨.refl s, hends⟩
  | case6 s => exact .refl s

theorem finds_next (s : Scanner) : s.Finds s.next := by
  have := passes_skipTrivia s
  unfold next
  split <;> rename_i heq <;> rw [heq] at this
  · exact (finds_lexeme _).after this
  · exact (finds_fail this.2 _).after this.1

/-! ### Identifiers -/

theorem operators_ne_ident {c : Char} {longer : List (Char × TokenKind)}
    (h : operators c = some (kind, longer)) : kind ≠ .ident ∧ ∀ p ∈ longer, p.2 ≠ .ident := by
  unfold operators at h
  split at h <;> simp only [Option.some.injEq, Prod.mk.injEq, reduceCtorEq] at h <;>
    (obtain ⟨rfl, rfl⟩ := h; decide)

theorem closeNumber_ne_ident (h : kind ≠ .ident) :
    (start.closeNumber s kind).1.kind ≠ .ident := by
  unfold closeNumber
  split
  · exact fun h => nomatch h
  · exact h

/-- Every identifier is a word. -/
theorem word_of_ident (h : s.lexeme.1.kind = .ident) : ∃ b rest, s.rest = b :: rest ∧
    startsName b = true ∧ s.lexeme = s.word s.bump := by
  have hne {kind : TokenKind} {stop : Scanner} (hk : kind ≠ .ident) :
      (s.make stop kind).1.kind ≠ .ident := hk
  have hfail (stop : Scanner) (error : LexicalError) : (s.fail stop error).1.kind ≠ .ident :=
    fun h => nomatch h
  unfold lexeme at h ⊢
  split at h
  · exact absurd h (hne (by decide))
  · rename_i b rest hrest
    simp only [hrest]
    split at h
    · rename_i alone longer ho
      obtain ⟨ha, hl⟩ := operators_ne_ident ho
      unfold operator at h
      split at h
      · rename_i kind hk
        obtain ⟨c, -, hc⟩ := Option.bind_eq_some_iff.1 hk
        obtain ⟨l, r, rfl, -⟩ := List.lookup_eq_some_iff.1 hc
        exact absurd h (hne (hl (byteChar c, kind) (by simp)))
      · exact absurd h (hne ha)
    · rename_i ho
      split at h
      · unfold dots at h
        split at h <;> exact absurd h (hne (by decide))
      · split at h
        · unfold string at h
          split at h
          · exact absurd h (hne (by decide))
          · exact absurd h (hfail _ _)
        · split at h
          · unfold charLiteral closeChar at h
            exfalso
            repeat' split at h
            all_goals first | exact hfail _ _ h | exact hne (by decide) h
          · split at h
            · unfold number at h
              exfalso
              dsimp only at h
              repeat' split at h
              all_goals exact closeNumber_ne_ident (by decide) h
            · split at h
              · unfold tag at h
                exfalso
                repeat' split at h
                all_goals first | exact hfail _ _ h | exact hne (by decide) h
              · split at h
                · rename_i hstarts
                  refine ⟨b, rest, rfl, hstarts, ?_⟩
                  simp [*]
                · exact absurd h (hfail _ _)

/-- The bytes of a word are those of a name, and tell its kind. -/
theorem ident_bytes (h : s.lexeme.1.kind = .ident) : ∃ bytes, bytes <+: s.rest ∧
    (∀ b ∈ bytes, continuesName b = true) ∧ TokenKind.ofWord bytes = .ident ∧
    s.lexeme.2.offset = s.offset + bytes.length ∧
    s.lexeme.1.span = Span.ofRange s.offset (s.offset + bytes.length) := by
  obtain ⟨b, rest, hrest, hstarts, hword⟩ := word_of_ident h
  have hbump : s.bump.offset = s.offset + 1 ∧ s.bump.rest = rest := by
    unfold bump
    simp only [hrest]
    split <;> exact ⟨rfl, rfl⟩
  have hlen : (rest.takeWhile continuesName).length ≤ rest.length :=
    (List.takeWhile_prefix _).length_le
  have htake : rest.take (rest.takeWhile continuesName).length = rest.takeWhile continuesName :=
    (List.prefix_iff_eq_take.1 (List.takeWhile_prefix _)).symm
  have hstop : (s.bump.eatWhile continuesName).offset =
      s.offset + (b :: rest.takeWhile continuesName).length := by
    simp only [eatWhile, skip, hbump, htake, List.length_cons]
    omega
  have hbytes : s.rest.take (s.offset + (b :: rest.takeWhile continuesName).length - s.offset) =
      b :: rest.takeWhile continuesName := by
    rw [Nat.add_sub_cancel_left, hrest, List.length_cons, List.take_succ_cons, htake]
  rw [hword] at h ⊢
  simp only [word, make, hstop, hbytes] at h ⊢
  refine ⟨_, ?_, fun c hc => ?_, h, rfl, rfl⟩
  · rw [hrest]
    exact List.prefix_cons_iff.2 (.inr ⟨_, rfl, List.takeWhile_prefix _⟩)
  · rcases List.mem_cons.1 hc with rfl | hc
    · unfold startsName at hstarts
      unfold continuesName
      cases hl : isLetter c <;> simp_all
    · exact (List.all_eq_true.1 List.all_takeWhile) c hc

end Scanner

/-! ### Texts of identifiers -/

/-- What lies under a span, byte by byte; nothing if that is no text. -/
theorem Span.slice_bytes (span : Span) (bytes : Array UInt8) :
    (span.slice bytes).toUTF8.data.toList =
      (bytes.toList.drop span.start).take (span.stop - span.start) ∨ span.slice bytes = "" := by
  unfold slice
  split
  · rename_i h
    cases hs : String.fromUTF8? ⟨bytes.extract span.start span.stop⟩ with
    | none => exact .inr rfl
    | some text =>
      refine .inl ?_
      have htext : text.toUTF8 = ⟨bytes.extract span.start span.stop⟩ := by
        unfold String.fromUTF8? at hs
        split at hs
        · cases hs
          rfl
        · cases hs
      rw [Option.getD_some, htext]
      simp [List.extract_eq_take_drop]
  · exact .inr rfl

namespace Window

variable {w : Window} {text : String} {n : Nat}

/-- The current token stands where offsets have no room left. -/
def Late (w : Window) : Prop := w.current.span.start = maxOffset ∧ w.current.span.stop = maxOffset

/-- Tokens that follow each other in a text. -/
structure Reads (text : String) (w : Window) : Prop where
  source : w.source = text.toUTF8.data
  first : ∃ s : Scanner, (Scanner.ofBytes text.toUTF8.data.toList).Passes s ∧
    w.current = s.next.1 ∧ w.next = s.next.2.next.1 ∧ w.scanner = s.next.2.next.2

theorem reads_ofText (text : String) : (ofText text).Reads text :=
  ⟨rfl, _, .refl _, rfl, rfl, rfl⟩

theorem Reads.bump (h : w.Reads text) : w.bump.Reads text := by
  obtain ⟨hs, s, hp, hc, hn, hr⟩ := h
  exact ⟨hs, s.next.2, hp.trans (Scanner.finds_next s).passes, hn, by rw [← hr]; rfl,
    by rw [← hr]; rfl⟩

theorem Reads.drop (h : w.Reads text) (n : Nat) : (w.drop n).Reads text := by
  induction n generalizing w with
  | zero => exact h
  | succ n ih => exact ih h.bump

theorem Late.lexeme (h : w.Late) : w.lexeme w.current = "" := by
  obtain ⟨hstart, hstop⟩ := h
  rcases Span.slice_bytes w.current.span w.source with hb | hb
  · rw [hstart, hstop, Nat.sub_self, List.take_zero] at hb
    have hempty : (w.current.span.slice w.source).toUTF8 = "".toUTF8 := by
      apply ByteArray.ext
      apply Array.toList_inj.1
      rw [hb]
      rfl
    exact String.toByteArray_inj.1 hempty
  · exact hb

/-- What follows a late token is late. -/
theorem Late.bump (h : w.Late) (hr : w.Reads text) : w.bump.Late := by
  obtain ⟨-, s, -, hc, hn, -⟩ := hr
  obtain ⟨-, start, -, hstop, hspan⟩ := Scanner.finds_next s
  obtain ⟨-, start', hstart', hstop', hspan'⟩ := Scanner.finds_next s.next.2
  have hlate := h.1
  rw [hc, hspan] at hlate
  have hfar : maxOffset ≤ start.offset := by
    have : min start.offset maxOffset = maxOffset := hlate
    omega
  have := hstop.offset_le
  have := hstart'.offset_le
  have := hstop'.offset_le
  have hbump : w.bump.current = s.next.2.next.1 := hn
  rw [Late, hbump, hspan']
  exact ⟨Nat.min_eq_right (by omega), Nat.min_eq_right (by omega)⟩

theorem Late.drop (h : w.Late) (hr : w.Reads text) (n : Nat) : (w.drop n).Late := by
  induction n generalizing w with
  | zero => exact h
  | succ n ih => exact ih (h.bump hr) hr.bump

/-- The text of an identifier is that of a name. It is no keyword, unless it is cut off, and then
the tokens behind it are late. -/
theorem Reads.ident (h : w.Reads text) (hk : w.current.kind = .ident) :
    (∀ b ∈ (w.lexeme w.current).toUTF8.data.toList, continuesName b = true) ∧
      (TokenKind.ofWord (w.lexeme w.current).toUTF8.data.toList = .ident ∨ w.bump.Late ∨
        w.lexeme w.current = "") := by
  obtain ⟨hsource, s, hp, hc, hn, -⟩ := h
  have htrivia := Scanner.passes_skipTrivia s
  have hnext : ∃ t, s.Passes t ∧ s.next = t.lexeme := by
    rw [hc] at hk
    unfold Scanner.next at hk ⊢
    split at hk <;> rename_i heq <;> rw [heq] at htrivia
    · exact ⟨_, htrivia, rfl⟩
    · cases hk
  obtain ⟨t, ht, hnext⟩ := hnext
  rw [hc, hnext] at hk
  obtain ⟨bytes, hprefix, hname, hword, hoffset, hspan⟩ := Scanner.ident_bytes hk
  obtain ⟨k, -, hrest, hoff⟩ := (hp.trans ht).drops
  simp only [Scanner.ofBytes, Nat.zero_add] at hrest hoff
  have hcurrent : w.current.span = Span.ofRange t.offset (t.offset + bytes.length) := by
    rw [hc, hnext, hspan]
  rcases Span.slice_bytes w.current.span w.source with hb | hb
  · have hcut : ((w.source.toList.drop w.current.span.start).take
        (w.current.span.stop - w.current.span.start)) =
        bytes.take (w.current.span.stop - w.current.span.start) := by
      rw [hcurrent, hsource]
      simp only [Span.ofRange]
      rcases Nat.le_total t.offset maxOffset with hle | hle
      · obtain ⟨tail, htail⟩ := hprefix
        rw [Nat.min_eq_left hle, hoff, ← hrest, ← htail, List.take_append_of_le_length]
        omega
      · rw [Nat.min_eq_right hle, Nat.min_eq_right (by omega)]
        simp
    have hlexeme : (w.lexeme w.current).toUTF8.data.toList =
        bytes.take (w.current.span.stop - w.current.span.start) := hb.trans hcut
    refine ⟨fun b hmem => hname b (List.mem_of_mem_take (hlexeme ▸ hmem)), ?_⟩
    rcases Nat.lt_or_ge maxOffset (t.offset + bytes.length) with hfar | hnear
    · refine .inr (.inl ?_)
      obtain ⟨-, start, hstart, hstop, hspan'⟩ := Scanner.finds_next s.next.2
      have hafter : s.next.2.offset = t.offset + bytes.length := by rw [hnext, hoffset]
      have := hstart.offset_le
      have := hstop.offset_le
      have hbump : w.bump.current = s.next.2.next.1 := hn
      rw [Late, hbump, hspan']
      exact ⟨Nat.min_eq_right (by omega), Nat.min_eq_right (by omega)⟩
    · refine .inl ?_
      have hall : bytes.take (w.current.span.stop - w.current.span.start) = bytes := by
        rw [hcurrent]
        simp only [Span.ofRange]
        rw [Nat.min_eq_left hnear, Nat.min_eq_left (by omega), Nat.add_sub_cancel_left,
          List.take_length]
      rw [hlexeme, hall]
      exact hword
  · have hempty : w.lexeme w.current = "" := hb
    rw [hempty]
    exact ⟨fun b hmem => absurd hmem (by simp), .inr (.inr rfl)⟩

/-- The text of an identifier is not qualified. -/
theorem Reads.not_qualified (h : w.Reads text) (hk : w.current.kind = .ident)
    (outer inner : String) : w.lexeme w.current ≠ outer ++ "::" ++ inner := by
  intro heq
  have hname := (h.ident hk).1 58 (by
    rw [heq]
    simp only [String.toUTF8_eq_toByteArray, String.toByteArray_append, ByteArray.data_append,
      Array.toList_append]
    exact List.mem_append_left _ (List.mem_append_right _ (by decide)))
  exact absurd hname (by decide)

/-- An identifier that reads like the name of the type of values is cut off. -/
theorem Reads.not_typeName (h : w.Reads text) (hk : w.current.kind = .ident) (k : ValueKind)
    (hlexeme : w.lexeme w.current = k.basic.text) : w.bump.Late := by
  have := (h.ident hk).2
  rw [hlexeme] at this
  rcases this with hword | hlate | hempty
  · exact absurd hword (by cases k <;> decide)
  · exact hlate
  · exact absurd hempty (by cases k <;> decide)

end Window

end FrontEnd
