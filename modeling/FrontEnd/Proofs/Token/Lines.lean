import FrontEnd.Proofs.Token.Places
import FrontEnd.Source.Lines
import Mathlib.Data.List.Induction
import Mathlib.Data.List.TakeWhile

/-!
Tokens stand where the table of lines says. The scanner counts lines and columns as it goes, by
single bytes and by many at once; the table is searched for an offset.
-/

namespace FrontEnd

/-- Bytes since the last line feed, or since the start. -/
def sinceFeed (bytes : List UInt8) : Nat := (bytes.reverse.takeWhile (· != lineFeed)).length

theorem sinceFeed_concat (bytes : List UInt8) (b : UInt8) :
    sinceFeed (bytes ++ [b]) = if b = lineFeed then 0 else sinceFeed bytes + 1 := by
  by_cases hb : b = lineFeed <;> simp [sinceFeed, hb]

theorem sinceFeed_of_notMem {bytes : List UInt8} (h : lineFeed ∉ bytes) :
    sinceFeed bytes = bytes.length := by
  have hall : ∀ b ∈ bytes.reverse, (b != lineFeed) = true := by
    intro b hb
    have hne : b ≠ lineFeed := fun he => h (he ▸ List.mem_reverse.1 hb)
    simpa using hne
  rw [sinceFeed, List.takeWhile_eq_self_iff.2 hall, List.length_reverse]

/-- Line and column of an offset: the line feeds in front of it, and the bytes since the last of
these, both from 1. -/
def positionIn (bytes : List UInt8) (offset : Nat) : Nat × Nat :=
  (1 + (bytes.take offset).count lineFeed, 1 + sinceFeed (bytes.take offset))

namespace Lines

variable {bytes more : List UInt8} {o offset x : Nat}

theorem startsAfter_append (o : Nat) (bytes more : List UInt8) :
    startsAfter o (bytes ++ more) = startsAfter o bytes ++ startsAfter (o + bytes.length) more := by
  induction bytes generalizing o with
  | nil => rfl
  | cons b bytes ih =>
    have hlen : o + (b :: bytes).length = o + 1 + bytes.length := by
      rw [List.length_cons]
      omega
    simp only [List.cons_append, startsAfter, ih, hlen]
    split <;> rfl

theorem mem_startsAfter (h : x ∈ startsAfter o bytes) : o < x ∧ x ≤ o + bytes.length := by
  induction bytes generalizing o with
  | nil => cases h
  | cons b bytes ih =>
    have hrest (h : x ∈ startsAfter (o + 1) bytes) : o < x ∧ x ≤ o + (b :: bytes).length := by
      obtain ⟨hlt, hle⟩ := ih h
      rw [List.length_cons]
      omega
    rw [startsAfter] at h
    split at h
    · rcases List.mem_cons.1 h with rfl | h
      · exact ⟨Nat.lt_succ_self o, by simp⟩
      · exact hrest h
    · exact hrest h

theorem length_startsAfter (o : Nat) (bytes : List UInt8) :
    (startsAfter o bytes).length = bytes.count lineFeed := by
  induction bytes generalizing o with
  | nil => rfl
  | cons b bytes ih =>
    rw [startsAfter, List.count_cons]
    split
    next hb =>
      subst hb
      simp [ih, lineFeed]
    next hb => simpa [lineFeed, hb] using ih (o + 1)

/-- The last line starts so many bytes before the end as stand behind the last line feed. -/
theorem getLast?_startsAfter (o : Nat) (bytes : List UInt8) :
    sinceFeed bytes ≤ bytes.length ∧
      (o :: startsAfter o bytes).getLast? = some (o + bytes.length - sinceFeed bytes) := by
  induction bytes using List.reverseRecOn with
  | nil => exact ⟨Nat.le_refl _, rfl⟩
  | append_singleton bytes b ih =>
    obtain ⟨hle, hlast⟩ := ih
    rw [startsAfter_append, sinceFeed_concat, List.length_append, List.length_singleton]
    by_cases hb : b = lineFeed
    · subst hb
      refine ⟨Nat.zero_le _, ?_⟩
      rw [if_pos rfl, ← List.cons_append, startsAfter, if_pos (by rfl), startsAfter,
        List.getLast?_append]
      rfl
    · refine ⟨by rw [if_neg hb]; omega, ?_⟩
      rw [if_neg hb, startsAfter, if_neg (show ¬b = 10 from hb), startsAfter, List.append_nil,
        hlast]
      congr 1
      omega

/-- The lines that start at an offset or before it are those in the bytes up to there. -/
theorem takeWhile_startsAfter (h : offset ≤ bytes.length) :
    (startsAfter 0 bytes).takeWhile (· ≤ offset) = startsAfter 0 (bytes.take offset) := by
  have hbefore : ∀ x ∈ startsAfter 0 (bytes.take offset), decide (x ≤ offset) = true := by
    intro x hx
    have := (mem_startsAfter hx).2
    rw [List.length_take] at this
    exact decide_eq_true (by omega)
  have hafter : (startsAfter (0 + (bytes.take offset).length) (bytes.drop offset)).takeWhile
      (· ≤ offset) = [] := by
    cases hstarts : startsAfter (0 + (bytes.take offset).length) (bytes.drop offset) with
    | nil => rfl
    | cons x rest =>
      have hx := (mem_startsAfter (hstarts ▸ List.mem_cons_self)).1
      rw [List.length_take] at hx
      rw [List.takeWhile_cons, if_neg (by rw [decide_eq_true_eq]; omega)]
  conv_lhs => rw [← List.take_append_drop offset bytes]
  rw [startsAfter_append, List.takeWhile_append_of_pos hbefore, hafter, List.append_nil]

/-- The table of lines counts line feeds, and bytes since the last of them. -/
theorem position_ofBytes (h : offset ≤ bytes.length) :
    (ofBytes bytes).position offset = positionIn bytes offset := by
  have hlen : (bytes.take offset).length = offset := List.length_take_of_le h
  obtain ⟨hle, hlast⟩ := getLast?_startsAfter 0 (bytes.take offset)
  simp only [position, ofBytes, List.takeWhile_cons, decide_eq_true (Nat.zero_le offset), if_true,
    takeWhile_startsAfter h, hlast, Option.getD_some, List.length_cons, length_startsAfter,
    positionIn, Prod.mk.injEq]
  omega

end Lines

namespace Scanner

variable {s : Scanner} {bytes : List UInt8} {k : Nat}

/-- A scanner that has passed some bytes has counted their line feeds. -/
theorem position_skip (bytes : List UInt8) (k : Nat) :
    (((ofBytes bytes).skip k).line, ((ofBytes bytes).skip k).col) = positionIn bytes k := by
  change (1 + (bytes.take k).count lineFeed, if (bytes.take k).count lineFeed = 0
    then 1 + (bytes.take k).length else 1 + sinceFeed (bytes.take k)) = _
  by_cases hnone : (bytes.take k).count lineFeed = 0
  · rw [if_pos hnone, positionIn, sinceFeed_of_notMem (List.count_eq_zero.1 hnone)]
  · rw [if_neg hnone, positionIn]

/-- The next token stands where it starts. -/
theorem exists_start (s : Scanner) : ∃ start, s.Passes start ∧ s.next.1.place = start.place ∧
    s.next.1.span.start = min start.offset maxOffset := by
  have hpasses := passes_skipTrivia s
  cases ht : s.skipTrivia with
  | passed t =>
    rw [ht] at hpasses
    rw [next_of_passed ht]
    exact ⟨t, hpasses, place_lexeme t, by rw [span_lexeme]; rfl⟩
  | unterminated start stop =>
    rw [ht] at hpasses
    rw [next_of_unterminated ht]
    exact ⟨start, hpasses.1, rfl, rfl⟩

/-- A token that is found in some bytes starts in them, and stands where it starts. -/
theorem position_next (hsize : bytes.length ≤ maxOffset) (h : (ofBytes bytes).Passes s) :
    s.next.1.span.start ≤ bytes.length ∧
      (s.next.1.line, s.next.1.col) = positionIn bytes s.next.1.span.start := by
  obtain ⟨start, hstart, hplace, hspan⟩ := s.exists_start
  obtain ⟨k, hk, rfl⟩ := h.trans hstart
  have hk : k ≤ bytes.length := hk
  have hoffset : ((ofBytes bytes).skip k).offset = k := by
    change 0 + (bytes.take k).length = k
    rw [Nat.zero_add, List.length_take_of_le hk]
  rw [hoffset, Nat.min_eq_left (hk.trans hsize)] at hspan
  obtain ⟨hline, hcol⟩ := Prod.mk.inj (toLex.injective hplace)
  rw [hspan, ← position_skip, hline, hcol]
  exact ⟨hk, rfl⟩

/-- Every token of some bytes is the next one at some point in them. -/
theorem exists_of_mem_tokens {t : Token} (h : t ∈ s.tokens.map Prod.fst) :
    ∃ u, s.Passes u ∧ t = u.next.1 := by
  fun_induction tokens s with
  | case1 s first u hnext ih =>
    have hpass := (finds_next s).passes
    rw [hnext] at hpass
    rcases List.mem_cons.1 h with rfl | h
    · exact ⟨s, .refl s, by rw [hnext]⟩
    · split at h
      next => cases h
      next hk =>
        obtain ⟨v, hv, ht⟩ := ih hk h
        exact ⟨v, hpass.trans hv, ht⟩

end Scanner

theorem length_bytes (text : String) : text.toUTF8.data.toList.length = text.utf8ByteSize := by
  rw [Array.length_toList]
  rfl

theorem position_of_mem_tokenize {text : String} (h : text.utf8ByteSize ≤ maxOffset) :
    ∀ t ∈ tokenize text, t.span.start ≤ text.utf8ByteSize ∧
      (t.line, t.col) = positionIn text.toUTF8.data.toList t.span.start := by
  rw [← length_bytes] at h ⊢
  intro t ht
  obtain ⟨s, hs, rfl⟩ := Scanner.exists_of_mem_tokens ht
  exact Scanner.position_next h hs

/-- The token stands where the table of lines says that it starts. -/
def Token.Placed (lines : Lines) (t : Token) : Prop :=
  lines.position t.span.start = (t.line, t.col)

namespace Window

variable {w : Window} {lines : Lines} {text : String}

/-- All tokens from here on stand where they start. -/
def Placed (lines : Lines) (w : Window) : Prop := ∀ n, (w.drop n).current.Placed lines

theorem Placed.current (h : w.Placed lines) : w.current.Placed lines := h 0

theorem Placed.drop (h : w.Placed lines) (n : Nat) : (w.drop n).Placed lines := by
  intro m
  rw [drop_drop]
  exact h (n + m)

theorem Placed.take (h : w.Placed lines) (n : Nat) : ∀ t ∈ w.take n, t.Placed lines := by
  induction n generalizing w with
  | zero => exact List.forall_mem_nil _
  | succ n ih => exact List.forall_mem_cons.2 ⟨h.current, ih (h.drop 1)⟩

theorem Placed.errors (h : w.Placed lines) (n : Nat) : ∀ t ∈ w.errors n, t.Placed lines :=
  fun t ht => h.take n t (List.mem_filter.1 ht).1

theorem placed_ofText (h : text.utf8ByteSize ≤ maxOffset) :
    (ofText text).Placed (Lines.ofText text) := by
  rw [← length_bytes] at h
  intro n
  obtain ⟨-, s, hs, hcurrent, -⟩ := (reads_ofText text).drop n
  obtain ⟨hle, hposition⟩ := Scanner.position_next h hs
  rw [hcurrent]
  exact (Lines.position_ofBytes hle).trans hposition.symm

end Window

end FrontEnd
