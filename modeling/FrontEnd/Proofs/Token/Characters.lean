import FrontEnd.Proofs.Token.Identifiers

/-! Tokens start and end between two characters of the text. -/

namespace FrontEnd

/-- These bytes are characters, none of them cut. -/
def Whole (bytes : List UInt8) : Prop := ∃ cs : List Char, bytes = cs.flatMap String.utf8EncodeChar

/-- The text has a character that starts at this offset, or ends there. -/
def Boundary (text : String) (offset : Nat) : Prop :=
  ∃ before after : String, text = before ++ after ∧ before.utf8ByteSize = offset

theorem continuesChar_of_lt {b : UInt8} (h : b < 128) : continuesChar b = false := by
  rw [← UInt8.ofNat_toNat (x := b)]
  exact (by decide : ∀ k < 128, continuesChar (UInt8.ofNat k) = false) _ h

namespace Whole

variable {b : UInt8} {bytes more : List UInt8}

theorem nil : Whole [] := ⟨[], rfl⟩

theorem append (h : Whole bytes) (h' : Whole more) : Whole (bytes ++ more) := by
  obtain ⟨cs, rfl⟩ := h
  obtain ⟨ds, rfl⟩ := h'
  exact ⟨cs ++ ds, List.flatMap_append.symm⟩

theorem ofString (text : String) : Whole text.toUTF8.data.toList := by
  refine ⟨text.toList, ?_⟩
  rw [String.toUTF8_eq_toByteArray, ← String.utf8Encode_toList, List.utf8Encode,
    List.data_toByteArray]

/-- A character is one byte below 128, or some bytes that are not: the first of these does not
continue a character, the others do. -/
theorem encode_cases (c : Char) : (∃ b, String.utf8EncodeChar c = [b] ∧ b < 128) ∨
    ∃ b more, String.utf8EncodeChar c = b :: more ∧ 128 ≤ b ∧ continuesChar b = false ∧
      ∀ d ∈ more, continuesChar d = true := by
  have hnext (n : Nat) : continuesChar (UInt8.ofNat (n % 64 + 128)) = true :=
    (by decide : ∀ k < 64, continuesChar (UInt8.ofNat (k + 128)) = true) _
      (Nat.mod_lt _ (by decide))
  have hfirst : ∀ k < 56,
      128 ≤ UInt8.ofNat (k + 192) ∧ continuesChar (UInt8.ofNat (k + 192)) = false := by
    decide
  fun_cases String.utf8EncodeChar c with
  | case1 v hv =>
    refine .inl ⟨_, rfl, ?_⟩
    rw [UInt8.lt_iff_toNat_lt, UInt8.toNat_ofNat']
    exact Nat.lt_of_le_of_lt (Nat.mod_le ..) (Nat.lt_succ_of_le hv)
  | case2 v =>
    obtain ⟨hb, hc⟩ := hfirst (v / 64 % 32) (by omega)
    refine .inr ⟨_, _, rfl, hb, hc, ?_⟩
    simp only [List.mem_cons, List.not_mem_nil, or_false, forall_eq, hnext]
  | case3 v =>
    obtain ⟨hb, hc⟩ := hfirst (v / 4096 % 16 + 32) (by omega)
    refine .inr ⟨_, _, rfl, hb, hc, ?_⟩
    simp only [List.mem_cons, List.not_mem_nil, or_false, forall_eq_or_imp, forall_eq, hnext,
      and_self]
  | case4 v =>
    obtain ⟨hb, hc⟩ := hfirst (v / 262144 % 8 + 48) (by omega)
    refine .inr ⟨_, _, rfl, hb, hc, ?_⟩
    simp only [List.mem_cons, List.not_mem_nil, or_false, forall_eq_or_imp, forall_eq, hnext,
      and_self]

theorem head (h : Whole bytes) : ∀ b ∈ bytes.head?, continuesChar b = false := by
  obtain ⟨_ | ⟨c, cs⟩, rfl⟩ := h
  · nofun
  · rw [List.flatMap_cons]
    rcases encode_cases c with ⟨b, hb, hlt⟩ | ⟨b, more, hb, -, hfirst, -⟩ <;> rw [hb]
    · simpa using continuesChar_of_lt hlt
    · simpa using hfirst

/-- Nothing is cut off before a byte that does not continue a character. -/
theorem split (h : Whole (bytes ++ more)) (hb : ∀ b ∈ more.head?, continuesChar b = false) :
    Whole bytes ∧ Whole more := by
  obtain ⟨cs, hcs⟩ := h
  induction cs generalizing bytes with
  | nil =>
    obtain ⟨rfl, rfl⟩ := List.append_eq_nil_iff.1 hcs
    exact ⟨nil, nil⟩
  | cons c cs ih =>
    rw [List.flatMap_cons] at hcs
    have hc : Whole (String.utf8EncodeChar c) := ⟨[c], by simp⟩
    rcases List.append_eq_append_iff.1 hcs with ⟨inner, henc, hmore⟩ | ⟨rest, rfl, hrest⟩
    · cases inner with
      | nil =>
        rw [List.append_nil] at henc
        exact ⟨henc ▸ hc, cs, hmore⟩
      | cons d inner =>
        -- The first byte of `more` is one of the bytes of `c`, so it is the first of these.
        cases bytes with
        | nil => exact ⟨nil, c :: cs, by simpa using hcs⟩
        | cons a bytes =>
          have hd := hb d (by rw [hmore]; rfl)
          rcases encode_cases c with ⟨e, he, -⟩ | ⟨e, tail, he, -, -, htail⟩
          · rw [he] at henc
            simp at henc
          · rw [he] at henc
            have := htail d ((List.cons.inj henc).2 ▸ by simp)
            simp_all
    · obtain ⟨hw, hmore⟩ := ih hrest.symm
      exact ⟨hc.append hw, hmore⟩

theorem tail (h : Whole (b :: bytes)) (hb : b < 128) : Whole bytes := by
  obtain ⟨_ | ⟨c, cs⟩, hcs⟩ := h
  · cases hcs
  · rw [List.flatMap_cons] at hcs
    rcases encode_cases c with ⟨d, hd, -⟩ | ⟨d, tail, hd, hlarge, -⟩
    · rw [hd] at hcs
      exact ⟨cs, (List.cons.inj hcs).2⟩
    · rw [hd] at hcs
      obtain ⟨rfl, -⟩ := List.cons.inj hcs
      exact absurd hb (by simpa using hlarge)

theorem boundary {text : String} (h : text.toUTF8.data.toList = bytes ++ more) (hw : Whole bytes)
    (hm : Whole more) : Boundary text bytes.length := by
  have hstring {cs : List Char} :
      (String.ofList cs).toUTF8.data.toList = cs.flatMap String.utf8EncodeChar := by
    rw [String.toUTF8_eq_toByteArray, String.toByteArray_ofList, List.utf8Encode,
      List.data_toByteArray]
  obtain ⟨cs, rfl⟩ := hw
  obtain ⟨ds, rfl⟩ := hm
  refine ⟨String.ofList cs, String.ofList ds, ?_, ?_⟩
  · rw [← String.toByteArray_inj, String.toByteArray_append]
    refine ByteArray.ext (Array.toList_inj.1 ?_)
    rw [ByteArray.data_append, Array.toList_append]
    simpa only [← String.toUTF8_eq_toByteArray, hstring] using h
  · rw [← hstring]
    rfl

end Whole

theorem toNat_byteChar (b : UInt8) : (byteChar b).toNat = b.toNat := by
  have := b.toNat_lt
  rw [byteChar, Char.ofNat, dif_pos (.inl (by omega))]
  rfl

theorem lt_of_byteChar {b : UInt8} {c : Char} (h : byteChar b = c) (hc : c.toNat < 128) :
    b < 128 := by
  rw [← h, toNat_byteChar] at hc
  exact hc

namespace Scanner

variable {s t start : Scanner} {p : UInt8 → Bool}

/-- No character is cut here. -/
def Settled (s : Scanner) : Prop := Whole s.rest

theorem Passes.settled (hp : s.Passes t) (h : s.Settled)
    (hb : ∀ b ∈ t.peek, continuesChar b = false) : t.Settled := by
  obtain ⟨k, -, hrest, -⟩ := hp.drops
  rw [peek, hrest] at hb
  have hw : Whole (s.rest.take k ++ s.rest.drop k) := by rwa [List.take_append_drop]
  rw [Settled, hrest]
  exact (hw.split hb).2

theorem settled_bump (h : s.Settled) (hb : ∀ b ∈ s.peek, b < 128) : s.bump.Settled := by
  unfold Settled at h ⊢
  rw [rest_bump]
  unfold peek at hb
  cases hs : s.rest with
  | nil => exact .nil
  | cons b rest =>
    rw [hs] at h hb
    exact h.tail (hb b rfl)

theorem rest_eatWhile (s : Scanner) (p : UInt8 → Bool) :
    (s.eatWhile p).rest = s.rest.dropWhile p := by
  rw [eatWhile, rest_skip]
  calc s.rest.drop (s.rest.takeWhile p).length
      = (s.rest.takeWhile p ++ s.rest.dropWhile p).drop (s.rest.takeWhile p).length := by
        rw [List.takeWhile_append_dropWhile]
    _ = s.rest.dropWhile p := List.drop_left

theorem peek_eatWhile {b : UInt8} (hb : b ∈ (s.eatWhile p).peek) : p b = false := by
  have hnot := List.head?_dropWhile_not p s.rest
  rw [peek, rest_eatWhile] at hb
  rw [Option.mem_def.1 hb] at hnot
  exact hnot

theorem settled_bumpChar (h : s.Settled) : s.bumpChar.Settled :=
  (passes_bumpChar s).settled h fun _ => peek_eatWhile

/-- Passing over bytes below 128 cuts no character. -/
theorem settled_eatWhile (h : s.Settled) (hp : ∀ b, p b = true → b < 128) :
    (s.eatWhile p).Settled := by
  unfold Settled at h ⊢
  rw [rest_eatWhile]
  generalize s.rest = bytes at h
  induction bytes with
  | nil => exact h
  | cons b bytes ih =>
    rw [List.dropWhile_cons]
    split
    next hb => exact ih (h.tail (hp b hb))
    next => exact h

theorem peek_skipTo? (h : s.skipTo? p = some t) : ∃ b ∈ t.peek, p b = true := by
  obtain ⟨len, hlen, rfl⟩ := Option.map_eq_some_iff.1 h
  obtain ⟨hlt, hp, -⟩ := List.findIdx?_eq_some_iff_getElem.1 hlen
  refine ⟨s.rest[len], ?_, hp⟩
  simp [peek, List.head?_drop, hlt]

theorem settled_skipTo? (h : s.Settled) (ht : s.skipTo? p = some t)
    (hp : ∀ b, p b = true → b < 128) :
    t.Settled := by
  obtain ⟨b, hb, hpb⟩ := peek_skipTo? ht
  refine (passes_skipTo? ht).settled h fun d hd => continuesChar_of_lt ?_
  exact Option.some.inj (hb.symm.trans hd) ▸ hp b hpb

theorem settled_skipAll (s : Scanner) : s.skipAll.Settled := by
  rw [Settled, skipAll, rest_skip, List.drop_length]
  exact .nil

theorem settled_skip_two (h : s.Settled) (hb : ∀ b ∈ s.peek, b < 128)
    (hc : ∀ b ∈ s.peekSecond, b < 128) : (s.skip 2).Settled := by
  have htwo : (s.skip 2).rest = s.bump.bump.rest := by simp [← List.drop_one]
  have hsecond : s.bump.peek = s.peekSecond := by simp [peek, peekSecond]
  rw [Settled, htwo]
  exact settled_bump (settled_bump h hb) (hsecond ▸ hc)

/-- Both outcomes of a search for the end of something. -/
def Settles : Except Scanner Scanner → Prop
  | .ok t | .error t => t.Settled

theorem settles_closeComment (depth : Nat) (h : s.Settled) : Settles (closeComment depth s) := by
  have hseek {s u : Scanner} (hs : s.Settled)
      (hu : s.skipTo? (fun b => byteChar b == '*' || byteChar b == '/') = some u) : u.Settled := by
    refine settled_skipTo? hs hu fun b hb => ?_
    rcases Bool.or_eq_true_iff.1 hb with hb | hb
    · exact lt_of_byteChar (beq_iff_eq.1 hb) (by decide)
    · exact lt_of_byteChar (beq_iff_eq.1 hb) (by decide)
  have htwo {u : Scanner} {b : UInt8} {after : List UInt8} {c d : Char} (hu : u.Settled)
      (hrest : u.rest = b :: after) (hb : byteChar b = c) (hd : after.head?.map byteChar = some d)
      (hc : c.toNat < 128) (hd' : d.toNat < 128) : (u.skip 2).Settled := by
    refine settled_skip_two hu ?_ ?_
    · simpa [peek, hrest] using lt_of_byteChar hb hc
    · obtain ⟨e, he, hed⟩ := Option.map_eq_some_iff.1 hd
      simpa [peekSecond, hrest, he] using lt_of_byteChar hed hd'
  fun_induction closeComment depth s with
  | case1 => exact settled_skipAll _
  | case2 depth s u hu => exact hseek h hu
  | case3 s u hu b after hb h2 h1 => exact htwo (hseek h hu) hb h1 h2 (by decide) (by decide)
  | case4 depth s u hu b after hb h2 h1 _ ih =>
    exact ih (htwo (hseek h hu) hb h1 h2 (by decide) (by decide))
  | case5 depth s u hu b after hb h2 h1 ih =>
    exact ih (htwo (hseek h hu) hb h1 h2 (by decide) (by decide))
  | case6 depth s u hu b after hb _ _ ih =>
    obtain ⟨d, hd, hp⟩ := peek_skipTo? hu
    refine ih (settled_bump (hseek h hu) fun e he => ?_)
    obtain rfl := Option.some.inj (hd.symm.trans he)
    rcases Bool.or_eq_true_iff.1 hp with hp | hp
    · exact lt_of_byteChar (beq_iff_eq.1 hp) (by decide)
    · exact lt_of_byteChar (beq_iff_eq.1 hp) (by decide)

/-- Blanks and comments end between two characters. -/
theorem settled_skipTrivia (h : s.Settled) : match s.skipTrivia with
    | .passed t => t.Settled
    | .unterminated start stop => start.Settled ∧ stop.Settled := by
  have hpeek {s : Scanner} {b : UInt8} {after : List UInt8} {c : Char} (hb : s.rest = b :: after)
      (h1 : byteChar b = c) (hc : c.toNat < 128) : ∀ d ∈ s.peek, d < 128 := by
    simpa [peek, hb] using lt_of_byteChar h1 hc
  have hpeek' {s : Scanner} {b : UInt8} {after : List UInt8} {c : Char} (hb : s.rest = b :: after)
      (h2 : after.head?.map byteChar = some c) (hc : c.toNat < 128) :
          ∀ d ∈ s.peekSecond, d < 128 := by
    obtain ⟨d, hd, hdc⟩ := Option.map_eq_some_iff.1 h2
    simpa [peekSecond, hb, hd] using lt_of_byteChar hdc hc
  fun_induction skipTrivia s with
  | case1 => exact h
  | case2 s b after hb hblank ih =>
    refine ih (settled_bump h ?_)
    simp only [isBlank, Bool.or_eq_true, beq_iff_eq] at hblank
    simp only [peek, hb, List.head?_cons, Option.mem_def, Option.some.injEq, forall_eq']
    rcases hblank with ((rfl | rfl) | rfl) | rfl <;> decide
  | case3 s b after hb _ h2 h1 ih =>
    have htwo := settled_skip_two h (hpeek hb h1 (by decide)) (hpeek' hb h2 (by decide))
    refine ih ((passes_eatWhile ..).settled htwo fun d hd => ?_)
    have hd : d = lineFeed := by simpa using peek_eatWhile hd
    exact hd ▸ by decide
  | case4 s b after hb _ h2 h1 t ht ih =>
    have htwo := settled_skip_two h (hpeek hb h1 (by decide)) (hpeek' hb h2 (by decide))
    have hends := settles_closeComment 0 htwo
    rw [ht] at hends
    exact ih hends
  | case5 s b after hb _ h2 h1 stop hstop =>
    have htwo := settled_skip_two h (hpeek hb h1 (by decide)) (hpeek' hb h2 (by decide))
    have hends := settles_closeComment 0 htwo
    rw [hstop] at hends
    exact ⟨h, hends⟩
  | case6 => exact h

theorem settles_closeString (h : s.Settled) : Settles s.closeString := by
  have hseek {s u : Scanner} (hs : s.Settled)
      (hu : s.skipTo? (fun b => b == quotationMark || b == backslash) = some u) :
      u.Settled ∧ u.bump.Settled := by
    have hp (b : UInt8) (hb : (b == quotationMark || b == backslash) = true) : b < 128 := by
      rcases Bool.or_eq_true_iff.1 hb with hb | hb <;> exact beq_iff_eq.1 hb ▸ by decide
    have hset := settled_skipTo? hs hu hp
    obtain ⟨d, hd, hpd⟩ := peek_skipTo? hu
    exact ⟨hset, settled_bump hset fun e he => Option.some.inj (hd.symm.trans he) ▸ hp d hpd⟩
  fun_induction closeString s with
  | case1 => exact settled_skipAll _
  | case2 s u hu => exact (hseek h hu).1
  | case3 s u hu => exact (hseek h hu).2
  | case4 s u hu b after hb _ ih => exact ih (settled_bumpChar (hseek h hu).2)

/-! ### Tokens -/

theorem lt_of_isDigit {b : UInt8} (h : isDigit b = true) : b < 128 := by
  simp only [isDigit, Bool.and_eq_true, decide_eq_true_eq, UInt8.le_iff_toNat_le] at h
  have := h.2
  rw [UInt8.lt_iff_toNat_lt]
  exact Nat.lt_of_le_of_lt this (by decide)

theorem lt_of_continuesName {b : UInt8} (h : continuesName b = true) : b < 128 := by
  simp only [continuesName, isLetter, Bool.or_eq_true, Bool.and_eq_true, decide_eq_true_eq,
    beq_iff_eq] at h
  rcases h with ((⟨-, h⟩ | ⟨-, h⟩) | h) | rfl
  · exact UInt8.lt_of_le_of_lt h (by decide)
  · exact UInt8.lt_of_le_of_lt h (by decide)
  · exact lt_of_isDigit h
  · decide

theorem lt_of_operators {c : Char} {alone : TokenKind} {longer : List (Char × TokenKind)}
    (h : operators c = some (alone, longer)) : c.toNat < 128 ∧ ∀ p ∈ longer, p.1.toNat < 128 := by
  unfold operators at h
  split at h <;> simp only [Option.some.injEq, Prod.mk.injEq, reduceCtorEq] at h <;>
    (obtain ⟨-, rfl⟩ := h; decide)

theorem settled_operator {alone : TokenKind} {longer : List (Char × TokenKind)} (h : s.Settled)
    (hl : ∀ p ∈ longer, p.1.toNat < 128) : (start.operator s alone longer).2.Settled := by
  unfold operator
  split
  next kind hk =>
    obtain ⟨b, hb, hlook⟩ := Option.bind_eq_some_iff.1 hk
    obtain ⟨l, r, rfl, -⟩ := List.lookup_eq_some_iff.1 hlook
    refine settled_bump h fun d hd => ?_
    obtain rfl := Option.some.inj (hb.symm.trans hd)
    exact lt_of_byteChar rfl (hl (byteChar b, kind) (by simp))
  next => exact h

theorem lt_of_peek {c : Char} (h : s.peek.map byteChar = some c) (hc : c.toNat < 128) :
    ∀ b ∈ s.peek, b < 128 := by
  intro b hb
  rw [Option.mem_def.1 hb, Option.map_some, Option.some.injEq] at h
  exact lt_of_byteChar h hc

theorem settled_dots (h : s.Settled) : (start.dots s).2.Settled := by
  unfold dots
  split
  next hdots =>
    refine settled_skip_two h (lt_of_peek hdots.1 (by decide)) fun b hb => ?_
    have hc := hdots.2
    rw [Option.mem_def.1 hb, Option.map_some, Option.some.injEq] at hc
    exact lt_of_byteChar hc (by decide)
  next => exact h

theorem settled_closeNumber (h : s.Settled) (kind : TokenKind) :
    (start.closeNumber s kind).2.Settled := by
  unfold closeNumber
  split
  · exact settled_eatWhile h fun _ => lt_of_continuesName
  · exact h

theorem settled_number (h : s.Settled) : (start.number s).2.Settled := by
  have hdigits := settled_eatWhile h fun _ => lt_of_isDigit
  unfold number
  dsimp only
  split
  next hfraction =>
    have hdigits := settled_eatWhile (settled_bump hdigits (lt_of_peek hfraction.1 (by decide)))
      fun _ => lt_of_isDigit
    split
    all_goals
      first
      | exact settled_closeNumber (settled_bump hdigits (lt_of_peek ‹_› (by decide))) _
      | exact settled_closeNumber hdigits _
  next =>
    split
    all_goals
      first
      | exact settled_closeNumber (settled_bump hdigits (lt_of_peek ‹_› (by decide))) _
      | exact settled_closeNumber hdigits _

theorem settled_closeChar (h : s.Settled) : (start.closeChar s).2.Settled := by
  unfold closeChar
  split
  next hquote => exact settled_bump h fun b hb => Option.some.inj (hquote.symm.trans hb) ▸ by decide
  next =>
    split
    next close hclose =>
      obtain ⟨hlt, hquote, -⟩ := List.findIdx?_eq_some_iff_getElem.1 hclose
      have hpeek : (s.skip close).peek = some apostrophe := by
        have hline := List.takeWhile_prefix (p := (· != lineFeed)) (l := s.rest)
        have hlen := hline.length_le
        rw [hline.getElem, beq_iff_eq] at hquote
        rw [peek, rest_skip, List.head?_drop, List.getElem?_eq_getElem (by omega), hquote]
      have hset : (s.skip close).Settled := (passes_skip s close).settled h fun b hb =>
        Option.some.inj (hpeek.symm.trans hb) ▸ by decide
      have hrest : (s.skip (close + 1)).rest = (s.skip close).bump.rest := by simp
      rw [fail, Settled, hrest]
      exact settled_bump hset fun b hb => Option.some.inj (hpeek.symm.trans hb) ▸ by decide
    next => exact h

theorem settled_charLiteral (h : s.Settled) : (start.charLiteral s).2.Settled := by
  unfold charLiteral
  split
  next => exact h
  next b hb =>
    have hbump {c : UInt8} (hc : b = c) (hlt : c < 128) : s.bump.Settled :=
      settled_bump h fun d hd => Option.some.inj (hb.symm.trans hd) ▸ hc ▸ hlt
    split
    · exact h
    · split
      next hslash =>
        split
        · exact hbump hslash (by decide)
        · exact settled_closeChar (settled_bumpChar (hbump hslash (by decide)))
      next =>
        split
        next hquote => exact hbump hquote (by decide)
        next => exact settled_closeChar (settled_bumpChar h)

theorem settled_tag (h : s.Settled) : (start.tag s).2.Settled := by
  unfold tag
  split
  next b hb =>
    split
    next hbang => exact settled_bump h (lt_of_peek (by rw [hb, Option.map_some, hbang]) (by decide))
    next =>
      split
      · exact settled_eatWhile h fun _ => lt_of_continuesName
      · exact h
  next => exact h

theorem settled_lexeme (h : s.Settled) : s.lexeme.2.Settled := by
  unfold lexeme
  split
  next => exact h
  next b after hb =>
    have hbump {c : Char} (hc : byteChar b = c) (hlt : c.toNat < 128) : s.bump.Settled :=
      settled_bump h (lt_of_peek (by rw [peek, hb, List.head?_cons, Option.map_some, hc]) hlt)
    have hbump' (hlt : b < 128) : s.bump.Settled := hbump rfl (toNat_byteChar b ▸ hlt)
    split
    next alone longer ho =>
      obtain ⟨hc, hl⟩ := lt_of_operators ho
      exact settled_operator (hbump rfl hc) hl
    next =>
      split
      next hdot => exact settled_dots (hbump hdot (by decide))
      next =>
        split
        next hquote =>
          have hends := settles_closeString (hbump' (hquote ▸ by decide))
          unfold string
          split <;> rename_i hclose <;> rw [hclose] at hends <;> exact hends
        next =>
          split
          next hquote => exact settled_charLiteral (hbump' (hquote ▸ by decide))
          next =>
            split
            next hdigit => exact settled_number (hbump' (lt_of_isDigit hdigit))
            next =>
              split
              next hat => exact settled_tag (hbump hat (by decide))
              next =>
                split
                next hname =>
                  have hlt : b < 128 := lt_of_continuesName (by
                    simp only [startsName, continuesName, Bool.or_eq_true] at hname ⊢
                    exact hname.imp .inl id)
                  exact settled_eatWhile (hbump' hlt) fun _ => lt_of_continuesName
                next => exact settled_bumpChar h

end Scanner

end FrontEnd
