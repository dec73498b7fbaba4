import FrontEnd.Proofs.Storage.Bytes
import FrontEnd.Proofs.Token.Locality
import FrontEnd.Proofs.Token.Places

/-!
White space says nothing: the tokens of a text without errors are found again between any blanks.
-/

namespace FrontEnd

/-- Some white space. -/
def Blanks (gap : String) : Prop := gap ≠ "" ∧ ∀ c ∈ gap.toList, c ∈ [' ', '\t', '\r', '\n']

instance (gap : String) : Decidable (Blanks gap) :=
  decidable_of_iff (gap ≠ "" ∧ gap.toList.all ([' ', '\t', '\r', '\n'].contains ·) = true)
    (by simp [Blanks])

/-- Words with `gap` in front and one of `gaps` behind each. -/
def spaced (gap : String) : List String → List String → String
  | word :: words, behind :: gaps => gap ++ (word ++ spaced behind words gaps)
  | _, _ => gap

theorem utf8_eq (text : String) : utf8 text = text.toList.flatMap String.utf8EncodeChar := by
  rw [utf8, String.toUTF8_eq_toByteArray, ← String.utf8Encode_toList, List.utf8Encode,
    List.data_toByteArray]

theorem Blanks.bytes {gap : String} (h : Blanks gap) :
    utf8 gap ≠ [] ∧ ∀ b ∈ utf8 gap, isBlank b = true := by
  obtain ⟨hne, hall⟩ := h
  have hbyte : ([' ', '\t', '\r', '\n'].flatMap String.utf8EncodeChar).all isBlank = true := by
    decide
  refine ⟨fun hnil => hne ?_, fun b hb => ?_⟩
  · rw [← utf8Text_utf8 gap, hnil, ← utf8Text_utf8 ""]
    rfl
  · rw [utf8_eq, List.mem_flatMap] at hb
    obtain ⟨c, hc, hb⟩ := hb
    exact List.all_eq_true.1 hbyte b (List.mem_flatMap.2 ⟨c, hall c hc, hb⟩)

theorem Blanks.blank {gap : String} (h : Blanks gap) (words gaps : List String) :
    Blank (utf8 (spaced gap words gaps)) := by
  obtain ⟨hne, hall⟩ := h.bytes
  obtain ⟨b, tail, hb⟩ := List.exists_cons_of_ne_nil hne
  have hfirst : b ∈ [32, 9, 13, lineFeed] := isBlank_iff.1 (hall b (by simp [hb]))
  intro d hd
  unfold spaced at hd
  split at hd
  · rw [utf8_append, hb] at hd
    exact Option.some.inj hd ▸ hfirst
  · rw [hb] at hd
    exact Option.some.inj hd ▸ hfirst

theorem utf8Text_flatMap (chars : List Char) :
    utf8Text (chars.flatMap String.utf8EncodeChar) = String.ofList chars := by
  rw [← utf8Text_utf8 (String.ofList chars), utf8_eq, String.toList_ofList]

theorem toList_utf8Text (chars : List Char) :
    (utf8Text (chars.flatMap String.utf8EncodeChar)).toList = chars := by
  rw [utf8Text_flatMap, String.toList_ofList]

theorem Whole.utf8_text {bytes : List UInt8} (h : Whole bytes) : utf8 (utf8Text bytes) = bytes := by
  obtain ⟨cs, rfl⟩ := h
  rw [utf8Text_flatMap, utf8_eq, String.toList_ofList]

theorem slice_ofRange {pre word rest : List UInt8}
    (hsmall : (pre ++ (word ++ rest)).length ≤ maxOffset) :
    (Span.ofRange pre.length (pre.length + word.length)).slice (pre ++ (word ++ rest)).toArray =
      utf8Text word := by
  rw [List.length_append, List.length_append] at hsmall
  have hextract : (pre ++ (word ++ rest)).toArray.extract pre.length (pre.length + word.length) =
      word.toArray := by
    rw [List.extract_toArray, List.extract_eq_take_drop, List.drop_left, Nat.add_sub_cancel_left,
      List.take_left]
  rw [Scanner.ofRange_eq (by omega) (by omega), Span.slice, utf8Text, hextract, if_pos]
  refine ⟨Nat.le_add_right _ _, ?_⟩
  rw [List.size_toArray, List.length_append, List.length_append, ← Nat.add_assoc]
  exact Nat.le_add_right _ _

namespace Scanner

variable {s s' t t' u : Scanner} {rest more word bytes gap : List UInt8}

/-! ### Gaps -/

/-- Neither a blank nor a comment is next. -/
def Clear (s : Scanner) : Prop := ∀ b ∈ s.peek, isBlank b = false ∧
  (byteChar b = '/' → ∀ c ∈ s.peekSecond, byteChar c ≠ '/' ∧ byteChar c ≠ '*')

theorem clear_skipTrivia (h : s.skipTrivia = .passed t) : t.Clear := by
  fun_induction skipTrivia s with
  | case1 s hs =>
    cases h
    intro b hb
    simp [peek, hs] at hb
  | case2 _ _ _ _ _ ih => exact ih h
  | case3 _ _ _ _ _ _ _ ih => exact ih h
  | case4 _ _ _ _ _ _ _ _ _ ih => exact ih h
  | case5 => cases h
  | case6 s b after hs hblank hline hblock =>
    cases h
    intro d hd
    obtain rfl : b = d := by simpa [peek, hs] using hd
    refine ⟨by simpa using hblank, fun hslash c hc => ⟨fun hc' => ?_, fun hc' => ?_⟩⟩
    · rw [peekSecond, hs, List.tail_cons] at hc
      exact hline hslash (by rw [hc]; exact congrArg some hc')
    · rw [peekSecond, hs, List.tail_cons] at hc
      exact hblock hslash (by rw [hc]; exact congrArg some hc')

theorem skipTrivia_of_clear (h : s.Clear) : s.skipTrivia = .passed s := by
  rw [skipTrivia]
  split
  next => rfl
  next b after hs =>
    obtain ⟨hblank, hslash⟩ := h b (by simp [peek, hs])
    rw [if_neg (by simp [hblank])]
    rw [peekSecond, hs, List.tail_cons] at hslash
    split
    next h1 h2 =>
      obtain ⟨c, hc, hcd⟩ := Option.map_eq_some_iff.1 h2
      exact absurd hcd (hslash h1 c hc).1
    next h1 h2 =>
      obtain ⟨c, hc, hcd⟩ := Option.map_eq_some_iff.1 h2
      exact absurd hcd (hslash h1 c hc).2
    next => rfl

/-- Before a blank the first byte of a token starts no comment either. -/
theorem Clear.beside {b : UInt8} (h : s.Clear) (hb : Beside rest more (b :: word) s s')
    (hm : Blank more) : s'.Clear := by
  obtain ⟨hblank, hslash⟩ := h b (by simp [peek, hb.left])
  intro d hd
  obtain rfl : b = d := by simpa [peek, hb.right] using hd
  refine ⟨hblank, fun hb' c hc => ?_⟩
  rw [peekSecond, hb.right, List.cons_append, List.tail_cons] at hc
  cases word with
  | nil =>
    have hnot : ∀ c ∈ [32, 9, 13, lineFeed], byteChar c ≠ '/' ∧ byteChar c ≠ '*' := by
      decide +kernel
    exact hnot c (hm c hc)
  | cons e tail =>
    refine hslash hb' c ?_
    rw [peekSecond, hb.left, List.cons_append, List.tail_cons]
    exact hc

theorem skipTrivia_of_blank {b : UInt8} {after : List UInt8} (hs : s.rest = b :: after)
    (hb : isBlank b = true) : s.skipTrivia = s.bump.skipTrivia := by
  have hfirst {c : UInt8} {after' : List UInt8} (h : s.rest = c :: after')
      (hnot : ¬isBlank c = true) : False := by
    obtain ⟨rfl, -⟩ := List.cons.inj (hs.symm.trans h)
    exact hnot hb
  fun_cases skipTrivia s with
  | case1 h => exact absurd (hs.symm.trans h) nofun
  | case2 => rfl
  | case3 c after' h hnot | case4 c after' h hnot | case5 c after' h hnot
  | case6 c after' h hnot => exact (hfirst h hnot).elim

theorem skipTrivia_blanks (hs : s.rest = gap ++ bytes) (hgap : ∀ b ∈ gap, isBlank b = true) :
    ∃ t, s.Takes gap t ∧ t.rest = bytes ∧ s.skipTrivia = t.skipTrivia := by
  induction gap generalizing s with
  | nil => exact ⟨s, .refl s, hs, rfl⟩
  | cons b gap ih =>
    have hbump := takes_bump hs
    obtain ⟨t, htakes, hrest, htrivia⟩ := ih (s := s.bump) (by rw [rest_bump, hs]; rfl)
      fun c hc => hgap c (List.mem_cons_of_mem _ hc)
    refine ⟨t, hbump.trans htakes, hrest, ?_⟩
    rw [← htrivia, skipTrivia_of_blank hs (hgap b List.mem_cons_self)]

/-! ### Readings -/

/-- Where the next token starts. -/
def tokenStart (s : Scanner) : Scanner :=
  match s.skipTrivia with
  | .passed t | .unterminated t _ => t

/-- The bytes that the next token takes. -/
def tokenBytes (s : Scanner) : List UInt8 :=
  s.tokenStart.rest.take (s.next.2.offset - s.tokenStart.offset)

/-- Kind and text of every token. The text is what the scanner passed over, wherever it stands. -/
def readings (s : Scanner) : List (TokenKind × String) :=
  (s.next.1.kind, utf8Text s.tokenBytes) ::
    if _h : s.next.1.kind = .eof then [] else s.next.2.readings
termination_by s.rest.length
decreasing_by exact (length_next s).resolve_left _h

theorem passes_tokenStart (s : Scanner) :
    s.Passes s.tokenStart ∧ s.tokenStart.Passes s.next.2 ∧
      s.next.1.span = Span.ofRange s.tokenStart.offset s.next.2.offset := by
  have hpass := passes_skipTrivia s
  unfold tokenStart
  cases ht : s.skipTrivia with
  | passed t =>
    rw [ht] at hpass
    rw [next_of_passed ht]
    exact ⟨hpass, (finds_lexeme t).passes, span_lexeme t⟩
  | unterminated start stop =>
    rw [ht] at hpass
    rw [next_of_unterminated ht]
    exact ⟨hpass.1, hpass.2, rfl⟩

theorem readings_eq (s : Scanner) : s.readings = (s.next.1.kind, utf8Text s.tokenBytes) ::
    if s.next.1.kind = .eof then [] else s.next.2.readings := by
  rw [readings]
  exact congrArg _ (dite_eq_ite ..)

theorem readings_eof (hk : s.next.1.kind = .eof) :
    s.readings = [(.eof, utf8Text s.tokenBytes)] := by
  rw [readings_eq, if_pos hk, hk]

theorem readings_cons (hk : s.next.1.kind ≠ .eof) :
    s.readings = (s.next.1.kind, utf8Text s.tokenBytes) :: s.next.2.readings := by
  rw [readings_eq, if_neg hk]

theorem readings_kinds (s : Scanner) :
    s.readings.map Prod.fst = (s.tokens.map Prod.fst).map Token.kind := by
  fun_induction readings s with
  | case1 s ih =>
    split
    next hk => rw [tokens_eof hk]; rfl
    next hk => rw [tokens_cons hk, List.map_cons, List.map_cons, ih hk]

/-- The text under the span of a token is the one that was passed over. -/
theorem slice_eq {source pre : List UInt8} (hsource : source = pre ++ s.rest)
    (hoffset : s.offset = pre.length) (hsmall : source.length ≤ maxOffset) :
    s.next.1.span.slice source.toArray = utf8Text s.tokenBytes := by
  obtain ⟨hstart, hstop, hspan⟩ := s.passes_tokenStart
  obtain ⟨gap, hgap⟩ := hstart.takes
  obtain ⟨word, hword⟩ := hstop.takes
  have hall : source = (pre ++ gap) ++ (word ++ s.next.2.rest) := by
    rw [hsource, hgap.rest, hword.rest, List.append_assoc]
  have hfirst : s.tokenStart.offset = (pre ++ gap).length := by
    rw [hgap.offset, hoffset, List.length_append]
  have hlast : s.next.2.offset = s.tokenStart.offset + word.length := hword.offset
  have hbytes : s.tokenBytes = word := by
    rw [tokenBytes, hlast, Nat.add_sub_cancel_left, hword.rest, List.take_left]
  rw [hspan, hlast, hfirst, hbytes, hall]
  exact slice_ofRange (hall ▸ hsmall)

theorem readings_slices {source pre : List UInt8} (hsource : source = pre ++ s.rest)
    (hoffset : s.offset = pre.length) (hsmall : source.length ≤ maxOffset) :
    (s.tokens.map Prod.fst).map (fun t => (t.kind, t.lexeme source.toArray)) = s.readings := by
  fun_induction readings s generalizing pre with
  | case1 s ih =>
    rw [← slice_eq hsource hoffset hsmall]
    split
    next hk => rw [tokens_eof hk]; rfl
    next hk =>
      obtain ⟨hstart, hstop, -⟩ := s.passes_tokenStart
      obtain ⟨taken, htaken⟩ := (hstart.trans hstop).takes
      rw [tokens_cons hk, List.map_cons]
      have hsource' : source = pre ++ taken ++ s.next.2.rest := by
        rw [hsource, htaken.rest, List.append_assoc]
      exact congrArg _ (ih hk hsource' (by rw [htaken.offset, hoffset, List.length_append]))

/-! ### Other gaps -/

theorem text_eof (hk : s.next.1.kind = .eof) : utf8Text s.tokenBytes = "" := by
  have hbytes : s.tokenBytes = [] := by
    unfold tokenBytes tokenStart
    cases ht : s.skipTrivia with
    | unterminated start stop =>
      rw [next_of_unterminated ht] at hk
      cases hk
    | passed t =>
      rw [next_of_passed ht] at hk ⊢
      have hrest : t.rest = [] := Decidable.byContradiction fun hne => (proper_lexeme hne).2 hk
      simp [hrest]
  rw [hbytes, ← utf8Text_utf8 ""]
  rfl

/-- At the end of a text only blanks may follow. -/
theorem readings_end (hgap : ∀ b ∈ s.rest, isBlank b = true) : s.readings = [(.eof, "")] := by
  obtain ⟨t, -, hrest, htrivia⟩ := skipTrivia_blanks (List.append_nil _).symm hgap
  have hpassed : s.skipTrivia = .passed t :=
    htrivia.trans (skipTrivia_of_clear fun b hb => by simp [peek, hrest] at hb)
  have hnext := (next_of_passed hpassed).trans (lexeme_end hrest)
  have hk : s.next.1.kind = .eof := by rw [hnext, make]
  rw [readings_eof hk, text_eof hk]

/-- A token is found again behind other blanks, if blanks or nothing follow it. -/
theorem reading_beside (hs : s.Settled) (hk : s.next.1.kind ≠ .error) (hk' : s.next.1.kind ≠ .eof)
    (hs' : s'.rest = gap ++ (utf8 (utf8Text s.tokenBytes) ++ more))
    (hgap : ∀ b ∈ gap, isBlank b = true) (hm : Blank more) :
    s'.next.1.kind = s.next.1.kind ∧ s'.tokenBytes = s.tokenBytes ∧ s'.next.2.rest = more := by
  obtain ⟨t, -, hrest, htrivia⟩ := skipTrivia_blanks hs' hgap
  cases hu : s.skipTrivia with
  | unterminated start stop =>
    rw [next_of_unterminated hu] at hk
    exact absurd rfl hk
  | passed u =>
    have hnext := next_of_passed hu
    have hstart : s.tokenStart = u := by rw [tokenStart, hu]
    have hset := settled_skipTrivia hs
    rw [hu] at hset
    obtain ⟨word, hword⟩ := (finds_lexeme u).passes.takes
    have hbytes : s.tokenBytes = word := by
      rw [tokenBytes, hnext, hstart, hword.offset, Nat.add_sub_cancel_left, hword.rest,
        List.take_left]
    have hne : u.rest ≠ [] := fun hnil => hk' (by rw [hnext, lexeme_end hnil]; rfl)
    have hlt := length_lexeme u hne
    rw [hword.rest, List.length_append] at hlt
    obtain ⟨b, tail, rfl⟩ := List.exists_cons_of_length_pos (l := word) (by omega)
    -- The bytes of the token are whole characters, so its text has the same bytes.
    have hwhole : Whole (b :: tail ++ u.lexeme.2.rest) := hword.rest ▸ hset
    have htext := (hwhole.split (settled_lexeme hset).head).1.utf8_text
    rw [hbytes, htext] at hrest
    have hbeside : Beside u.lexeme.2.rest more (b :: tail) u t := ⟨hword.rest, hrest⟩
    have hpassed := htrivia.trans (skipTrivia_of_clear ((clear_skipTrivia hu).beside hbeside hm))
    have hnext' := next_of_passed hpassed
    obtain ⟨hkind, hmore⟩ := alike_lexeme hbeside hne hm (hnext ▸ hk) rfl
    obtain ⟨word', hword'⟩ := (finds_lexeme t).passes.takes
    have hsame : word' = b :: tail := by
      have := hword'.rest
      rw [hrest, hmore] at this
      exact (List.append_cancel_right this).symm
    refine ⟨by rw [hnext', hnext, hkind], ?_, by rw [hnext', hmore]⟩
    rw [hbytes, tokenBytes, hnext', tokenStart, hpassed, hword'.offset, Nat.add_sub_cancel_left,
      hword'.rest, List.take_left, hsame]

theorem settled_next (h : s.Settled) : s.next.2.Settled := by
  have hset := settled_skipTrivia h
  cases ht : s.skipTrivia with
  | passed t =>
    rw [ht] at hset
    rw [next_of_passed ht]
    exact settled_lexeme hset
  | unterminated start stop =>
    rw [ht] at hset
    rw [next_of_unterminated ht]
    exact hset.2

theorem readings_ne_nil (s : Scanner) : s.readings ≠ [] := by
  rw [readings_eq]
  exact List.cons_ne_nil _ _

/-- Other gaps, the same tokens: the induction is on the tokens of the first text. -/
theorem readings_spaced {gap : String} {gaps : List String} (hs : s.Settled)
    (hclean : ∀ p ∈ s.readings, p.1 ≠ .error) (hcount : gaps.length + 1 = s.readings.length)
    (hgap : Blanks gap) (hgaps : ∀ g ∈ gaps, Blanks g)
    (hs' : s'.rest = utf8 (spaced gap (s.readings.dropLast.map Prod.snd) gaps)) :
    s'.readings = s.readings := by
  obtain ⟨-, hblanks⟩ := hgap.bytes
  induction hn : s.rest.length using Nat.strong_induction_on generalizing s s' gap gaps with
  | h n ih =>
    by_cases hk : s.next.1.kind = .eof
    · rw [readings_eof hk, text_eof hk] at hcount hs' ⊢
      obtain rfl : gaps = [] := List.eq_nil_of_length_eq_zero (by simpa using hcount)
      have hrest : s'.rest = utf8 gap := by simpa [spaced] using hs'
      exact readings_end (hrest ▸ hblanks)
    · have hlast := s.next.2.readings_ne_nil
      rw [readings_cons hk] at hclean hcount hs' ⊢
      rw [List.dropLast_cons_of_ne_nil hlast, List.map_cons] at hs'
      have hlen := List.length_pos_iff.2 hlast
      rw [List.length_cons, Nat.add_right_cancel_iff] at hcount
      obtain ⟨behind, gaps, rfl⟩ := List.exists_cons_of_length_pos (hcount ▸ hlen)
      rw [spaced, utf8_append, utf8_append] at hs'
      have hbehind := hgaps behind List.mem_cons_self
      obtain ⟨hkind, hbytes, hrest⟩ := reading_beside hs (hclean _ List.mem_cons_self) hk hs'
        hblanks (hbehind.blank _ _)
      rw [readings_cons (hkind ▸ hk), hkind, hbytes]
      have hlt := (length_next s).resolve_left hk
      exact congrArg _ (ih _ (hn ▸ hlt) (settled_next hs)
        (fun p hp => hclean p (List.mem_cons_of_mem _ hp)) hcount hbehind
        (fun g hg => hgaps g (List.mem_cons_of_mem _ hg)) hrest hbehind.bytes.2 rfl)

end Scanner

/-- Kind and text of every token, the last one without text. Unlike the text under a span, which
has 32 bits for its ends, this is right in texts of any length. -/
def readings (text : String) : List (TokenKind × String) :=
  (Scanner.ofBytes (utf8 text)).readings

/-- Kind of every token with the text under its span. -/
def lexemes (text : String) : List (TokenKind × String) :=
  (tokenize text).map fun t => (t.kind, t.lexeme text.toUTF8.data)

/-- The texts of all tokens but the last. -/
def wordsOf (tokens : List (TokenKind × String)) : List String := tokens.dropLast.map Prod.snd

theorem readings_map_fst (text : String) :
    (readings text).map Prod.fst = (tokenize text).map Token.kind := Scanner.readings_kinds _

theorem lexemes_eq_readings {text : String} (h : text.utf8ByteSize ≤ maxOffset) :
    lexemes text = readings text :=
  Scanner.readings_slices (s := .ofBytes (utf8 text)) (List.nil_append _).symm rfl h

/-- White space is insignificant: a text whose tokens are not errors, written anew with other blanks
before, between and after the tokens, has the same tokens; and under their spans, as long as both
texts are shorter than four gibibytes, stand the same texts. -/
theorem spacing_insignificant (text gap : String) (gaps : List String)
    (hclean : ∀ t ∈ tokenize text, t.kind ≠ .error)
    (hcount : gaps.length + 1 = (tokenize text).length) (hblank : ∀ g ∈ gap :: gaps, Blanks g) :
    (readings text).map Prod.fst = (tokenize text).map Token.kind ∧
    readings (spaced gap (wordsOf (readings text)) gaps) = readings text ∧
    (text.utf8ByteSize ≤ maxOffset →
      (spaced gap (wordsOf (lexemes text)) gaps).utf8ByteSize ≤ maxOffset →
      lexemes text = readings text ∧
        lexemes (spaced gap (wordsOf (lexemes text)) gaps) = lexemes text) := by
  have hkinds := readings_map_fst text
  have hsame : readings (spaced gap (wordsOf (readings text)) gaps) = readings text := by
    refine Scanner.readings_spaced (Whole.ofString text) (fun p hp => ?_) ?_
      (hblank gap List.mem_cons_self) (fun g hg => hblank g (List.mem_cons_of_mem _ hg)) rfl
    · have hmem : p.1 ∈ (tokenize text).map Token.kind := hkinds ▸ List.mem_map_of_mem hp
      obtain ⟨t, ht, hkind⟩ := List.mem_map.1 hmem
      exact hkind ▸ hclean t ht
    · have hlen := congrArg List.length hkinds
      rw [List.length_map, List.length_map] at hlen
      exact hcount.trans hlen.symm
  refine ⟨hkinds, hsame, fun hsmall hsmall' => ?_⟩
  have hread := lexemes_eq_readings hsmall
  refine ⟨hread, ?_⟩
  rw [lexemes_eq_readings hsmall', hread, hsame]

/-- A comment between two tokens gives way to blanks. -/
theorem spacing_of_sum :
    (∀ t ∈ tokenize "a+/**/1.5f", t.kind ≠ .error) ∧
      spaced "\n" ["a", "+", "1.5f"] [" ", "\t", "\r\n "] = "\na +\t1.5f\r\n " ∧
      lexemes "\na +\t1.5f\r\n " = lexemes "a+/**/1.5f" := by
  have hclean : ∀ t ∈ tokenize "a+/**/1.5f", t.kind ≠ .error := by decide +kernel
  have hwords : wordsOf (lexemes "a+/**/1.5f") = ["a", "+", "1.5f"] := by decide +kernel
  have h := (spacing_insignificant "a+/**/1.5f" "\n" [" ", "\t", "\r\n "] hclean (by decide +kernel)
    (by decide +kernel)).2.2 (by decide +kernel) (by rw [hwords]; decide)
  rw [hwords] at h
  exact ⟨hclean, rfl, h.2⟩

end FrontEnd
