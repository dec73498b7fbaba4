import FrontEnd.Proofs.Token.Munch
import FrontEnd.Token.Literal
import Mathlib.Algebra.Ring.Parity
import Mathlib.Data.List.Induction
import Mathlib.Data.Nat.Digits.Defs

/-!
Literals mean what is written. A whole number has the value of its digits if that fits, a character
the one byte that it or its escape stands for, and a string is all between its quotation marks.
-/

namespace FrontEnd

/-! ### Backslashes -/

/-- How many backslashes end these bytes. -/
def backslashes (bytes : List UInt8) : Nat := (bytes.reverse.takeWhile (· == backslash)).length

section Backslashes

variable {b : UInt8} {bytes body before after : List UInt8}

theorem backslashes_cons_of_ne (h : b ≠ backslash) :
    backslashes (b :: bytes) = backslashes bytes := by
  rw [backslashes, List.reverse_cons, List.takeWhile_append]
  split
  next hall => simp [backslashes, hall, h]
  next => rfl

/-- A backslash and the byte behind it count both or not at all. -/
theorem even_backslashes_escape :
    Even (backslashes (backslash :: b :: bytes)) ↔ Even (backslashes bytes) := by
  rw [backslashes, List.reverse_cons, List.reverse_cons, List.append_assoc, List.takeWhile_append]
  split
  next hall =>
    rw [backslashes, hall, List.length_append]
    by_cases hb : b = backslash
    · simp [hb, parity_simps]
    · simp [hb]
  next => rfl

theorem Quotable.even_backslashes (h : Quotable body) : Even (backslashes body) := by
  induction h with
  | nil => exact Even.zero
  | byte _ hb _ ih => rwa [backslashes_cons_of_ne hb]
  | escape _ ih => exact even_backslashes_escape.2 ih

/-- A quotation mark between the marks at the ends is escaped. -/
theorem Quotable.odd_backslashes (h : Quotable body)
    (hbody : body = before ++ quotationMark :: after) : Odd (backslashes before) := by
  induction h generalizing before with
  | nil => simp at hbody
  | byte hquote hb _ ih =>
    cases before with
    | nil => exact absurd (List.cons.inj hbody).1 hquote
    | cons c before =>
      rw [List.cons_append, List.cons.injEq] at hbody
      obtain ⟨rfl, hbody⟩ := hbody
      rw [backslashes_cons_of_ne hb]
      exact ih hbody
  | escape _ ih =>
    cases before with
    | nil => exact absurd (List.cons.inj hbody).1 (by decide)
    | cons c before =>
      rw [List.cons_append, List.cons.injEq] at hbody
      obtain ⟨rfl, hbody⟩ := hbody
      cases before with
      | nil => exact odd_one
      | cons d before =>
        rw [List.cons_append, List.cons.injEq] at hbody
        obtain ⟨rfl, hbody⟩ := hbody
        rw [← Nat.not_even_iff_odd, even_backslashes_escape, Nat.not_even_iff_odd]
        exact ih hbody

end Backslashes

namespace Literal

/-! ### What literals mean -/

/-- The number that a row of digits denotes in base ten. -/
def decimal (digits : List Char) : Nat :=
  Nat.ofDigits 10 (digits.reverse.map fun c => c.toNat - '0'.toNat)

/-- Digits and a suffix: the value is the number of the digits if that is at most `bound`, and else
there is none. -/
def ReadsDigits (suffix : List Char) (bound : Nat) (lexeme : String) (value? : Option Int) : Prop :=
  ∃ digits : List Char, digits ≠ [] ∧ (∀ c ∈ digits, c.isDigit = true) ∧
    lexeme.toList = digits ++ suffix ∧
    value? = if decimal digits ≤ bound then some (decimal digits : Int) else none

/-- What may be escaped in a character literal, with the character that is meant. -/
def escapes : List (Char × Char) :=
  [('n', '\n'), ('t', '\t'), ('r', '\r'), ('0', '\x00'), ('\\', '\\'), ('\x27', '\x27'), ('"', '"')]

/-- One character between apostrophes: the value is its byte, if it has just one. -/
def ReadsPlain (lexeme : String) (value? : Option UInt8) : Prop :=
  ∃ c : Char, lexeme.toList = ['\x27', c, '\x27'] ∧ c ∉ ['\x27', '\\', '\n'] ∧
    (∀ b, value? = some b ↔ String.utf8EncodeChar c = [b]) ∧ (value? = none ↔ 128 ≤ c.toNat)

/-- An escaped character between apostrophes: the value is the byte of what is meant. -/
def ReadsEscape (lexeme : String) (value? : Option UInt8) : Prop :=
  ∃ c : Char, lexeme.toList = ['\x27', '\\', c, '\x27'] ∧
    (∀ b, value? = some b ↔ ∃ d, (c, d) ∈ escapes ∧ String.utf8EncodeChar d = [b]) ∧
    (value? = none ↔ c ∉ escapes.map Prod.fst)

/-- The contents are all but the first and the last byte. An odd number of backslashes stands in
front of every quotation mark in them, and an even number at their end. -/
structure ReadsString (lexeme contents : String) : Prop where
  between : utf8 lexeme = quotationMark :: (utf8 contents ++ [quotationMark])
  escaped : ∀ before after, utf8 contents = before ++ quotationMark :: after →
    Odd (backslashes before)
  ends : Even (backslashes (utf8 contents))

/-- What a literal of each kind means. -/
def Decoded : TokenKind → String → Prop
  | .intLit, lexeme => ReadsDigits [] (Nat.pow 2 31 - 1) lexeme ((intValue? lexeme).map Int32.toInt)
  | .longLit, lexeme => ∃ suffix ∈ ['l', 'L'],
    ReadsDigits [suffix] (Nat.pow 2 63 - 1) lexeme ((longValue? lexeme).map Int64.toInt)
  | .charLit, lexeme =>
    ReadsPlain lexeme (charValue? lexeme) ∨ ReadsEscape lexeme (charValue? lexeme)
  | .stringLit, lexeme => ReadsString lexeme (stringContents lexeme)
  | _, _ => True

variable {digits text : List Char} {suffix mark : Char} {lexeme : String} {b : UInt8}
  {bytes : List UInt8}

/-! ### Whole numbers -/

theorem digitsValue_eq (digits : List Char) : digitsValue digits = decimal digits := by
  induction digits using List.reverseRecOn with
  | nil => rfl
  | append_singleton digits c ih =>
    rw [decimal] at ih
    rw [digitsValue, List.foldl_append, ← digitsValue, ih, decimal, List.reverse_append,
      List.reverse_singleton, List.singleton_append, List.map_cons, Nat.ofDigits_cons]
    exact Nat.add_comm _ _

/-- Digits alone have no sign. -/
theorem readInt?_digits (hne : digits ≠ []) (hall : ∀ c ∈ digits, c.isDigit = true) :
    readInt? digits = some (decimal digits : Int) := by
  have hsign : takeSign digits = (false, digits) := by
    unfold takeSign
    split
    · exact absurd (hall '-' List.mem_cons_self) (by decide)
    · exact absurd (hall '+' List.mem_cons_self) (by decide)
    · rfl
  have hdigits : digits ≠ [] ∧ digits.all Char.isDigit = true := ⟨hne, List.all_eq_true.2 hall⟩
  rw [readInt?, hsign]
  simp only [if_pos hdigits, Bool.false_eq_true, if_false, digitsValue_eq]

theorem stripLast?_concat {p : Char → Bool} (text : List Char) {c : Char} (h : p c = true) :
    stripLast? p (text ++ [c]) = some text := by
  rw [stripLast?, List.getLast?_concat]
  simp only [h, if_true, List.dropLast_concat]

/-- A number between bounds is kept by a type with these bounds. -/
theorem map_bounded {α : Type} {ofInt : Int → α} {toInt : α → Int} {least most : Int} {bound : Nat}
    (hkeep : ∀ v, least ≤ v → v ≤ most → toInt (ofInt v) = v) (hleast : least ≤ 0)
    (hmost : most = bound) (n : Nat) :
    Option.map toInt (if least ≤ (n : Int) ∧ (n : Int) ≤ most then some (ofInt n) else none) =
      if n ≤ bound then some (n : Int) else none := by
  by_cases hle : n ≤ bound
  · rw [if_pos (by omega), if_pos hle, Option.map_some, hkeep n (by omega) (by omega)]
  · rw [if_neg (by omega), if_neg hle, Option.map_none]

theorem readsDigits_int (hne : digits ≠ []) (hall : ∀ c ∈ digits, c.isDigit = true)
    (hlexeme : lexeme.toList = digits) : Decoded .intLit lexeme := by
  refine ⟨digits, hne, hall, hlexeme.trans (List.append_nil _).symm, ?_⟩
  rw [intValue?, hlexeme, readInt?_digits hne hall]
  refine map_bounded (fun v hmin hmax => ?_) (by decide) (by decide) (decimal digits)
  have := Int32.toInt_minValue
  have := Int32.toInt_maxValue
  exact Int32.toInt_ofInt_of_le (by omega) (by omega)

theorem readsDigits_long (hne : digits ≠ []) (hall : ∀ c ∈ digits, c.isDigit = true)
    (hsuffix : suffix ∈ ['l', 'L']) (hlexeme : lexeme.toList = digits ++ [suffix]) :
    Decoded .longLit lexeme := by
  have hstrip : stripLast? (fun c => c == 'l' || c == 'L') lexeme.toList = some digits := by
    rw [hlexeme]
    exact stripLast?_concat digits (by simpa using hsuffix)
  refine ⟨suffix, hsuffix, digits, hne, hall, hlexeme, ?_⟩
  rw [longValue?, hstrip, Option.bind_some, readInt?_digits hne hall]
  refine map_bounded (fun v hmin hmax => ?_) (by decide) (by decide) (decimal digits)
  have := Int64.toInt_minValue
  have := Int64.toInt_maxValue
  exact Int64.toInt_ofInt_of_le (by omega) (by omega)

/-! ### Characters -/

theorem between?_marked (mark : Char) (text : List Char) :
    between? mark (mark :: (text ++ [mark])) = some text := by
  rw [between?, if_pos rfl]
  exact stripLast?_concat text (beq_self_eq_true mark)

/-- A character of one byte has its number as that byte. -/
theorem encode_single {c : Char} :
    String.utf8EncodeChar c = [b] ↔ c.toNat < 128 ∧ c.toNat.toUInt8 = b := by
  have hnumber : c.val.toNat = c.toNat := rfl
  fun_cases String.utf8EncodeChar c with
  | case1 v hv =>
    constructor
    · intro h
      exact ⟨Nat.lt_succ_of_le hv, (List.cons.inj h).1⟩
    · rintro ⟨-, rfl⟩
      rfl
  | case2 | case3 | case4 =>
    constructor
    · intro h
      simp at h
    · rintro ⟨hlt, -⟩
      omega

theorem readsPlain {c : Char} (hc : c ∉ ['\x27', '\\', '\n'])
    (hlexeme : lexeme.toList = ['\x27', c, '\x27']) : Decoded .charLit lexeme := by
  have hbody : between? '\x27' lexeme.toList = some [c] := by
    rw [hlexeme]
    exact between?_marked '\x27' [c]
  have hvalue : charValue? lexeme = if c.toNat < 128 then some c.toNat.toUInt8 else none := by
    simp only [charValue?, hbody]
  refine .inl ⟨c, hlexeme, hc, ?_⟩
  rw [hvalue]
  by_cases hlt : c.toNat < 128
  · rw [if_pos hlt]
    refine ⟨fun b => ?_, ?_⟩
    · rw [encode_single, Option.some.injEq]
      exact (and_iff_right hlt).symm
    · simpa using hlt
  · rw [if_neg hlt]
    refine ⟨fun b => ?_, ?_⟩
    · rw [encode_single]
      exact iff_of_false nofun fun h => hlt h.1
    · exact iff_of_true rfl (Nat.le_of_not_lt hlt)

theorem escape?_eq (c : Char) : escape? c = (escapes.lookup c).map fun d => d.toNat.toUInt8 := by
  unfold escape?
  split
  all_goals try rfl
  next =>
    have hnone : escapes.lookup c = none := by
      simp_all [escapes, List.lookup_eq_none_iff]
    rw [hnone, Option.map_none]

theorem lookup_escapes {c d : Char} : escapes.lookup c = some d ↔ (c, d) ∈ escapes := by
  constructor
  · intro h
    obtain ⟨front, back, heq, -⟩ := List.lookup_eq_some_iff.1 h
    rw [heq]
    exact List.mem_append_right front List.mem_cons_self
  · intro h
    have hall : ∀ p ∈ escapes, escapes.lookup p.1 = some p.2 := by decide
    exact hall _ h

theorem readsEscape {c : Char} (hlexeme : lexeme.toList = ['\x27', '\\', c, '\x27']) :
    Decoded .charLit lexeme := by
  have hbody : between? '\x27' lexeme.toList = some ['\\', c] := by
    rw [hlexeme]
    exact between?_marked '\x27' ['\\', c]
  have hvalue : charValue? lexeme = (escapes.lookup c).map fun d => d.toNat.toUInt8 := by
    simp only [charValue?, hbody, if_true, escape?_eq]
  have hsmall : ∀ p ∈ escapes, p.2.toNat < 128 := by decide
  refine .inr ⟨c, hlexeme, fun b => ?_, ?_⟩
  · rw [hvalue, Option.map_eq_some_iff]
    apply exists_congr
    intro d
    rw [lookup_escapes, encode_single]
    apply and_congr_right
    intro hd
    exact (and_iff_right (hsmall _ hd)).symm
  · rw [hvalue, Option.map_eq_none_iff, Option.eq_none_iff_forall_ne_some]
    simp only [ne_eq, lookup_escapes, List.mem_map, Prod.exists, exists_and_right, exists_eq_right,
      not_exists]

/-! ### Strings -/

theorem readsString {body : List UInt8} (hbody : Quotable body) {chars : List Char}
    (hchars : body = chars.flatMap String.utf8EncodeChar)
    (hlexeme : lexeme.toList = '\x22' :: (chars ++ ['\x22'])) : Decoded .stringLit lexeme := by
  have hcontents : stringContents lexeme = String.ofList chars := by
    rw [stringContents, hlexeme, between?_marked]
  have hutf8 : utf8 (stringContents lexeme) = body := by
    rw [hcontents, utf8_eq, String.toList_ofList, hchars]
  refine ⟨?_, fun before after hsplit => ?_, ?_⟩
  · rw [hutf8, utf8_eq, hlexeme, hchars, List.flatMap_cons, List.flatMap_append]
    rfl
  · rw [hutf8] at hsplit
    exact hbody.odd_backslashes hsplit
  · rw [hutf8]
    exact hbody.even_backslashes

/-! ### Words -/

theorem Digits.chars {whole : List UInt8} (h : Digits whole) : whole.map byteChar ≠ [] ∧
    ∀ c ∈ whole.map byteChar, c.isDigit = true := by
  have hall : ∀ b : UInt8, isDigit b = true → (byteChar b).isDigit = true :=
    forall_byte (by decide +kernel)
  refine ⟨mt List.map_eq_nil_iff.1 h.1, fun c hc => ?_⟩
  obtain ⟨b, hb, rfl⟩ := List.mem_map.1 hc
  exact hall b (h.2 b hb)

/-- Every spelling of a literal means what it should. -/
theorem decoded_of_spells {k : TokenKind} {word : List UInt8} (h : Spells k word)
    (hwhole : Whole word) : Decoded k (utf8Text word) := by
  cases h with
  | fixed hk =>
    -- No literal has only one spelling.
    cases k <;> first | exact trivial | exact absurd hk (by decide)
  | ident | float | double | doubleSuffix | mark | tag => exact trivial
  | int hdigits =>
    obtain ⟨hne, hall⟩ := Digits.chars hdigits
    exact readsDigits_int hne hall (toList_ascii fun b hb => Scanner.lt_of_isDigit (hdigits.2 b hb))
  | @long whole b hdigits hb =>
    obtain ⟨hne, hall⟩ := Digits.chars hdigits
    have hsuffix : ∀ b : UInt8, byteChar b ∈ ['l', 'L'] → b < 128 := forall_byte (by decide +kernel)
    have hsmall : ∀ c ∈ whole ++ [b], c < 128 := by
      intro c hc
      rcases List.mem_append.1 hc with hc | hc
      · exact Scanner.lt_of_isDigit (hdigits.2 c hc)
      · exact List.mem_singleton.1 hc ▸ hsuffix b hb
    refine readsDigits_long hne hall hb ?_
    rw [toList_ascii hsmall, List.map_append]
    rfl
  | string hbody =>
    have hquote : ∀ b ∈ [(34 : UInt8)].head?, continuesChar b = false := by
      rintro b ⟨⟩
      rfl
    obtain ⟨⟨chars, hchars⟩, -⟩ := (hwhole.tail (by decide)).split hquote
    refine readsString hbody hchars ?_
    have htext := toList_utf8Text ('\x22' :: (chars ++ ['\x22']))
    rw [List.flatMap_cons, List.flatMap_append, ← hchars] at htext
    exact htext
  | char hchar hquote hescape hfeed =>
    obtain ⟨c, rfl⟩ := hchar
    refine readsPlain (c := c) ?_ (toList_utf8Text ['\x27', c, '\x27'])
    intro hc
    simp only [List.mem_cons, List.not_mem_nil, or_false] at hc
    rcases hc with rfl | rfl | rfl
    · exact hquote rfl
    · exact hescape rfl
    · exact hfeed rfl
  | escape hchar =>
    obtain ⟨c, rfl⟩ := hchar
    exact readsEscape (c := c) (toList_utf8Text ['\x27', '\\', c, '\x27'])

end Literal

/-! ### Texts -/

namespace Scanner

variable {s : Scanner}

/-- The bytes of a token that is no error are whole characters, and a spelling of its kind. -/
theorem spells_tokenBytes (hs : s.Settled) (hk : s.next.1.kind ≠ .error)
    (hk' : s.next.1.kind ≠ .eof) : Whole s.tokenBytes ∧ Spells s.next.1.kind s.tokenBytes := by
  have hset := settled_skipTrivia hs
  cases ht : s.skipTrivia with
  | unterminated start stop =>
    rw [next_of_unterminated ht] at hk
    exact absurd rfl hk
  | passed t =>
    rw [ht] at hset
    have hnext := next_of_passed ht
    rw [hnext] at hk hk'
    have hne : t.rest ≠ [] := by
      intro hnil
      rw [lexeme_end hnil] at hk'
      exact hk' rfl
    obtain ⟨word, htakes, hlongest⟩ := munches_lexeme hset hne hk
    have hbytes : s.tokenBytes = word := by
      rw [tokenBytes, tokenStart, ht, hnext, htakes.offset, Nat.add_sub_cancel_left, htakes.rest,
        List.take_left]
    have hwhole : Whole (word ++ t.lexeme.2.rest) := htakes.rest ▸ hset
    rw [hbytes, hnext]
    exact ⟨(hwhole.split (settled_lexeme hset).head).1, hlongest.spells⟩

theorem decoded_readings (hs : s.Settled) : ∀ p ∈ s.readings, Literal.Decoded p.1 p.2 := by
  fun_induction readings s with
  | case1 s ih =>
    intro p hp
    rcases List.mem_cons.1 hp with rfl | hp
    · by_cases herror : s.next.1.kind = .error
      · rw [herror]
        trivial
      · by_cases heof : s.next.1.kind = .eof
        · rw [heof]
          trivial
        · obtain ⟨hwhole, hspells⟩ := spells_tokenBytes hs herror heof
          exact Literal.decoded_of_spells hspells hwhole
    · split at hp
      · cases hp
      next hk => exact ih hk (settled_next hs) p hp

end Scanner

/-- Every literal of a text means what it should, whatever the text: a whole number has the value of
its digits exactly if that fits, a character its byte exactly if it has one, or that of a known
escape, and a string has all between its first byte and its last, where every quotation mark is
escaped. In a text shorter than four gibibytes the same holds of what stands under the spans. -/
theorem literals_decoded (text : String) :
    (readings text).map Prod.fst = (tokenize text).map Token.kind ∧
    (∀ p ∈ readings text, Literal.Decoded p.1 p.2) ∧
    (text.utf8ByteSize ≤ maxOffset →
      ∀ t ∈ tokenize text, Literal.Decoded t.kind (t.lexeme text.toUTF8.data)) := by
  have hall : ∀ p ∈ readings text, Literal.Decoded p.1 p.2 :=
    Scanner.decoded_readings (s := .ofBytes (utf8 text)) (Whole.ofString text)
  refine ⟨readings_map_fst text, hall, ?_⟩
  intro hsmall t ht
  have hmem : (t.kind, t.lexeme text.toUTF8.data) ∈ lexemes text :=
    List.mem_map_of_mem (f := fun t => (t.kind, t.lexeme text.toUTF8.data)) ht
  rw [lexemes_eq_readings hsmall] at hmem
  exact hall _ hmem

/-- One more than the greatest number has no value, and an escaped apostrophe is not the end. -/
theorem literals_at_limits :
    let text := "2147483648 '\\''"
    text.utf8ByteSize ≤ maxOffset ∧
      Literal.Decoded .intLit "2147483648" ∧ Literal.intValue? "2147483648" = none ∧
      Literal.Decoded .charLit "'\\''" ∧ Literal.charValue? "'\\''" = some apostrophe := by
  intro text
  have hsmall : text.utf8ByteSize ≤ maxOffset := by decide +kernel
  have hnumber : (⟨.intLit, none, ⟨0, 10⟩, 1, 1⟩ : Token) ∈ tokenize text := by decide +kernel
  have hchar : (⟨.charLit, none, ⟨11, 15⟩, 1, 12⟩ : Token) ∈ tokenize text := by decide +kernel
  have hdigits : (⟨0, 10⟩ : Span).slice text.toUTF8.data = "2147483648" := by decide +kernel
  have hescape : (⟨11, 15⟩ : Span).slice text.toUTF8.data = "'\\''" := by decide +kernel
  obtain ⟨-, -, hall⟩ := literals_decoded text
  have hint := hall hsmall _ hnumber
  have hquote := hall hsmall _ hchar
  rw [Token.lexeme, hdigits] at hint
  rw [Token.lexeme, hescape] at hquote
  exact ⟨hsmall, hint, by decide +kernel, hquote, by decide +kernel⟩

end FrontEnd
