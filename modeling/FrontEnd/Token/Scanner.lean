import FrontEnd.Token.Basic
import FrontEnd.Token.Keyword

/-!
The scanner: one token at a time off the front of the unread bytes, with the offset, line and
column of the next byte. Every token but the last takes at least one byte.
-/

namespace FrontEnd

/-- The unread bytes and where they start. -/
structure Scanner where
  rest : List UInt8
  offset : Nat
  line : Nat
  col : Nat
  deriving DecidableEq, Repr

def lineFeed : UInt8 := 10

def quotationMark : UInt8 := 34

def apostrophe : UInt8 := 39

def backslash : UInt8 := 92

def isDigit (b : UInt8) : Bool := 48 ≤ b && b ≤ 57

def isLetter (b : UInt8) : Bool := (65 ≤ b && b ≤ 90) || (97 ≤ b && b ≤ 122)

def startsName (b : UInt8) : Bool := isLetter b || b == 95

def continuesName (b : UInt8) : Bool := isLetter b || isDigit b || b == 95

/-- Bytes of a character after its first. -/
def continuesChar (b : UInt8) : Bool := b &&& 0xC0 == 0x80

def isBlank (b : UInt8) : Bool := b == 32 || b == 9 || b == 13 || b == lineFeed

namespace Scanner

variable {s t : Scanner}

def ofBytes (bytes : List UInt8) : Scanner := ⟨bytes, 0, 1, 1⟩

def peek (s : Scanner) : Option UInt8 := s.rest.head?

def peekSecond (s : Scanner) : Option UInt8 := s.rest.tail.head?

/-- Passes one byte, if there is one. -/
def bump (s : Scanner) : Scanner :=
  match s.rest with
  | [] => s
  | b :: rest =>
    if b = lineFeed then ⟨rest, s.offset + 1, s.line + 1, 1⟩
    else ⟨rest, s.offset + 1, s.line, s.col + 1⟩

/-- Passes `len` bytes at once: the line grows by the line feeds among them, and the column
counts from the last of these. -/
def skip (s : Scanner) (len : Nat) : Scanner :=
  let passed := s.rest.take len
  let afterFeed := passed.reverse.takeWhile (· != lineFeed)
  let feeds := passed.count lineFeed
  { rest := s.rest.drop len
    offset := s.offset + passed.length
    line := s.line + feeds
    col := if feeds = 0 then s.col + passed.length else 1 + afterFeed.length }

def skipAll (s : Scanner) : Scanner := s.skip s.rest.length

/-- Passes the bytes up to the first that satisfies `p`; `none` if there is no such byte. -/
def skipTo? (s : Scanner) (p : UInt8 → Bool) : Option Scanner := (s.rest.findIdx? p).map s.skip

/-- Passes the bytes that satisfy `p`. -/
def eatWhile (s : Scanner) (p : UInt8 → Bool) : Scanner := s.skip (s.rest.takeWhile p).length

/-- Passes one whole character. -/
def bumpChar (s : Scanner) : Scanner := s.bump.eatWhile continuesChar

@[simp] theorem rest_skip (s : Scanner) (len : Nat) : (s.skip len).rest = s.rest.drop len := rfl

@[simp] theorem rest_bump (s : Scanner) : s.bump.rest = s.rest.tail := by
  unfold bump
  split
  · simp_all
  · split <;> simp_all

theorem length_bump_le (s : Scanner) : s.bump.rest.length ≤ s.rest.length := by
  simp

theorem length_skip_le (s : Scanner) (len : Nat) : (s.skip len).rest.length ≤ s.rest.length := by
  simp only [rest_skip, List.length_drop]
  omega

theorem length_eatWhile_le (s : Scanner) (p : UInt8 → Bool) :
    (s.eatWhile p).rest.length ≤ s.rest.length :=
  length_skip_le ..

theorem length_bumpChar_le (s : Scanner) : s.bumpChar.rest.length ≤ s.bump.rest.length :=
  length_eatWhile_le ..

theorem length_skipTo?_le {p : UInt8 → Bool} (h : s.skipTo? p = some t) :
    t.rest.length ≤ s.rest.length := by
  obtain ⟨len, -, rfl⟩ := Option.map_eq_some_iff.1 h
  simp

/-! ### Blanks and comments -/

/-- Passes the rest of a block comment, `depth` levels below the outermost; an error carries
the end of a text that ends inside the comment. -/
def closeComment (depth : Nat) (s : Scanner) : Except Scanner Scanner :=
  match _h : s.skipTo? (fun b => byteChar b == '*' || byteChar b == '/') with
  | none => .error s.skipAll
  | some t =>
    match _hb : t.rest with
    | [] => .error t
    | b :: after =>
      match byteChar b, after.head?.map byteChar with
      | '*', some '/' => if depth = 0 then .ok (t.skip 2) else closeComment (depth - 1) (t.skip 2)
      | '/', some '*' => closeComment (depth + 1) (t.skip 2)
      | _, _ => closeComment depth t.bump
termination_by s.rest.length
decreasing_by
  all_goals
    have := length_skipTo?_le _h
    simp [_hb] at this ⊢
    omega

theorem length_closeComment {depth : Nat} (h : closeComment depth s = .ok t) :
    t.rest.length < s.rest.length := by
  fun_induction closeComment depth s with
  | case1 => simp at h
  | case2 => simp at h
  | case3 s u hu b after hb =>
    have := length_skipTo?_le hu
    simp at h
    subst h
    simp [hb] at this ⊢
    omega
  | case4 depth s u hu b after hb _ _ _ ih =>
    have := length_skipTo?_le hu
    have := ih h
    simp [hb] at *
    omega
  | case5 depth s u hu b after hb _ _ ih =>
    have := length_skipTo?_le hu
    have := ih h
    simp [hb] at *
    omega
  | case6 depth s u hu b after hb _ _ ih =>
    have := length_skipTo?_le hu
    have := ih h
    simp [hb] at *
    omega

/-- What lies between two tokens. -/
inductive Trivia
  | passed (next : Scanner)
  /-- A block comment starts at `start` and the text ends inside it. -/
  | unterminated (start stop : Scanner)

/-- Passes blanks, line comments and nested block comments. -/
def skipTrivia (s : Scanner) : Trivia :=
  match _hb : s.rest with
  | [] => .passed s
  | b :: after =>
    if isBlank b then skipTrivia s.bump
    else match byteChar b, after.head?.map byteChar with
    | '/', some '/' => skipTrivia ((s.skip 2).eatWhile (· != lineFeed))
    | '/', some '*' =>
      match _h : closeComment 0 (s.skip 2) with
      | .ok t => skipTrivia t
      | .error stop => .unterminated s stop
    | _, _ => .passed s
termination_by s.rest.length
decreasing_by
  · simp [_hb]
  · have := length_eatWhile_le (s.skip 2) (· != lineFeed)
    have : (s.skip 2).rest.length < s.rest.length := by
      rw [rest_skip, _hb, List.length_drop, List.length_cons]
      omega
    omega
  · have := length_closeComment _h
    simp [_hb] at *
    omega

theorem length_skipTrivia (h : s.skipTrivia = .passed t) : t.rest.length ≤ s.rest.length := by
  fun_induction skipTrivia s with
  | case1 => simp_all
  | case2 s b after hb _ ih => have := ih h; simp [hb] at this ⊢; omega
  | case3 s b after hb _ _ _ ih => have := ih h; simp [hb, eatWhile] at this ⊢; omega
  | case4 s b after hb _ _ _ u hu ih =>
    have := ih h
    have := length_closeComment hu
    simp [hb] at *
    omega
  | case5 => simp at h
  | case6 => simp_all

/-! ### Tokens -/

/-- The token between two states. -/
def make (start stop : Scanner) (kind : TokenKind) : Token × Scanner :=
  (⟨kind, none, Span.ofRange start.offset stop.offset, start.line, start.col⟩, stop)

def fail (start stop : Scanner) (error : LexicalError) : Token × Scanner :=
  (⟨.error, some error, Span.ofRange start.offset stop.offset, start.line, start.col⟩, stop)

/-- Operators and punctuation by their first character: what it is alone, and what it is
together with the next. -/
def operators : Char → Option (TokenKind × List (Char × TokenKind))
  | '(' => some (.openParen, [])
  | ')' => some (.closeParen, [])
  | '[' => some (.openBracket, [])
  | ']' => some (.closeBracket, [])
  | '{' => some (.openBrace, [])
  | '}' => some (.closeBrace, [])
  | ',' => some (.comma, [])
  | ';' => some (.semicolon, [])
  | ':' => some (.colon, [])
  | '?' => some (.question, [])
  | '\\' => some (.backslash, [])
  | '=' => some (.equal, [('=', .equalEqual), ('>', .fatArrow)])
  | '!' => some (.bang, [('=', .bangEqual)])
  | '|' => some (.pipe, [('=', .pipeEqual), ('|', .pipePipe)])
  | '~' => some (.tilde, [('=', .tildeEqual)])
  | '^' => some (.caret, [('=', .caretEqual)])
  | '&' => some (.amp, [('=', .ampEqual), ('&', .ampAmp)])
  | '+' => some (.plus, [('=', .plusEqual), ('+', .plusPlus)])
  | '-' => some (.minus, [('=', .minusEqual), ('-', .minusMinus), ('>', .thinArrow)])
  | '*' => some (.star, [('=', .starEqual)])
  | '/' => some (.slash, [('=', .slashEqual)])
  | '%' => some (.percent, [('=', .percentEqual)])
  | '<' => some (.less, [('=', .lessEqual), ('<', .shiftLeft)])
  | '>' => some (.greater, [('=', .greaterEqual), ('>', .shiftRight)])
  | _ => none

/-- An operator whose first character was passed. -/
def operator (start s : Scanner) (alone : TokenKind) (longer : List (Char × TokenKind)) :
    Token × Scanner :=
  match s.peek.bind fun b => longer.lookup (byteChar b) with
  | some kind => start.make s.bump kind
  | none => start.make s alone

/-- A dot, or three in a row. -/
def dots (start s : Scanner) : Token × Scanner :=
  if s.peek.map byteChar = some '.' ∧ s.peekSecond.map byteChar = some '.' then
    start.make (s.skip 2) .ellipsis
  else start.make s .dot

/-- Ends a number, which no letter, digit or underscore may follow. -/
def closeNumber (start s : Scanner) (kind : TokenKind) : Token × Scanner :=
  if s.peek.any continuesName then start.fail (s.eatWhile continuesName) .invalidNumberSuffix
  else start.make s kind

/-- A number whose first digit was passed. -/
def number (start s : Scanner) : Token × Scanner :=
  let s := s.eatWhile isDigit
  if s.peek.map byteChar = some '.' ∧ s.peekSecond.any isDigit then
    let s := s.bump.eatWhile isDigit
    match s.peek.map byteChar with
    | some 'f' | some 'F' => start.closeNumber s.bump .floatLit
    | some 'd' | some 'D' => start.closeNumber s.bump .doubleLit
    | _ => start.closeNumber s .doubleLit
  else match s.peek.map byteChar with
    | some 'l' | some 'L' => start.closeNumber s.bump .longLit
    | _ => start.closeNumber s .intLit

/-- Passes the rest of a string literal. The character after a backslash never ends it; an
error carries the end of a text that ends inside the literal. -/
def closeString (s : Scanner) : Except Scanner Scanner :=
  match _h : s.skipTo? (fun b => b == quotationMark || b == backslash) with
  | none => .error s.skipAll
  | some t =>
    match _hb : t.rest with
    | [] => .error t
    | b :: _ => if b = quotationMark then .ok t.bump else closeString t.bump.bumpChar
termination_by s.rest.length
decreasing_by
  have := length_skipTo?_le _h
  have := length_bumpChar_le t.bump
  simp [_hb] at *
  omega

def string (start s : Scanner) : Token × Scanner :=
  match s.closeString with
  | .ok stop => start.make stop .stringLit
  | .error stop => start.fail stop .unterminatedString

/-- Ends a character literal after its one character. If more follow, the literal extends to
the next apostrophe on the line. -/
def closeChar (start s : Scanner) : Token × Scanner :=
  if s.peek = some apostrophe then start.make s.bump .charLit
  else match (s.rest.takeWhile (· != lineFeed)).findIdx? (· == apostrophe) with
    | some close => start.fail (s.skip (close + 1)) .charLiteralTooLong
    | none => start.fail s .unterminatedChar

/-- A character literal whose opening apostrophe was passed. -/
def charLiteral (start s : Scanner) : Token × Scanner :=
  match s.peek with
  | none => start.fail s .unterminatedChar
  | some b =>
    if b = lineFeed then start.fail s .unterminatedChar
    else if b = backslash then
      if s.bump.rest.isEmpty then start.fail s.bump .unterminatedChar
      else start.closeChar s.bump.bumpChar
    else if b = apostrophe then start.fail s.bump .unterminatedChar
    else start.closeChar s.bumpChar

/-- A tag whose at sign was passed. -/
def tag (start s : Scanner) : Token × Scanner :=
  match s.peek with
  | some b =>
    if byteChar b = '!' then start.make s.bump .tag
    else if startsName b then start.make (s.eatWhile continuesName) .tag
    else start.fail s .invalidTag
  | none => start.fail s .invalidTag

/-- A name or keyword whose first letter was passed. -/
def word (start s : Scanner) : Token × Scanner :=
  let stop := s.eatWhile continuesName
  start.make stop (.ofWord (start.rest.take (stop.offset - start.offset)))

/-- The token that starts at the next byte. -/
def lexeme (s : Scanner) : Token × Scanner :=
  match s.rest with
  | [] => s.make s .eof
  | b :: _ =>
    match operators (byteChar b) with
    | some (alone, longer) => s.operator s.bump alone longer
    | none =>
      if byteChar b = '.' then s.dots s.bump
      else if b = quotationMark then s.string s.bump
      else if b = apostrophe then s.charLiteral s.bump
      else if isDigit b then s.number s.bump
      else if byteChar b = '@' then s.tag s.bump
      else if startsName b then s.word s.bump
      else s.fail (s.bump.eatWhile continuesChar) .unexpectedCharacter

/-- The next token, of kind `eof` at the end of the text and ever after. -/
def next (s : Scanner) : Token × Scanner :=
  match s.skipTrivia with
  | .passed t => t.lexeme
  | .unterminated start stop => start.fail stop .unterminatedComment

theorem length_closeString (h : s.closeString = .ok t) : t.rest.length ≤ s.rest.length := by
  fun_induction closeString s with
  | case1 | case2 => simp at h
  | case3 s u hu =>
    have := length_skipTo?_le hu
    have := length_bump_le u
    simp at h
    subst h
    omega
  | case4 s u hu =>
    rename_i ih
    have := length_skipTo?_le hu
    have := length_bump_le u
    have := length_bumpChar_le u.bump
    have := length_bump_le u.bump
    have := ih h
    omega

theorem length_closeString_error (h : s.closeString = .error t) :
    t.rest.length ≤ s.rest.length := by
  fun_induction closeString s with
  | case1 s =>
    simp only [Except.error.injEq] at h
    exact h ▸ length_skip_le ..
  | case2 s u hu =>
    simp only [Except.error.injEq] at h
    exact h ▸ length_skipTo?_le hu
  | case3 => simp at h
  | case4 s u hu =>
    rename_i ih
    have := length_skipTo?_le hu
    have := length_bump_le u
    have := length_bumpChar_le u.bump
    have := length_bump_le u.bump
    have := ih h
    omega

theorem length_closeNumber (start s : Scanner) (kind : TokenKind) :
    (start.closeNumber s kind).2.rest.length ≤ s.rest.length := by
  unfold closeNumber
  split
  · exact length_eatWhile_le ..
  · exact Nat.le_refl _

theorem length_closeChar (start s : Scanner) :
    (start.closeChar s).2.rest.length ≤ s.rest.length := by
  unfold closeChar
  split
  · exact length_bump_le s
  · split
    · exact length_skip_le ..
    · exact Nat.le_refl _

theorem length_number (start s : Scanner) : (start.number s).2.rest.length ≤ s.rest.length := by
  have h := length_eatWhile_le s isDigit
  simp only [number]
  generalize s.eatWhile isDigit = u at h
  have hb := length_bump_le u
  split
  · have he := length_eatWhile_le u.bump isDigit
    generalize u.bump.eatWhile isDigit = v at he
    have hv := length_bump_le v
    split <;> refine Nat.le_trans (length_closeNumber ..) ?_ <;> omega
  · split <;> refine Nat.le_trans (length_closeNumber ..) ?_ <;> omega

theorem length_charLiteral (start s : Scanner) :
    (start.charLiteral s).2.rest.length ≤ s.rest.length := by
  have h := length_bump_le s
  have hc := length_bumpChar_le s
  have hb := length_bump_le s.bump
  have hd := length_bumpChar_le s.bump
  unfold charLiteral
  split
  · exact Nat.le_refl _
  · split
    · exact Nat.le_refl _
    · split
      · split
        · exact h
        · exact Nat.le_trans (length_closeChar ..) (by omega)
      · split
        · exact h
        · exact Nat.le_trans (length_closeChar ..) (by omega)

theorem length_string (start s : Scanner) : (start.string s).2.rest.length ≤ s.rest.length := by
  unfold string
  split
  next h => exact length_closeString h
  next h => exact length_closeString_error h

theorem length_tag (start s : Scanner) : (start.tag s).2.rest.length ≤ s.rest.length := by
  unfold tag
  split
  · split
    · exact length_bump_le s
    · split
      · exact length_eatWhile_le ..
      · exact Nat.le_refl _
  · exact Nat.le_refl _

theorem length_operator (start s : Scanner) (alone : TokenKind)
    (longer : List (Char × TokenKind)) :
    (start.operator s alone longer).2.rest.length ≤ s.rest.length := by
  unfold operator
  split
  · exact length_bump_le s
  · exact Nat.le_refl _

theorem length_dots (start s : Scanner) : (start.dots s).2.rest.length ≤ s.rest.length := by
  unfold dots
  split
  · exact length_skip_le ..
  · exact Nat.le_refl _

/-- The token at a byte takes that byte. -/
theorem length_lexeme (s : Scanner) (h : s.rest ≠ []) :
    s.lexeme.2.rest.length < s.rest.length := by
  obtain ⟨b, after, hb⟩ := List.exists_cons_of_ne_nil h
  suffices s.lexeme.2.rest.length ≤ s.bump.rest.length by
    simp [hb] at this ⊢
    omega
  unfold lexeme
  simp only [hb]
  repeat' split
  · exact length_operator ..
  · exact length_dots ..
  · exact length_string ..
  · exact length_charLiteral ..
  · exact length_number ..
  · exact length_tag ..
  · exact length_eatWhile_le ..
  · exact length_eatWhile_le ..

theorem length_closeComment_error {depth : Nat} (h : closeComment depth s = .error t) :
    t.rest.length ≤ s.rest.length := by
  fun_induction closeComment depth s with
  | case1 depth s =>
    simp only [Except.error.injEq] at h
    exact h ▸ length_skip_le ..
  | case2 depth s u hu =>
    simp only [Except.error.injEq] at h
    exact h ▸ length_skipTo?_le hu
  | case3 => simp at h
  | case4 depth s u hu b after hb _ _ _ ih =>
    have := length_skipTo?_le hu
    have := length_skip_le u 2
    have := ih h
    omega
  | case5 depth s u hu b after hb _ _ ih =>
    have := length_skipTo?_le hu
    have := length_skip_le u 2
    have := ih h
    omega
  | case6 depth s u hu b after hb _ _ ih =>
    have := length_skipTo?_le hu
    have := length_bump_le u
    have := ih h
    omega

theorem length_unterminated {start stop : Scanner} (h : s.skipTrivia = .unterminated start stop) :
    stop.rest.length < s.rest.length := by
  fun_induction skipTrivia s with
  | case1 => simp at h
  | case2 s b after hb _ ih => have := ih h; simp [hb] at this ⊢; omega
  | case3 s b after hb _ _ _ ih => have := ih h; simp [hb, eatWhile] at this ⊢; omega
  | case4 s b after hb _ _ _ u hu ih =>
    have := ih h
    have := length_closeComment hu
    simp [hb] at *
    omega
  | case5 s b after hb _ _ _ _ hu =>
    have := length_closeComment_error hu
    cases after <;> simp_all
    omega
  | case6 => simp at h

/-- Every token but the last takes at least one byte. -/
theorem length_next (s : Scanner) :
    s.next.1.kind = .eof ∨ s.next.2.rest.length < s.rest.length := by
  unfold next
  split
  · rename_i t ht
    have := length_skipTrivia ht
    by_cases h : t.rest = []
    · left
      simp [lexeme, h, make]
    · have := length_lexeme t h
      omega
  · rename_i ht
    exact .inr (length_unterminated ht)

theorem length_next_le (s : Scanner) : s.next.2.rest.length ≤ s.rest.length := by
  unfold next
  split
  · rename_i t ht
    have := length_skipTrivia ht
    by_cases h : t.rest = []
    · simp [lexeme, h, make]
    · have := length_lexeme t h
      omega
  · rename_i ht
    exact Nat.le_of_lt (length_unterminated ht)

/-- All tokens up to and with the first of kind `eof`, each with the state behind it. -/
def tokens (s : Scanner) : List (Token × Scanner) :=
  match _h : s.next with
  | (t, u) => (t, u) :: if _ht : t.kind = .eof then [] else u.tokens
termination_by s.rest.length
decreasing_by
  have := length_next s
  rw [_h] at this
  exact this.resolve_left _ht

end Scanner

def tokenize (text : String) : List Token :=
  (Scanner.ofBytes text.toUTF8.data.toList).tokens.map Prod.fst

end FrontEnd
