import FrontEnd.Proofs.Token.Munch
import FrontEnd.Proofs.Token.Places
import Mathlib.Data.List.Chain

/-!
The tokens of one spelling that types are written with: wherever their bytes stand in front, and
no longer word does, they are what is read next. So is a row of them, if no two words meet.
-/

namespace FrontEnd

/-- The kinds of tokens in the texts of types. -/
def TokenKind.typeKinds : List TokenKind :=
  [.kwInt, .kwLong, .kwFloat, .kwDouble, .kwBool, .kwChar, .kwCstring, .kwVoid, .kwFunc,
    .openParen, .closeParen, .comma, .ellipsis, .thinArrow]

/-- Only words must be kept apart. -/
def TokenKind.Apart (k l : TokenKind) : Prop := k.isKeyword = true → l.isKeyword = false

/-- The bytes of tokens of one spelling, one behind the other. -/
def TokenKind.spelling (ks : List TokenKind) : List UInt8 := ks.flatMap (utf8 ·.describe)

/-- No word goes on here. -/
def EndsWord (bytes : List UInt8) : Prop := ∀ b ∈ bytes.head?, continuesName b = false

namespace Scanner

variable {s : Scanner} {b c : UInt8} {after more : List UInt8} {k alone : TokenKind}
  {longer : List (Char × TokenKind)}

/-- The next token is of this kind, and these bytes are behind it. -/
def Gives (s : Scanner) (k : TokenKind) (more : List UInt8) : Prop :=
  s.next.1.kind = k ∧ s.next.2.rest = more

theorem next_eq_lexeme (hs : s.rest = b :: after) (hblank : isBlank b = false)
    (hslash : byteChar b ≠ '/') : s.next = s.lexeme := by
  refine next_of_passed (skipTrivia_of_clear fun c hc => ?_)
  obtain rfl : b = c := by simpa [peek, hs] using hc
  exact ⟨hblank, fun h => absurd h hslash⟩

theorem lexeme_operator (hs : s.rest = b :: after)
    (ho : operators (byteChar b) = some (alone, longer)) :
    s.lexeme = s.operator s.bump alone longer := by
  simp only [lexeme, hs, ho]

theorem lexeme_word (hs : s.rest = b :: after) (hb : startsName b = true) :
    s.lexeme = s.word s.bump := by
  obtain ⟨ho, hdot, hquote, hchar, hdigit, hat⟩ := only_startsName hb
  simp only [lexeme, hs, ho, if_neg hdot, if_neg hquote, if_neg hchar, if_neg hdigit, if_neg hat,
    if_pos hb]

/-- A word is read to its end. -/
theorem gives_word {word : List UInt8} (hw : Named word) (hs : s.rest = word ++ more)
    (hm : EndsWord more) : s.Gives (.ofWord word) more := by
  have hclear : ∀ b : UInt8, startsName b = true → isBlank b = false ∧ byteChar b ≠ '/' :=
    forall_byte (by decide +kernel)
  obtain ⟨b, tail, rfl, hb, htail⟩ := hw
  have hbump : s.bump.rest = tail ++ more := by rw [rest_bump, hs]; rfl
  have hrun : (tail ++ more).takeWhile continuesName = tail := by
    rw [List.takeWhile_append_of_pos htail]
    cases more with
    | nil => exact List.append_nil _
    | cons c more => rw [List.takeWhile_cons_of_neg (by simp [hm c rfl]), List.append_nil]
  have htakes := (takes_bump hs).trans (takes_eatWhile s.bump continuesName)
  rw [hbump, hrun] at htakes
  have hmore : (s.bump.eatWhile continuesName).rest = more :=
    (List.append_cancel_left (hs.symm.trans htakes.rest)).symm
  rw [Gives, next_eq_lexeme hs (hclear b hb).1 (hclear b hb).2, lexeme_word hs hb]
  refine ⟨?_, hmore⟩
  change TokenKind.ofWord (s.rest.take (_ - s.offset)) = _
  rw [htakes.offset, Nat.add_sub_cancel_left, htakes.rest, List.take_left]
  rfl

/-- A mark that no longer one begins with. -/
theorem gives_mark (hs : s.rest = b :: more) (ho : operators (byteChar b) = some (k, []))
    (hblank : isBlank b = false) (hslash : byteChar b ≠ '/') : s.Gives k more := by
  have hnone : s.bump.peek.bind (fun b => ([] : List (Char × TokenKind)).lookup (byteChar b)) =
      none := by cases s.bump.peek <;> rfl
  rw [Gives, next_eq_lexeme hs hblank hslash, lexeme_operator hs ho]
  simp only [operator, hnone]
  exact ⟨rfl, by rw [make, rest_bump, hs]; rfl⟩

/-- A mark of two characters. -/
theorem gives_pair (hs : s.rest = b :: c :: more)
    (ho : operators (byteChar b) = some (alone, longer)) (hl : longer.lookup (byteChar c) = some k)
    (hblank : isBlank b = false) (hslash : byteChar b ≠ '/') : s.Gives k more := by
  have hpeek : s.bump.peek = some c := by rw [peek, rest_bump, hs]; rfl
  rw [Gives, next_eq_lexeme hs hblank hslash, lexeme_operator hs ho]
  simp only [operator, hpeek, Option.bind_some, hl]
  exact ⟨rfl, by rw [make, rest_bump, rest_bump, hs]; rfl⟩

theorem gives_ellipsis (hs : s.rest = point :: point :: point :: more) :
    s.Gives .ellipsis more := by
  have hrest : s.bump.rest = point :: point :: more := by rw [rest_bump, hs]; rfl
  have hlexeme : s.lexeme = s.dots s.bump := by
    simp only [lexeme, hs]
    rfl
  rw [Gives, next_eq_lexeme hs (by decide) (by decide), hlexeme, dots, if_pos]
  · exact ⟨rfl, by rw [make, rest_skip, hrest]; rfl⟩
  · rw [peek, peekSecond, hrest]
    exact ⟨rfl, rfl⟩

end Scanner

theorem named_keyword {k : TokenKind} (h : k.isKeyword = true) : Named (utf8 k.describe) := by
  have hall : ∀ k ∈ TokenKind.all, k.isKeyword = true →
      ((utf8 k.describe).head?.any startsName && (utf8 k.describe).tail.all continuesName) =
        true := by
    decide +kernel
  obtain ⟨hhead, htail⟩ := Bool.and_eq_true_iff.1 (hall k (mem_all k) h)
  obtain ⟨b, hb, hstarts⟩ := (Option.any_eq_true _ _).1 hhead
  obtain ⟨tail, hword⟩ := List.head?_eq_some_iff.1 hb
  rw [hword] at htail ⊢
  exact ⟨b, tail, rfl, hstarts, List.all_eq_true.1 htail⟩

/-- The kinds of the tokens in texts of types are told by their spellings; a keyword only where no
longer word stands. -/
theorem Scanner.gives_typeKind {s : Scanner} {k : TokenKind} {more : List UInt8}
    (hk : k ∈ TokenKind.typeKinds) (hs : s.rest = utf8 k.describe ++ more)
    (hm : k.isKeyword = true → EndsWord more) : s.Gives k more := by
  by_cases hkeyword : k.isKeyword = true
  · have hgives := gives_word (named_keyword hkeyword) hs (hm hkeyword)
    rwa [ofWord_keyword hkeyword] at hgives
  · have hmarks : k ∈ TokenKind.typeKinds.filter (!·.isKeyword) :=
      List.mem_filter.2 ⟨hk, by simpa using hkeyword⟩
    have hfilter : TokenKind.typeKinds.filter (!·.isKeyword) =
        [.openParen, .closeParen, .comma, .ellipsis, .thinArrow] := by decide
    rw [hfilter] at hmarks
    simp only [List.mem_cons, List.not_mem_nil, or_false] at hmarks
    rcases hmarks with rfl | rfl | rfl | rfl | rfl
    · exact gives_mark hs rfl (by decide) (by decide)
    · exact gives_mark hs rfl (by decide) (by decide)
    · exact gives_mark hs rfl (by decide) (by decide)
    · exact gives_ellipsis hs
    · exact gives_pair hs rfl rfl (by decide) (by decide)

theorem Scanner.gives_end {s : Scanner} (hs : s.rest = []) : s.next.1.kind = .eof := by
  have hclear : s.Clear := fun b hb => by simp [peek, hs] at hb
  rw [next_of_passed (skipTrivia_of_clear hclear), lexeme_end hs]
  rfl

theorem endsWord_spelling {ks : List TokenKind} (hkinds : ∀ k ∈ ks, k ∈ TokenKind.typeKinds)
    (hmarks : ∀ k ∈ ks.head?, k.isKeyword = false) : EndsWord (TokenKind.spelling ks) := by
  have hall : ∀ k ∈ TokenKind.typeKinds, k.isKeyword = false →
      ((utf8 k.describe).head?.any (!continuesName ·)) = true := by
    decide +kernel
  cases ks with
  | nil => exact nofun
  | cons k ks =>
    obtain ⟨c, hc, hends⟩ :=
      (Option.any_eq_true _ _).1 (hall k (hkinds k List.mem_cons_self) (hmarks k rfl))
    obtain ⟨tail, hspelled⟩ := List.head?_eq_some_iff.1 hc
    intro b hb
    rw [TokenKind.spelling, List.flatMap_cons, hspelled] at hb
    cases hb
    simpa using hends

namespace Window

variable {w : Window} {s : Scanner} {k : TokenKind} {ks : List TokenKind}

/-- The tokens in front are of these kinds. -/
def Begins (w : Window) (ks : List TokenKind) : Prop := (w.take ks.length).map Token.kind = ks

theorem begins_cons : w.Begins (k :: ks) ↔ w.current.kind = k ∧ w.bump.Begins ks := by
  simp [Begins, take]

/-- A text that is such a row of tokens is read as that row. -/
theorem Shows.begins (h : w.Shows s) (hs : s.rest = TokenKind.spelling ks)
    (hkinds : ∀ k ∈ ks, k ∈ TokenKind.typeKinds) (hapart : ks.IsChain TokenKind.Apart) :
    w.Begins (ks ++ [.eof]) := by
  induction ks generalizing w s with
  | nil => exact begins_cons.2 ⟨(congrArg Token.kind h.current).trans (s.gives_end hs), rfl⟩
  | cons k ks ih =>
    obtain ⟨hk, hkinds⟩ := List.forall_mem_cons.1 hkinds
    obtain ⟨hnext, hapart⟩ := List.isChain_cons.1 hapart
    have hends : k.isKeyword = true → EndsWord (TokenKind.spelling ks) := fun hkeyword =>
      endsWord_spelling hkinds fun l hl => hnext l hl hkeyword
    obtain ⟨hkind, hrest⟩ := Scanner.gives_typeKind hk hs hends
    exact begins_cons.2 ⟨(congrArg Token.kind h.current).trans hkind,
      ih h.bump hrest hkinds hapart⟩

end Window

end FrontEnd
