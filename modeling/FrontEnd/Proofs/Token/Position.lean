import FrontEnd.Token.Window

/-! Places in the tokens of a text, counted from a window. Every error token carries its error. -/

namespace FrontEnd

/-! ### Places -/

namespace Window

variable {w : Window} {i j n : Nat} {t : Token} {ts xs ys : List Token}

/-- The window after so many tokens, of whatever kind. -/
def drop : Nat → Window → Window
  | 0, w => w
  | n + 1, w => drop n w.bump

/-- The next tokens, so many of them. -/
def take : Nat → Window → List Token
  | 0, _ => []
  | n + 1, w => w.current :: take n w.bump

@[simp] theorem drop_zero (w : Window) : w.drop 0 = w := rfl

theorem drop_succ (w : Window) (n : Nat) : w.drop (n + 1) = w.bump.drop n := rfl

@[simp] theorem length_take (w : Window) (n : Nat) : (w.take n).length = n := by
  induction n generalizing w with
  | zero => rfl
  | succ n ih => simp [take, ih]

theorem drop_drop (w : Window) (i j : Nat) : (w.drop i).drop j = w.drop (i + j) := by
  induction i generalizing w with
  | zero => simp
  | succ i ih => rw [Nat.succ_add, drop_succ, drop_succ, ih]

theorem bump_drop (w : Window) (n : Nat) : (w.drop n).bump = w.drop (n + 1) := by
  rw [← drop_drop w n 1, drop_succ, drop_zero]

theorem take_add (w : Window) (i j : Nat) : w.take (i + j) = w.take i ++ (w.drop i).take j := by
  induction i generalizing w with
  | zero => simp [take]
  | succ i ih => rw [Nat.succ_add, take, take, ih, drop_succ, List.cons_append]

theorem take_one_add (w : Window) (n : Nat) : w.take (1 + n) = w.current :: (w.drop 1).take n := by
  rw [take_add]
  rfl

theorem take_add_one (w : Window) (n : Nat) :
    w.take (n + 1) = w.take n ++ [(w.drop n).current] := by
  rw [take_add]
  rfl

@[simp] theorem source_drop (w : Window) (n : Nat) : (w.drop n).source = w.source := by
  induction n generalizing w with
  | zero => rfl
  | succ n ih => rw [drop_succ, ih]; rfl

/-- One step of the passing over error tokens. -/
theorem skipErrors_error (h : w.current.kind = .error) :
    w.skipErrors = (w.current :: w.bump.skipErrors.1, w.bump.skipErrors.2) := by
  rw [skipErrors, dif_pos h]

theorem skipErrors_of_ne (h : w.current.kind ≠ .error) : w.skipErrors = ([], w) := by
  rw [skipErrors, dif_neg h]

/-- Error tokens at the front are passed over one by one, up to a token of another kind. -/
theorem skipErrors_eq (w : Window) : ∃ n, w.skipErrors = (w.take n, w.drop n) ∧
    (w.drop n).current.kind ≠ .error := by
  induction hw : w.unread using Nat.strongRecOn generalizing w with
  | ind size ih =>
    by_cases h : w.current.kind = .error
    · have hlt := unread_bump (w := w) (by simp [h])
      obtain ⟨n, hn, hkind⟩ := ih _ (by omega) w.bump rfl
      exact ⟨n + 1, by rw [skipErrors_error h, hn, take, drop_succ], hkind⟩
    · exact ⟨0, by rw [skipErrors_of_ne h, take, drop_zero], h⟩

/-- Tokens before the end of the text are all unread. -/
theorem le_unread (h : ∀ t ∈ w.take n, t.kind ≠ .eof) : n ≤ w.unread := by
  induction n generalizing w with
  | zero => exact Nat.zero_le _
  | succ n ih =>
    rw [take] at h
    have hlt := unread_bump (w := w) (h _ (by simp))
    have := ih fun t ht => h t (List.mem_cons_of_mem _ ht)
    omega

/-! ### What is in front -/

/-- The next tokens are these. -/
def Ahead (w : Window) (ts : List Token) : Prop := w.take ts.length = ts

theorem ahead_take (w : Window) (n : Nat) : w.Ahead (w.take n) := by
  unfold Ahead
  rw [length_take]

theorem ahead_cons : w.Ahead (t :: ts) ↔ w.current = t ∧ w.bump.Ahead ts := by
  simp [Ahead, take]

theorem ahead_append : w.Ahead (xs ++ ys) ↔ w.Ahead xs ∧ (w.drop xs.length).Ahead ys := by
  unfold Ahead
  rw [List.length_append, take_add]
  refine ⟨fun h => List.append_inj h (by simp), fun ⟨hx, hy⟩ => ?_⟩
  rw [hx, hy]

end Window

/-! ### Errors -/

/-- A token of kind `error` says what is wrong. -/
def Token.Marked (t : Token) : Prop := t.kind = .error → t.error ≠ none

/-- A token that is not the end of the text. -/
def Token.Proper (t : Token) : Prop := t.Marked ∧ t.kind ≠ .eof

namespace Scanner

variable {s t start stop : Scanner} {kind : TokenKind}

theorem proper_make (h : kind ≠ .error ∧ kind ≠ .eof) : (make start stop kind).1.Proper :=
  ⟨fun hk => absurd hk h.1, h.2⟩

theorem proper_fail (error : LexicalError) : (fail start stop error).1.Proper :=
  ⟨fun _ => by simp [fail], nofun⟩

theorem operators_ne {c : Char} {longer : List (Char × TokenKind)}
    (h : operators c = some (kind, longer)) :
    (kind ≠ .error ∧ kind ≠ .eof) ∧ ∀ p ∈ longer, p.2 ≠ .error ∧ p.2 ≠ .eof := by
  unfold operators at h
  split at h <;> simp only [Option.some.injEq, Prod.mk.injEq, reduceCtorEq] at h <;>
    (obtain ⟨rfl, rfl⟩ := h; decide)

theorem proper_operator {alone : TokenKind} {longer : List (Char × TokenKind)}
    (ha : alone ≠ .error ∧ alone ≠ .eof) (hl : ∀ p ∈ longer, p.2 ≠ .error ∧ p.2 ≠ .eof) :
    (start.operator s alone longer).1.Proper := by
  unfold operator
  split
  · rename_i kind hk
    obtain ⟨b, -, hb⟩ := Option.bind_eq_some_iff.1 hk
    obtain ⟨l, r, rfl, -⟩ := List.lookup_eq_some_iff.1 hb
    exact proper_make (hl (byteChar b, kind) (by simp))
  · exact proper_make ha

theorem proper_closeNumber (hk : kind ≠ .error ∧ kind ≠ .eof) :
    (start.closeNumber s kind).1.Proper := by
  unfold closeNumber
  split
  · exact proper_fail _
  · exact proper_make hk

theorem proper_number (start s : Scanner) : (start.number s).1.Proper := by
  unfold number
  dsimp only
  repeat' split
  all_goals exact proper_closeNumber (by decide)

theorem proper_charLiteral (start s : Scanner) : (start.charLiteral s).1.Proper := by
  have hclose (t : Scanner) : (start.closeChar t).1.Proper := by
    unfold closeChar
    split
    · exact proper_make (by decide)
    · split <;> exact proper_fail _
  unfold charLiteral
  repeat' split
  all_goals first | exact proper_fail _ | exact hclose _

theorem proper_tag (start s : Scanner) : (start.tag s).1.Proper := by
  unfold tag
  repeat' split
  all_goals first | exact proper_fail _ | exact proper_make (by decide)

theorem ifEnds_ne {tail : String} {rest : List Char} (h : kind ≠ .error ∧ kind ≠ .eof) :
    TokenKind.ifEnds kind tail rest ≠ .error ∧ TokenKind.ifEnds kind tail rest ≠ .eof := by
  unfold TokenKind.ifEnds
  split
  · exact h
  · decide

/-- No word reads like an error or the end. -/
theorem ofLetters_ne (word : List Char) :
    TokenKind.ofLetters word ≠ .error ∧ TokenKind.ofLetters word ≠ .eof := by
  unfold TokenKind.ofLetters
  split
  · unfold TokenKind.afterB
    split <;> first | decide | (refine ifEnds_ne ?_; decide)
  · unfold TokenKind.afterC
    split <;> first | decide | (refine ifEnds_ne ?_; decide)
  · unfold TokenKind.afterD
    split <;> first | decide | (refine ifEnds_ne ?_; decide)
  · unfold TokenKind.afterE
    split <;> first | decide | (refine ifEnds_ne ?_; decide)
  · unfold TokenKind.afterF
    split <;> first | decide | (refine ifEnds_ne ?_; decide)
  · unfold TokenKind.afterI
    split <;> first | decide | (refine ifEnds_ne ?_; decide)
  · exact ifEnds_ne (by decide)
  · exact ifEnds_ne (by decide)
  · unfold TokenKind.afterN
    split <;> first | decide | (refine ifEnds_ne ?_; decide)
  · unfold TokenKind.afterO
    split <;> first | decide | (refine ifEnds_ne ?_; decide)
  · exact ifEnds_ne (by decide)
  · exact ifEnds_ne (by decide)
  · unfold TokenKind.afterS
    split <;> first | decide | (refine ifEnds_ne ?_; decide)
  · unfold TokenKind.afterT
    split <;> first | decide | (refine ifEnds_ne ?_; decide)
  · unfold TokenKind.afterU
    split <;> first | decide | (refine ifEnds_ne ?_; decide)
  · exact ifEnds_ne (by decide)
  · exact ifEnds_ne (by decide)
  · decide

theorem proper_lexeme (h : s.rest ≠ []) : s.lexeme.1.Proper := by
  unfold lexeme
  split
  next hs => exact absurd hs h
  next =>
    split
    next alone longer ho =>
      obtain ⟨ha, hl⟩ := operators_ne ho
      exact proper_operator ha hl
    next =>
      repeat' split
      · unfold dots
        split <;> exact proper_make (by decide)
      · unfold string
        split
        · exact proper_make (by decide)
        · exact proper_fail _
      · exact proper_charLiteral _ _
      · exact proper_number _ _
      · exact proper_tag _ _
      · exact proper_make (ofLetters_ne _)
      · exact proper_fail _

theorem lexeme_end (h : s.rest = []) : s.lexeme = s.make s .eof := by
  simp only [lexeme, h]

theorem marked_lexeme (s : Scanner) : s.lexeme.1.Marked := by
  by_cases h : s.rest = []
  · rw [lexeme_end h]
    exact nofun
  · exact (proper_lexeme h).1

theorem marked_next (s : Scanner) : s.next.1.Marked := by
  unfold next
  split
  · exact marked_lexeme _
  · exact (proper_fail _).1

end Scanner

namespace Window

variable {w : Window}

/-- Both tokens in view say what is wrong with them. -/
def Marked (w : Window) : Prop := w.current.Marked ∧ w.next.Marked

theorem marked_ofText (text : String) : (ofText text).Marked :=
  ⟨Scanner.marked_next _, Scanner.marked_next _⟩

theorem Marked.bump (h : w.Marked) : w.bump.Marked := ⟨h.2, Scanner.marked_next _⟩

theorem Marked.drop (h : w.Marked) (n : Nat) : (w.drop n).Marked := by
  induction n generalizing w with
  | zero => exact h
  | succ n ih => exact ih h.bump

end Window

end FrontEnd
