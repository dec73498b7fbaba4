import FrontEnd.Proofs.Token.Coverage

/-!
The error tokens of a text: each stands further on than those before it, and a window that has come
to the end of the text has passed them all. How many tokens are still to come.
-/

namespace FrontEnd

/-! ### Error tokens -/

/-- Line and column, in reading order. -/
def Token.place (t : Token) : Nat ×ₗ Nat := toLex (t.line, t.col)

namespace Scanner

variable {s t : Scanner}

theorem place_number (start s : Scanner) : (start.number s).1.place = start.place := by
  have hclose (t : Scanner) (kind : TokenKind) :
      (start.closeNumber t kind).1.place = start.place := by
    unfold closeNumber
    split <;> rfl
  unfold number
  dsimp only
  repeat' split
  all_goals exact hclose _ _

theorem place_charLiteral (start s : Scanner) : (start.charLiteral s).1.place = start.place := by
  have hclose (t : Scanner) : (start.closeChar t).1.place = start.place := by
    unfold closeChar
    repeat' split
    all_goals rfl
  unfold charLiteral
  repeat' split
  all_goals first | rfl | exact hclose _

theorem place_lexeme (s : Scanner) : s.lexeme.1.place = s.place := by
  unfold lexeme
  split
  · rfl
  · split
    · unfold operator
      split <;> rfl
    · repeat' split
      · unfold dots
        split <;> rfl
      · unfold string
        split <;> rfl
      · exact place_charLiteral _ _
      · exact place_number _ _
      · unfold tag
        repeat' split
        all_goals rfl
      · rfl
      · rfl

/-- A token is placed where it starts, and the next one starts behind it. -/
theorem place_next (hk : s.next.1.kind ≠ .eof) :
    s.place ≤ s.next.1.place ∧ s.next.1.place < s.next.2.place := by
  have hpasses := passes_skipTrivia s
  cases ht : s.skipTrivia with
  | passed t =>
    rw [ht] at hpasses
    rw [next_of_passed ht] at hk ⊢
    have hrest : t.rest ≠ [] := fun hrest => hk (by rw [lexeme_end hrest]; rfl)
    rw [place_lexeme]
    exact ⟨hpasses.place_le, (finds_lexeme t).passes.place_lt (length_lexeme t hrest)⟩
  | unterminated start stop =>
    have hgap := passesGap_skipTrivia s
    rw [ht] at hpasses hgap
    obtain ⟨gap, -, -, word, hne, hword, -⟩ := hgap
    rw [next_of_unterminated ht]
    refine ⟨hpasses.1.place_le, hpasses.2.place_lt ?_⟩
    have := List.length_pos_iff.2 hne
    rw [hword.rest, List.length_append]
    omega

/-- At the end there is nothing but the end. -/
theorem next_next_eof (hk : s.next.1.kind = .eof) : s.next.2.next.1.kind = .eof := by
  cases ht : s.skipTrivia with
  | passed t =>
    rw [next_of_passed ht] at hk ⊢
    have hrest : t.rest = [] := Decidable.byContradiction fun hne => (proper_lexeme hne).2 hk
    have hskip : t.skipTrivia = .passed t := by
      unfold skipTrivia
      split
      · rfl
      · simp_all
    rw [lexeme_end hrest, show (t.make t .eof).2 = t from rfl, next_of_passed hskip,
      lexeme_end hrest]
    rfl
  | unterminated start stop =>
    rw [next_of_unterminated ht] at hk
    cases hk

theorem tokens_eof (hk : s.next.1.kind = .eof) : s.tokens.map Prod.fst = [s.next.1] := by
  rw [tokens]
  split
  simp_all

theorem tokens_cons (hk : s.next.1.kind ≠ .eof) :
    s.tokens.map Prod.fst = s.next.1 :: s.next.2.tokens.map Prod.fst := by
  rw [tokens]
  split
  simp_all

end Scanner

namespace Window

variable {w : Window} {s : Scanner} {n : Nat}

/-- The error tokens among the next so many tokens. -/
def errors (w : Window) (n : Nat) : List Token := (w.take n).filter (·.kind == .error)

theorem errors_succ (w : Window) (n : Nat) :
    w.errors (n + 1) = [w.current].filter (·.kind == .error) ++ w.bump.errors n := by
  rw [errors, take, ← List.singleton_append, List.filter_append]
  rfl

theorem errors_add (w : Window) (i j : Nat) :
    w.errors (i + j) = w.errors i ++ (w.drop i).errors j := by
  rw [errors, take_add, List.filter_append]
  rfl

theorem Marked.errors (h : w.Marked) (n : Nat) : ∀ t ∈ w.errors n, t.error ≠ none := by
  induction n generalizing w with
  | zero => exact List.forall_mem_nil _
  | succ n ih =>
    rw [errors_succ]
    intro t ht
    rcases List.mem_append.1 ht with ht | ht
    · obtain ⟨hmem, hkind⟩ := List.mem_filter.1 ht
      obtain rfl := List.mem_singleton.1 hmem
      exact h.1 (beq_iff_eq.1 hkind)
    · exact ih h.bump t ht

/-- The tokens that are passed over at the front are error tokens. -/
theorem skipErrors_errors (w : Window) :
    ∃ n, w.skipErrors = (w.errors n, w.drop n) ∧ (w.drop n).current.kind ≠ .error := by
  induction hw : w.unread using Nat.strongRecOn generalizing w with
  | ind size ih =>
    by_cases h : w.current.kind = .error
    · have hlt := unread_bump (w := w) (by simp [h])
      obtain ⟨n, hn, hkind⟩ := ih _ (by omega) w.bump rfl
      exact ⟨n + 1, by simp [skipErrors_error h, hn, errors_succ, h, drop_succ], hkind⟩
    · exact ⟨0, by rw [skipErrors_of_ne h]; rfl, h⟩

/-- The window shows the tokens that a scanner finds. -/
structure Shows (w : Window) (s : Scanner) : Prop where
  current : w.current = s.next.1
  next : w.next = s.next.2.next.1
  scanner : w.scanner = s.next.2.next.2

theorem shows_ofText (text : String) :
    (ofText text).Shows (Scanner.ofBytes text.toUTF8.data.toList) := ⟨rfl, rfl, rfl⟩

theorem Shows.bump (h : w.Shows s) : w.bump.Shows s.next.2 :=
  ⟨h.next, congrArg (·.next.1) h.scanner, congrArg (·.next.2) h.scanner⟩

/-- Error tokens stand in reading order, no two at one place. -/
theorem Shows.errors_ordered (h : w.Shows s) (n : Nat) : (∀ t ∈ w.errors n, s.place ≤ t.place) ∧
    (w.errors n).Pairwise fun t u => t.place < u.place := by
  induction n generalizing w s with
  | zero => exact ⟨List.forall_mem_nil _, .nil⟩
  | succ n ih =>
    obtain ⟨hfirst, hordered⟩ := ih h.bump
    have hrest : ∀ t ∈ w.bump.errors n, s.place ≤ t.place := fun t ht =>
      (Scanner.finds_next s).passes.place_le.trans (hfirst t ht)
    rw [errors_succ]
    by_cases hk : w.current.kind = .error
    · obtain ⟨hle, hlt⟩ := Scanner.place_next (s := s) (by rw [← h.current, hk]; decide)
      rw [← h.current] at hle hlt
      simp only [List.filter_cons, hk, beq_self_eq_true, if_true, List.filter_nil,
        List.singleton_append, List.forall_mem_cons, List.pairwise_cons]
      exact ⟨⟨hle, hrest⟩, fun t ht => hlt.trans_le (hfirst t ht), hordered⟩
    · simp only [List.filter_cons, beq_eq_false_iff_ne.2 hk, Bool.false_eq_true, if_false,
        List.filter_nil, List.nil_append]
      exact ⟨hrest, hordered⟩

/-- A window at the end of the text has passed all error tokens. -/
theorem Shows.errors_eq (h : w.Shows s) (hend : (w.drop n).atEnd = true) :
    w.errors n = (s.tokens.map Prod.fst).filter (·.kind == .error) := by
  induction n generalizing w s with
  | zero =>
    have hk : s.next.1.kind = .eof := h.current ▸ beq_iff_eq.1 hend
    rw [Scanner.tokens_eof hk]
    simp [errors, take, hk]
  | succ n ih =>
    have hrest := ih h.bump hend
    rw [errors_succ, hrest, h.current]
    by_cases hk : s.next.1.kind = .eof
    · rw [Scanner.tokens_eof hk, Scanner.tokens_eof (Scanner.next_next_eof hk)]
      simp [Scanner.next_next_eof hk]
    · rw [Scanner.tokens_cons hk, ← List.filter_append, List.singleton_append]

theorem errors_ofText {text : String} (hend : ((ofText text).drop n).atEnd = true) :
    (ofText text).errors n = (tokenize text).filter (·.kind == .error) :=
  (shows_ofText text).errors_eq hend

end Window

/-! ### What is left -/

theorem Scanner.length_tokens (s : Scanner) :
    s.tokens.length - 1 = if s.next.1.kind = .eof then 0 else s.next.2.tokens.length := by
  split
  next hk =>
    have hlen := congrArg List.length (tokens_eof hk)
    rw [List.length_map, List.length_singleton] at hlen
    rw [hlen]
  next hk =>
    have hlen := congrArg List.length (tokens_cons hk)
    rw [List.length_map, List.length_cons, List.length_map] at hlen
    rw [hlen, Nat.add_sub_cancel]

theorem Scanner.length_tokens_pos (s : Scanner) : 0 < s.tokens.length := by
  rw [tokens]
  split
  exact Nat.succ_pos _

theorem Scanner.length_tokens_le (s : Scanner) : s.tokens.length ≤ s.rest.length + 1 := by
  induction hn : s.rest.length using Nat.strongRecOn generalizing s with
  | ind n ih =>
    have hlen := s.length_tokens
    split at hlen
    next => omega
    next hk =>
      have hlt := (length_next s).resolve_left hk
      have := ih _ (hn ▸ hlt) s.next.2 rfl
      omega

namespace Window

variable {w : Window} {n : Nat}

/-- Tokens still to come before the end of the text. -/
def left (w : Window) : Nat :=
  w.scanner.tokens.length - 1 + (w.next.kind != .eof).toNat + (w.current.kind != .eof).toNat

/-- A token that leaves the window is no longer to come. -/
theorem left_bump (w : Window) : w.bump.left + (w.current.kind != .eof).toNat = w.left := by
  have hscan : w.scanner.next.2.tokens.length - 1 + (w.scanner.next.1.kind != .eof).toNat =
      w.scanner.tokens.length - 1 := by
    rw [w.scanner.length_tokens]
    by_cases hk : w.scanner.next.1.kind = .eof
    · rw [if_pos hk, Scanner.length_tokens, if_pos (Scanner.next_next_eof hk)]
      simp [hk]
    · have := w.scanner.next.2.length_tokens_pos
      have hone : (w.scanner.next.1.kind != .eof).toNat = 1 := by simp [hk]
      rw [if_neg hk]
      omega
  change w.scanner.next.2.tokens.length - 1 + (w.scanner.next.1.kind != .eof).toNat +
    (w.next.kind != .eof).toNat + _ = _
  rw [hscan]
  rfl

theorem left_le_unread (w : Window) : w.left ≤ w.unread := by
  have := w.scanner.length_tokens_le
  unfold left unread
  omega

theorem left_bump_lt (h : w.current.kind ≠ .eof) : w.bump.left < w.left := by
  have hbump := w.left_bump
  have hcurrent : (w.current.kind != .eof).toNat = 1 := by simp [h]
  omega

theorem left_drop_le (w : Window) (n : Nat) : (w.drop n).left ≤ w.left := by
  induction n generalizing w with
  | zero => exact Nat.le_refl _
  | succ n ih =>
    have := ih w.bump
    have := w.left_bump
    rw [drop_succ]
    omega

/-- A window further on has fewer tokens left, unless it is the same. -/
theorem left_drop_lt (h : w.atEnd = false) (hn : w.drop n ≠ w) : (w.drop n).left < w.left := by
  cases n with
  | zero => exact absurd rfl hn
  | succ n =>
    have hkind : w.current.kind ≠ .eof := by simpa [atEnd, currentIs] using h
    exact (left_drop_le w.bump n).trans_lt (left_bump_lt hkind)

end Window

end FrontEnd
