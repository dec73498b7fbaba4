import FrontEnd.Proofs.Token.Coverage

/-!
A token depends on its own bytes and on where they end: with a blank behind them, or nothing, the
same bytes are the same token.
-/

namespace FrontEnd

/-- Nothing, or bytes of which the first is blank. -/
def Blank (bytes : List UInt8) : Prop := ∀ b ∈ bytes.head?, b ∈ [32, 9, 13, lineFeed]

theorem isBlank_iff {b : UInt8} : isBlank b = true ↔ b ∈ [32, 9, 13, lineFeed] := by
  simp [isBlank, or_assoc]

theorem Blank.not {bytes : List UInt8} (h : Blank bytes) {p : UInt8 → Bool}
    (hp : ∀ b ∈ [32, 9, 13, lineFeed], p b = false) : ∀ b ∈ bytes.head?, p b = false :=
  fun b hb => hp b (h b hb)

namespace Scanner

variable {s s' t u start start' : Scanner} {rest more word : List UInt8} {p : UInt8 → Bool}
  {kind alone : TokenKind} {longer : List (Char × TokenKind)} {b : UInt8}

/-- The same bytes are in front of both, before `rest` and before `more`. -/
structure Beside (rest more word : List UInt8) (s s' : Scanner) : Prop where
  left : s.rest = word ++ rest
  right : s'.rest = word ++ more

/-- A token that ends before `rest` is found in both. -/
def Alike (rest more : List UInt8) (r r' : Token × Scanner) : Prop :=
  r.1.kind ≠ .error → r.2.rest = rest → r'.1.kind = r.1.kind ∧ r'.2.rest = more

theorem peek_eq_some (h : s.peek = some b) : ∃ after, s.rest = b :: after :=
  List.head?_eq_some_iff.1 h

theorem length_bump_lt (h : s.peek = some b) : s.bump.rest.length < s.rest.length := by
  obtain ⟨after, hs⟩ := peek_eq_some h
  simp [hs]

/-- Bytes at which a string literal ends, or is escaped. -/
def endsString (b : UInt8) : Bool := b == quotationMark || b == backslash

theorem closeString_quote (hu : s.skipTo? endsString = some u) (hb : u.peek = some quotationMark) :
    s.closeString = .ok u.bump := by
  obtain ⟨after, hrest⟩ := peek_eq_some hb
  fun_cases closeString s with
  | case1 h => exact absurd (hu.symm.trans h) nofun
  | case2 v h hnil =>
    obtain rfl : u = v := Option.some.inj (hu.symm.trans h)
    exact absurd (hrest.symm.trans hnil) nofun
  | case3 v h => rw [Option.some.inj (hu.symm.trans h)]
  | case4 v h c after' hcons hne =>
    obtain rfl : u = v := Option.some.inj (hu.symm.trans h)
    obtain ⟨rfl, -⟩ := List.cons.inj (hrest.symm.trans hcons)
    exact absurd rfl hne

theorem closeString_escape (hu : s.skipTo? endsString = some u) (hb : u.peek = some b)
    (hne : b ≠ quotationMark) : s.closeString = u.bump.bumpChar.closeString := by
  obtain ⟨after, hrest⟩ := peek_eq_some hb
  fun_cases closeString s with
  | case1 h => exact absurd (hu.symm.trans h) nofun
  | case2 v h hnil =>
    obtain rfl : u = v := Option.some.inj (hu.symm.trans h)
    exact absurd (hrest.symm.trans hnil) nofun
  | case3 v h after' hcons =>
    obtain rfl : u = v := Option.some.inj (hu.symm.trans h)
    exact absurd (List.cons.inj (hrest.symm.trans hcons)).1 hne
  | case4 v h => rw [Option.some.inj (hu.symm.trans h)]

theorem length_closeString_lt (h : s.closeString = .ok t) : t.rest.length < s.rest.length := by
  fun_induction closeString s with
  | case1 | case2 => cases h
  | case3 s u hu after hb =>
    have := length_skipTo?_le hu
    cases h
    simp [hb] at this ⊢
    omega
  | case4 s u hu b after hb _ ih =>
    have := length_skipTo?_le hu
    have := length_bump_le u
    have := length_bumpChar_le u.bump
    have := length_bump_le u.bump
    have := ih h
    omega

namespace Beside

/-- Nothing is left of the bytes in front of both. -/
theorem done (h : Beside rest more word s s') (hr : s.rest = rest) :
    word = [] ∧ s'.rest = more := by
  have hnil : word = [] := List.append_left_eq_self.1 (h.left.symm.trans hr)
  exact ⟨hnil, h.right.trans (by rw [hnil, List.nil_append])⟩

theorem bump (h : Beside rest more (b :: word) s s') : Beside rest more word s.bump s'.bump :=
  ⟨by rw [rest_bump, h.left]; rfl, by rw [rest_bump, h.right]; rfl⟩

theorem cons (h : Beside rest more word s s') (hl : rest.length < s.rest.length) :
    ∃ b tail, word = b :: tail ∧ s.peek = some b ∧ s'.peek = some b := by
  cases word with
  | nil => simp [h.left] at hl
  | cons b tail => exact ⟨b, tail, rfl, by simp [peek, h.left], by simp [peek, h.right]⟩

theorem eatWhile (h : Beside rest more word s s') (hm : ∀ b ∈ more.head?, p b = false)
    (hl : rest.length ≤ (s.eatWhile p).rest.length) :
    ∃ tail, Beside rest more tail (s.eatWhile p) (s'.eatWhile p) := by
  rw [rest_eatWhile, h.left, List.dropWhile_append] at hl
  by_cases hempty : (word.dropWhile p).isEmpty
  · rw [if_pos hempty] at hl
    have hrest : rest.dropWhile p = rest :=
      (List.dropWhile_suffix p).eq_of_length (Nat.le_antisymm
        (List.dropWhile_suffix p).length_le hl)
    have hmore : more.dropWhile p = more := by
      cases more with
      | nil => rfl
      | cons b more => rw [List.dropWhile_cons, if_neg (by simp [hm b rfl])]
    refine ⟨[], ?_, ?_⟩
    · rw [rest_eatWhile, h.left, List.dropWhile_append, if_pos hempty, hrest, List.nil_append]
    · rw [rest_eatWhile, h.right, List.dropWhile_append, if_pos hempty, hmore, List.nil_append]
  · refine ⟨word.dropWhile p, ?_, ?_⟩
    · rw [rest_eatWhile, h.left, List.dropWhile_append, if_neg hempty]
    · rw [rest_eatWhile, h.right, List.dropWhile_append, if_neg hempty]

theorem bumpChar (h : Beside rest more (b :: word) s s') (hm : Blank more)
    (hl : rest.length ≤ s.bumpChar.rest.length) :
    ∃ tail, Beside rest more tail s.bumpChar s'.bumpChar :=
  h.bump.eatWhile (hm.not (by decide +kernel)) hl

theorem skipTo? (h : Beside rest more word s s') (ht : s.skipTo? p = some t)
    (hl : rest.length < t.rest.length) :
    ∃ tail t', s'.skipTo? p = some t' ∧ Beside rest more tail t t' := by
  obtain ⟨len, hlen, rfl⟩ := Option.map_eq_some_iff.1 ht
  rw [h.left, List.findIdx?_append] at hlen
  cases hin : word.findIdx? p with
  | some n =>
    rw [hin, Option.some_or] at hlen
    cases hlen
    have hlt := (List.findIdx?_eq_some_iff_getElem.1 hin).1
    refine ⟨word.drop len, s'.skip len, ?_, ?_, ?_⟩
    · rw [Scanner.skipTo?, h.right, List.findIdx?_append, hin, Option.some_or, Option.map_some]
    · rw [rest_skip, h.left, List.drop_append_of_le_length (Nat.le_of_lt hlt)]
    · rw [rest_skip, h.right, List.drop_append_of_le_length (Nat.le_of_lt hlt)]
  | none =>
    rw [hin, Option.none_or] at hlen
    obtain ⟨n, -, rfl⟩ := Option.map_eq_some_iff.1 hlen
    rw [rest_skip, h.left, List.length_drop, List.length_append] at hl
    omega

theorem closeString (h : Beside rest more word s s') (hm : Blank more)
    (hc : s.closeString = .ok t) (hr : t.rest = rest) :
    ∃ t', s'.closeString = .ok t' ∧ t'.rest = more := by
  fun_induction Scanner.closeString s generalizing s' word with
  | case1 | case2 => cases hc
  | case3 s u hu after hb =>
    cases hc
    have hlt : rest.length < u.rest.length := by simp [← hr, hb]
    obtain ⟨tail, u', hu', hbeside⟩ := h.skipTo? hu hlt
    obtain ⟨b, tail, rfl, hpeek, hpeek'⟩ := hbeside.cons hlt
    obtain rfl : quotationMark = b := by simpa [peek, hb] using hpeek
    exact ⟨u'.bump, closeString_quote hu' hpeek', (hbeside.bump.done hr).2⟩
  | case4 s u hu b after hb hquote ih =>
    -- What the escape takes ends before the closing quotation mark, so it is the same in both.
    have hlast := length_closeString_lt hc
    have hchar := length_bumpChar_le u.bump
    have hbump := length_bump_le u.bump
    have hstep := length_bump_le u
    rw [hr] at hlast
    obtain ⟨tail, u', hu', hbeside⟩ := h.skipTo? hu (by omega)
    obtain ⟨c, tail, rfl, hpeek, hpeek'⟩ := hbeside.cons (by omega)
    obtain rfl : b = c := by simpa [peek, hb] using hpeek
    obtain ⟨d, tail, rfl, -⟩ := hbeside.bump.cons (by omega)
    obtain ⟨tail', hnext⟩ := hbeside.bump.bumpChar hm (by omega)
    rw [closeString_escape hu' hpeek' hquote]
    exact ih hnext hc

end Beside

/-! ### Tokens -/

theorem alike_make (h : Beside rest more word s s') (kind : TokenKind) :
    Alike rest more (start.make s kind) (start'.make s' kind) :=
  fun _ hr => ⟨rfl, (h.done hr).2⟩

theorem alike_fail (error : LexicalError) (r : Token × Scanner) :
    Alike rest more (start.fail s error) r := fun hk => absurd rfl hk

theorem alike_closeNumber (h : Beside rest more word s s') (hm : Blank more) (kind : TokenKind) :
    Alike rest more (start.closeNumber s kind) (start'.closeNumber s' kind) := by
  unfold closeNumber
  split
  next => exact alike_fail _ _
  next =>
    intro hk hr
    have hs' : ¬s'.peek.any continuesName := by
      rw [peek, (h.done hr).2]
      simpa [Option.any_eq_true] using hm.not (p := continuesName) (by decide +kernel)
    rw [if_neg hs']
    exact alike_make h kind hk hr

/-- No letters that make a token longer are blank. -/
def NoBlank (longer : List (Char × TokenKind)) : Prop :=
  ∀ b ∈ [32, 9, 13, lineFeed], longer.lookup (byteChar b) = none

instance (longer : List (Char × TokenKind)) : Decidable (NoBlank longer) :=
  List.decidableBAll (fun b => longer.lookup (byteChar b) = none) [32, 9, 13, lineFeed]

theorem operators_noBlank {c : Char} (h : operators c = some (alone, longer)) : NoBlank longer := by
  unfold operators NoBlank at *
  split at h <;> simp only [Option.some.injEq, Prod.mk.injEq, reduceCtorEq] at h <;>
    (obtain ⟨rfl, rfl⟩ := h; decide +kernel)

/-- A token that is another one if the next letter belongs to it. -/
def extended (close : Scanner → TokenKind → Token × Scanner) (s : Scanner) (alone : TokenKind)
    (longer : List (Char × TokenKind)) : Token × Scanner :=
  match s.peek.bind fun b => longer.lookup (byteChar b) with
  | some kind => close s.bump kind
  | none => close s alone

theorem operator_eq_extended (start s : Scanner) (alone : TokenKind)
    (longer : List (Char × TokenKind)) :
    start.operator s alone longer = extended start.make s alone longer := rfl

theorem alike_extended {close close' : Scanner → TokenKind → Token × Scanner}
    (hclose : ∀ {word s s'}, Beside rest more word s s' → ∀ kind,
      Alike rest more (close s kind) (close' s' kind))
    (hle : ∀ s kind, (close s kind).2.rest.length ≤ s.rest.length)
    (h : Beside rest more word s s') (hm : Blank more) (hlonger : NoBlank longer) :
    Alike rest more (extended close s alone longer) (extended close' s' alone longer) := by
  cases word with
  | nil =>
    -- Nothing is taken here, so no letter belongs to the token.
    have hpeek : (s'.peek.bind fun b => longer.lookup (byteChar b)) = none := by
      rw [peek, h.right, List.nil_append]
      exact Option.bind_eq_none_iff.2 fun b hb => hlonger b (hm b hb)
    unfold extended
    rw [hpeek]
    split
    next kind hk =>
      obtain ⟨b, hb, -⟩ := Option.bind_eq_some_iff.1 hk
      intro _ hr
      have hlt := length_bump_lt hb
      have hclosed := hle s.bump kind
      rw [hr] at hclosed
      rw [h.left, List.nil_append] at hlt
      exact absurd hlt (Nat.not_lt_of_le hclosed)
    next => exact hclose h alone
  | cons b tail =>
    have hpeek : s'.peek = s.peek := by rw [peek, peek, h.left, h.right]; rfl
    unfold extended
    rw [hpeek]
    split
    next => exact hclose h.bump _
    next => exact hclose h alone

theorem alike_operator (h : Beside rest more word s s') (hm : Blank more)
    (hlonger : NoBlank longer) :
    Alike rest more (start.operator s alone longer) (start'.operator s' alone longer) :=
  alike_extended alike_make (fun _ _ => Nat.le_refl _) h hm hlonger

/-- A character is next, and a byte of some kind behind it. -/
def Begins (c : Char) (p : UInt8 → Bool) (s : Scanner) : Prop :=
  s.peek.map byteChar = some c ∧ s.peekSecond.any p

instance (c : Char) (p : UInt8 → Bool) (s : Scanner) : Decidable (s.Begins c p) :=
  inferInstanceAs (Decidable (_ ∧ _))

theorem Begins.cons {c : Char} (h : s.Begins c p) :
    ∃ a b after, s.rest = a :: b :: after ∧ p b = true := by
  obtain ⟨hfirst, hsecond⟩ := h
  obtain ⟨a, ha, -⟩ := Option.map_eq_some_iff.1 hfirst
  obtain ⟨after, hrest⟩ := peek_eq_some ha
  obtain ⟨b, hb, hpb⟩ := (Option.any_eq_true _ _).1 hsecond
  rw [peekSecond, hrest, List.tail_cons] at hb
  obtain ⟨after, rfl⟩ := List.head?_eq_some_iff.1 hb
  exact ⟨a, b, after, hrest, hpb⟩

/-- Two bytes that are not blank are only seen if both belong to the token. -/
theorem Beside.begins_iff {c : Char} (h : Beside rest more word s s') (hm : Blank more)
    (hc : ∀ b ∈ [32, 9, 13, lineFeed], byteChar b ≠ c)
    (hp : ∀ b ∈ [32, 9, 13, lineFeed], p b = false) :
    s'.Begins c p ↔ s.Begins c p ∧ 2 ≤ word.length := by
  unfold Begins peek peekSecond
  rw [h.left, h.right]
  match word with
  | [] =>
    refine ⟨fun ⟨hfirst, _⟩ => ?_, fun ⟨_, hlen⟩ => absurd hlen (by decide)⟩
    obtain ⟨b, hb, hbc⟩ := Option.map_eq_some_iff.1 hfirst
    exact absurd hbc (hc b (hm b hb))
  | [a] =>
    refine ⟨fun ⟨_, hsecond⟩ => ?_, fun ⟨_, hlen⟩ => absurd hlen (by simp)⟩
    obtain ⟨b, hb, hpb⟩ := (Option.any_eq_true _ _).1 hsecond
    exact absurd hpb (by simp [hp b (hm b hb)])
  | a :: b :: tail => simp

theorem dots_eq (start s : Scanner) : start.dots s =
    if s.Begins '.' (byteChar · == '.') then start.make (s.skip 2) .ellipsis
    else start.make s .dot := by
  have hsecond : s.peekSecond.map byteChar = some '.' ↔
      s.peekSecond.any (byteChar · == '.') = true := by
    cases s.peekSecond <;> simp
  exact if_congr (and_congr_right fun _ => hsecond) rfl rfl

theorem alike_dots (h : Beside rest more word s s') (hm : Blank more) :
    Alike rest more (start.dots s) (start'.dots s') := by
  have hiff := h.begins_iff (c := '.') (p := (byteChar · == '.')) hm (by decide +kernel)
    (by decide +kernel)
  rw [dots_eq, dots_eq, if_congr hiff rfl rfl]
  by_cases hs : s.Begins '.' (byteChar · == '.')
  · rw [if_pos hs]
    intro _ hr
    obtain ⟨a, b, after, hrest, -⟩ := hs.cons
    have hafter : after = rest := by
      rw [← show s.rest.drop 2 = rest from hr, hrest]
      rfl
    have hlen := congrArg List.length h.left
    rw [hrest, hafter, List.length_append, List.length_cons, List.length_cons] at hlen
    rw [if_pos ⟨hs, by omega⟩]
    refine ⟨rfl, ?_⟩
    rw [make, rest_skip, h.right]
    exact List.drop_left' (by omega)
  · rw [if_neg hs, if_neg fun h => hs h.1]
    exact alike_make h .dot

/-- A number whose digits up to a decimal point were passed. -/
def fraction (start s : Scanner) : Token × Scanner :=
  if s.Begins '.' isDigit then
    extended start.closeNumber (s.bump.eatWhile isDigit) .doubleLit
      [('f', .floatLit), ('F', .floatLit), ('d', .doubleLit), ('D', .doubleLit)]
  else extended start.closeNumber s .intLit [('l', .longLit), ('L', .longLit)]

theorem number_eq (start s : Scanner) : start.number s = start.fraction (s.eatWhile isDigit) := by
  unfold number fraction extended
  refine if_congr Iff.rfl ?_ ?_
  · generalize (s.eatWhile isDigit).bump.eatWhile isDigit = t
    dsimp only
    cases t.peek with
    | none => rfl
    | some b =>
      simp only [Option.map_some, Option.bind_some]
      split
      next h => rw [Option.some.inj h]; rfl
      next h => rw [Option.some.inj h]; rfl
      next h => rw [Option.some.inj h]; rfl
      next h => rw [Option.some.inj h]; rfl
      next hf hF hd hD =>
        simp only [Option.some.injEq, imp_false] at hf hF hd hD
        simp only [List.lookup_cons, List.lookup_nil, beq_false_of_ne hf, beq_false_of_ne hF,
          beq_false_of_ne hd, beq_false_of_ne hD]
  · cases (s.eatWhile isDigit).peek with
    | none => rfl
    | some b =>
      simp only [Option.map_some, Option.bind_some]
      split
      next h => rw [Option.some.inj h]; rfl
      next h => rw [Option.some.inj h]; rfl
      next hl hL =>
        simp only [Option.some.injEq, imp_false] at hl hL
        simp only [List.lookup_cons, List.lookup_nil, beq_false_of_ne hl, beq_false_of_ne hL]

theorem length_extended_closeNumber (start s : Scanner) (alone : TokenKind)
    (longer : List (Char × TokenKind)) :
    (extended start.closeNumber s alone longer).2.rest.length ≤ s.rest.length := by
  unfold extended
  split
  · exact Nat.le_trans (length_closeNumber ..) (length_bump_le s)
  · exact length_closeNumber ..

theorem length_fraction (start s : Scanner) :
    (start.fraction s).2.rest.length ≤ s.rest.length := by
  unfold fraction
  split
  · have := length_extended_closeNumber start (s.bump.eatWhile isDigit) .doubleLit
      [('f', .floatLit), ('F', .floatLit), ('d', .doubleLit), ('D', .doubleLit)]
    have := length_eatWhile_le s.bump isDigit
    have := length_bump_le s
    omega
  · exact length_extended_closeNumber ..

theorem alike_fraction (h : Beside rest more word s s') (hm : Blank more) :
    Alike rest more (start.fraction s) (start'.fraction s') := by
  have hiff := h.begins_iff (c := '.') (p := isDigit) hm (by decide +kernel) (by decide +kernel)
  have hclose {word : List UInt8} {s s' : Scanner} (h : Beside rest more word s s')
      (kind : TokenKind) :
      Alike rest more (start.closeNumber s kind) (start'.closeNumber s' kind) :=
    alike_closeNumber h hm kind
  unfold fraction
  rw [if_congr hiff rfl rfl]
  by_cases hs : s.Begins '.' isDigit
  · rw [if_pos hs]
    intro hk hr
    obtain ⟨a, b, after, hrest, hdigit⟩ := hs.cons
    have hle := length_extended_closeNumber start (s.bump.eatWhile isDigit) .doubleLit
      [('f', .floatLit), ('F', .floatLit), ('d', .doubleLit), ('D', .doubleLit)]
    rw [hr] at hle
    -- The point and a digit are taken, so they are among the bytes in front of both.
    have htaken : rest.length ≤ after.length := by
      refine hle.trans ?_
      rw [rest_eatWhile, rest_bump, hrest, List.tail_cons, List.dropWhile_cons, if_pos hdigit]
      exact (List.dropWhile_suffix _).length_le
    have hlen := congrArg List.length h.left
    rw [hrest, List.length_append, List.length_cons, List.length_cons] at hlen
    have htwo : 2 ≤ word.length := by omega
    obtain ⟨c, tail, rfl⟩ :=
      List.exists_cons_of_length_pos (Nat.lt_of_lt_of_le Nat.zero_lt_two htwo)
    obtain ⟨tail', hnext⟩ := h.bump.eatWhile (hm.not (by decide +kernel)) hle
    rw [if_pos ⟨hs, htwo⟩]
    exact alike_extended hclose (length_closeNumber start) hnext hm (by decide +kernel) hk hr
  · rw [if_neg hs, if_neg fun h => hs h.1]
    exact alike_extended hclose (length_closeNumber start) h hm (by decide +kernel)

theorem alike_number (h : Beside rest more word s s') (hm : Blank more) :
    Alike rest more (start.number s) (start'.number s') := by
  rw [number_eq, number_eq]
  intro hk hr
  have hle := length_fraction start (s.eatWhile isDigit)
  rw [hr] at hle
  obtain ⟨tail, hnext⟩ := h.eatWhile (hm.not (by decide +kernel)) hle
  exact alike_fraction hnext hm hk hr

theorem alike_string (h : Beside rest more word s s') (hm : Blank more) :
    Alike rest more (start.string s) (start'.string s') := by
  unfold string
  cases hc : s.closeString with
  | error stop => exact alike_fail _ _
  | ok stop =>
    intro _ hr
    obtain ⟨stop', hc', hmore⟩ := h.closeString hm hc hr
    rw [hc']
    exact ⟨rfl, hmore⟩

theorem alike_closeChar (h : Beside rest more word s s') :
    Alike rest more (start.closeChar s) (start'.closeChar s') := by
  unfold closeChar
  split
  next hs =>
    intro _ hr
    have hlt := length_bump_lt hs
    rw [show s.bump.rest = rest from hr] at hlt
    obtain ⟨b, tail, rfl, hpeek, hpeek'⟩ := h.cons hlt
    rw [if_pos (hpeek'.trans (hpeek.symm.trans hs))]
    exact ⟨rfl, (h.bump.done hr).2⟩
  next =>
    split
    · exact alike_fail _ _
    · exact alike_fail _ _

theorem length_closeChar_lt (hk : (start.closeChar s).1.kind ≠ .error) :
    (start.closeChar s).2.rest.length < s.rest.length := by
  unfold closeChar at *
  split at hk
  next hs =>
    rw [if_pos hs]
    exact length_bump_lt hs
  next =>
    split at hk
    · exact absurd rfl hk
    · exact absurd rfl hk

theorem alike_charLiteral (h : Beside rest more word s s') (hm : Blank more) :
    Alike rest more (start.charLiteral s) (start'.charLiteral s') := by
  unfold charLiteral
  cases hs : s.peek with
  | none => exact alike_fail _ _
  | some b =>
    dsimp only
    split
    next => exact alike_fail _ _
    next hfeed =>
      split
      next hescape =>
        split
        next => exact alike_fail _ _
        next =>
          intro hk hr
          have hlt := length_closeChar_lt hk
          have hchar := length_bumpChar_le s.bump
          have hsecond := length_bump_le s.bump
          have hfirst := length_bump_le s
          rw [hr] at hlt
          obtain ⟨c, tail, rfl, hpeek, hpeek'⟩ := h.cons (by omega)
          obtain ⟨d, tail, rfl, -, hd⟩ := h.bump.cons (by omega)
          obtain ⟨tail', hnext⟩ := h.bump.bumpChar hm (by omega)
          obtain ⟨after, hafter⟩ := peek_eq_some hd
          rw [hpeek'.trans (hpeek.symm.trans hs)]
          simp only [if_neg hfeed, if_pos hescape, hafter, List.isEmpty_cons, Bool.false_eq_true,
            if_false]
          exact alike_closeChar hnext hk hr
      next hescape =>
        split
        next => exact alike_fail _ _
        next hquote =>
          intro hk hr
          have hlt := length_closeChar_lt hk
          have hchar := length_bumpChar_le s
          have hfirst := length_bump_le s
          rw [hr] at hlt
          obtain ⟨c, tail, rfl, hpeek, hpeek'⟩ := h.cons (by omega)
          obtain ⟨tail', hnext⟩ := h.bumpChar hm (by omega)
          rw [hpeek'.trans (hpeek.symm.trans hs)]
          simp only [if_neg hfeed, if_neg hescape, if_neg hquote]
          exact alike_closeChar hnext hk hr

theorem continuesName_of_startsName (h : startsName b = true) : continuesName b = true := by
  unfold startsName at h
  unfold continuesName
  cases hl : isLetter b <;> simp_all

theorem alike_tag (h : Beside rest more word s s') (hm : Blank more) :
    Alike rest more (start.tag s) (start'.tag s') := by
  unfold tag
  cases hs : s.peek with
  | none => exact alike_fail _ _
  | some b =>
    obtain ⟨after, hrest⟩ := peek_eq_some hs
    dsimp only
    split
    next hmark =>
      intro hk hr
      have hlt := length_bump_lt hs
      rw [show s.bump.rest = rest from hr] at hlt
      obtain ⟨c, tail, rfl, hpeek, hpeek'⟩ := h.cons hlt
      rw [hpeek'.trans (hpeek.symm.trans hs)]
      simp only [if_pos hmark]
      exact ⟨rfl, (h.bump.done hr).2⟩
    next hmark =>
      split
      next hstarts =>
        intro hk hr
        have hname := continuesName_of_startsName hstarts
        have hlt : rest.length < s.rest.length := by
          rw [← show (s.eatWhile continuesName).rest = rest from hr, rest_eatWhile, hrest,
            List.dropWhile_cons, if_pos hname]
          exact Nat.lt_succ_of_le (List.dropWhile_suffix _).length_le
        obtain ⟨c, tail, rfl, hpeek, hpeek'⟩ := h.cons hlt
        obtain ⟨tail', hnext⟩ := h.eatWhile (hm.not (by decide +kernel)) (Nat.le_of_eq
          (congrArg List.length hr.symm))
        rw [hpeek'.trans (hpeek.symm.trans hs)]
        simp only [if_neg hmark, if_pos hstarts]
        exact ⟨rfl, (hnext.done hr).2⟩
      next => exact alike_fail _ _

/-- The bytes of a word tell its kind. -/
theorem alike_word (h : Beside rest more (b :: word) start start') (hm : Blank more) :
    Alike rest more (start.word start.bump) (start'.word start'.bump) := by
  intro _ hr
  obtain ⟨tail, hnext⟩ := h.bump.eatWhile (hm.not (by decide +kernel)) (Nat.le_of_eq
    (congrArg List.length hr.symm))
  have hmore := (hnext.done hr).2
  have hbytes {s : Scanner} {after : List UInt8} (hs : s.rest = b :: word ++ after)
      (hstop : (s.bump.eatWhile continuesName).rest = after) :
      s.rest.take ((s.bump.eatWhile continuesName).offset - s.offset) = b :: word := by
    have htakes := (takes_bump hs).trans (takes_eatWhile s.bump continuesName)
    have hrest := htakes.rest
    rw [hs, hstop] at hrest
    rw [htakes.offset, Nat.add_sub_cancel_left, ← List.append_cancel_right hrest, hs,
      List.take_left]
  refine ⟨?_, hmore⟩
  change TokenKind.ofWord _ = TokenKind.ofWord _
  rw [hbytes h.left hr, hbytes h.right hmore]

theorem alike_lexeme (h : Beside rest more word s s') (hne : s.rest ≠ []) (hm : Blank more) :
    Alike rest more s.lexeme s'.lexeme := by
  intro hk hr
  have hlt := length_lexeme s hne
  rw [hr] at hlt
  obtain ⟨b, tail, rfl, hpeek, hpeek'⟩ := h.cons hlt
  revert hk hr
  obtain ⟨after, hs⟩ := peek_eq_some hpeek
  obtain ⟨after', hs'⟩ := peek_eq_some hpeek'
  have hnext := h.bump
  simp only [lexeme, hs, hs']
  cases ho : operators (byteChar b) with
  | some operator =>
    obtain ⟨alone, longer⟩ := operator
    exact alike_operator hnext hm (operators_noBlank ho)
  | none =>
    dsimp only
    repeat' split
    · exact alike_dots hnext hm
    · exact alike_string hnext hm
    · exact alike_charLiteral hnext hm
    · exact alike_number hnext hm
    · exact alike_tag hnext hm
    · exact alike_word h hm
    · exact alike_fail _ _

end Scanner

end FrontEnd
