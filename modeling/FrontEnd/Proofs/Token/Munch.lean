import FrontEnd.Proofs.Token.Keywords

/-!
Longest match. A token that is no error is a spelling of its kind, and no longer spelling of any
kind starts where it starts.
-/

namespace FrontEnd

/-! ### Spellings -/

def point : UInt8 := 46

def atSign : UInt8 := 64

def exclamationMark : UInt8 := 33

/-- The bytes of a name or of a keyword. -/
def Named (word : List UInt8) : Prop :=
  ∃ b tail, word = b :: tail ∧ startsName b = true ∧ ∀ c ∈ tail, continuesName c = true

def Digits (word : List UInt8) : Prop := word ≠ [] ∧ ∀ b ∈ word, isDigit b = true

/-- What may stand between quotation marks: a backslash takes the next byte with it. -/
inductive Quotable : List UInt8 → Prop
  | nil : Quotable []
  | byte {b : UInt8} {body : List UInt8} : b ≠ quotationMark → b ≠ backslash → Quotable body →
      Quotable (b :: body)
  | escape {b : UInt8} {body : List UInt8} : Quotable body → Quotable (backslash :: b :: body)

/-- The bytes of one character. -/
def OneChar (bytes : List UInt8) : Prop := ∃ c : Char, bytes = String.utf8EncodeChar c

/-- The kind has one spelling only: an operator, punctuation or a keyword. -/
def TokenKind.Fixed (k : TokenKind) : Prop := TokenKind.plus.index ≤ k.index

instance (k : TokenKind) : Decidable k.Fixed := inferInstanceAs (Decidable (_ ≤ _))

/-- The spellings of each kind. An error and the end have none. -/
inductive Spells : TokenKind → List UInt8 → Prop
  | fixed {k : TokenKind} : k.Fixed → Spells k (utf8 k.describe)
  | ident {word : List UInt8} : Named word →
      (∀ k : TokenKind, k.isKeyword = true → word ≠ utf8 k.describe) → Spells .ident word
  | int {whole : List UInt8} : Digits whole → Spells .intLit whole
  | long {whole : List UInt8} {b : UInt8} : Digits whole → byteChar b ∈ ['l', 'L'] →
      Spells .longLit (whole ++ [b])
  | float {whole part : List UInt8} {b : UInt8} : Digits whole → Digits part →
      byteChar b ∈ ['f', 'F'] → Spells .floatLit (whole ++ point :: (part ++ [b]))
  | double {whole part : List UInt8} : Digits whole → Digits part →
      Spells .doubleLit (whole ++ point :: part)
  | doubleSuffix {whole part : List UInt8} {b : UInt8} : Digits whole → Digits part →
      byteChar b ∈ ['d', 'D'] → Spells .doubleLit (whole ++ point :: (part ++ [b]))
  | string {body : List UInt8} : Quotable body →
      Spells .stringLit (quotationMark :: (body ++ [quotationMark]))
  | char {bytes : List UInt8} : OneChar bytes → bytes ≠ [apostrophe] → bytes ≠ [backslash] →
      bytes ≠ [lineFeed] → Spells .charLit (apostrophe :: (bytes ++ [apostrophe]))
  | escape {bytes : List UInt8} : OneChar bytes →
      Spells .charLit (apostrophe :: backslash :: (bytes ++ [apostrophe]))
  | mark : Spells .tag [atSign, exclamationMark]
  | tag {word : List UInt8} : Named word → Spells .tag (atSign :: word)

/-- A spelling of the kind, and no longer one of any kind starts here. -/
structure Longest (kind : TokenKind) (word rest : List UInt8) : Prop where
  spells : Spells kind word
  longest : ∀ k p, p <+: word ++ rest → Spells k p → p.length ≤ word.length

theorem isFixed_of_keyword {k : TokenKind} (h : k.isKeyword = true) : k.Fixed :=
  Nat.le_trans (by decide) (of_decide_eq_true h)

theorem Named.continues {word : List UInt8} (h : Named word) :
    ∀ b ∈ word, continuesName b = true := by
  obtain ⟨b, tail, rfl, hb, hall⟩ := h
  exact List.forall_mem_cons.2 ⟨Scanner.continuesName_of_startsName hb, hall⟩

theorem encode_byteChar {b : UInt8} (h : b < 128) : String.utf8EncodeChar (byteChar b) = [b] := by
  have hall : ∀ b : UInt8, b < 128 → String.utf8EncodeChar (byteChar b) = [b] :=
    forall_byte (by decide +kernel)
  exact hall b h

theorem flatMap_byteChar {word : List UInt8} (h : ∀ b ∈ word, b < 128) :
    (word.map byteChar).flatMap String.utf8EncodeChar = word := by
  induction word with
  | nil => rfl
  | cons b word ih =>
    obtain ⟨hb, hword⟩ := List.forall_mem_cons.1 h
    rw [List.map_cons, List.flatMap_cons, encode_byteChar hb, ih hword]
    rfl

theorem toList_ascii {word : List UInt8} (h : ∀ b ∈ word, b < 128) :
    (utf8Text word).toList = word.map byteChar := by
  rw [← toList_utf8Text (word.map byteChar), flatMap_byteChar h]

theorem spells_ofWord {word : List UInt8} (h : Named word) :
    Spells (TokenKind.ofWord word) word := by
  rcases ofWord_spelled word with hident | ⟨hkeyword, hword⟩
  · rw [hident]
    refine .ident h ?_
    rintro k hk rfl
    rw [ofWord_keyword hk] at hident
    subst hident
    cases hk
  · have hspells := Spells.fixed (isFixed_of_keyword hkeyword)
    rwa [← hword] at hspells

/-! ### First bytes -/

/-- What may follow the digits in front of a number. -/
inductive NumberTail : List UInt8 → Prop
  | nil : NumberTail []
  | long {b : UInt8} : byteChar b ∈ ['l', 'L'] → NumberTail [b]
  | fraction {part : List UInt8} : Digits part → NumberTail (point :: part)
  | suffix {part : List UInt8} {b : UInt8} : Digits part → byteChar b ∈ ['f', 'F', 'd', 'D'] →
      NumberTail (point :: (part ++ [b]))

/-- The spellings of a number of any kind. -/
def Numeric (word : List UInt8) : Prop :=
  ∃ whole more, Digits whole ∧ NumberTail more ∧ word = whole ++ more

/-- What may follow a first byte in a spelling of any kind. -/
def MayFollow (b : UInt8) (tail : List UInt8) : Prop :=
  match Scanner.operators (byteChar b) with
  | some (_, longer) => tail = [] ∨ ∃ c, tail = [c] ∧ byteChar c ∈ longer.map Prod.fst
  | none =>
    if byteChar b = '.' then tail = [] ∨ tail = [point, point]
    else if b = quotationMark then ∃ body, Quotable body ∧ tail = body ++ [quotationMark]
    else if b = apostrophe then ∃ bytes, OneChar bytes ∧
      (bytes ≠ [backslash] ∧ tail = bytes ++ [apostrophe] ∨
        tail = backslash :: (bytes ++ [apostrophe]))
    else if isDigit b then Numeric (b :: tail)
    else if byteChar b = '@' then tail = [exclamationMark] ∨ Named tail
    else startsName b = true ∧ ∀ c ∈ tail, continuesName c = true

theorem mayFollow_digit {b : UInt8} {tail : List UInt8} (hb : isDigit b = true) :
    MayFollow b tail ↔ Numeric (b :: tail) := by
  have hall : ∀ b : UInt8, isDigit b = true → Scanner.operators (byteChar b) = none ∧
      byteChar b ≠ '.' ∧ b ≠ quotationMark ∧ b ≠ apostrophe :=
    forall_byte (by decide +kernel)
  obtain ⟨ho, hdot, hquote, hchar⟩ := hall b hb
  simp only [MayFollow, ho, if_neg hdot, if_neg hquote, if_neg hchar, if_pos hb]

/-- A byte that starts a name starts nothing else. -/
theorem only_startsName {b : UInt8} (hb : startsName b = true) :
    Scanner.operators (byteChar b) = none ∧ byteChar b ≠ '.' ∧ b ≠ quotationMark ∧
      b ≠ apostrophe ∧ isDigit b ≠ true ∧ byteChar b ≠ '@' := by
  have hall : ∀ b : UInt8, startsName b = true → Scanner.operators (byteChar b) = none ∧
      byteChar b ≠ '.' ∧ b ≠ quotationMark ∧ b ≠ apostrophe ∧ isDigit b ≠ true ∧
      byteChar b ≠ '@' :=
    forall_byte (by decide +kernel)
  exact hall b hb

theorem mayFollow_name {b : UInt8} {tail : List UInt8} (hb : startsName b = true) :
    MayFollow b tail ↔ ∀ c ∈ tail, continuesName c = true := by
  obtain ⟨ho, hdot, hquote, hchar, hdigit, hat⟩ := only_startsName hb
  simp only [MayFollow, ho, if_neg hdot, if_neg hquote, if_neg hchar, if_neg hdigit, if_neg hat, hb,
    true_and]

theorem Numeric.mayFollow {word : List UInt8} (h : Numeric word) :
    ∃ b tail, word = b :: tail ∧ MayFollow b tail := by
  obtain ⟨whole, more, ⟨hne, hall⟩, -, rfl⟩ := id h
  obtain ⟨b, tail, rfl⟩ := List.exists_cons_of_ne_nil hne
  exact ⟨b, tail ++ more, rfl, (mayFollow_digit (hall b List.mem_cons_self)).2 h⟩

/-- `MayFollow` for the kinds with one spelling, by evaluation. -/
def fixedMayFollow : List UInt8 → Bool
  | [] => false
  | b :: tail =>
    match Scanner.operators (byteChar b) with
    | some (_, longer) =>
      match tail with
      | [] => true
      | [c] => byteChar c ∈ longer.map Prod.fst
      | _ => false
    | none =>
      if byteChar b = '.' then tail.isEmpty || tail == [point, point]
      else startsName b && tail.all continuesName

theorem mayFollow_fixed {word : List UInt8} (h : fixedMayFollow word = true) :
    ∃ b tail, word = b :: tail ∧ MayFollow b tail := by
  cases word with
  | nil => cases h
  | cons b tail =>
    refine ⟨b, tail, rfl, ?_⟩
    cases ho : Scanner.operators (byteChar b) with
    | some operator =>
      simp only [fixedMayFollow, ho] at h
      simp only [MayFollow, ho]
      match tail with
      | [] => exact .inl rfl
      | [c] => exact .inr ⟨c, rfl, of_decide_eq_true h⟩
      | c :: d :: rest => cases h
    | none =>
      simp only [fixedMayFollow, ho] at h
      split at h
      next hdot =>
        simp only [MayFollow, ho, if_pos hdot]
        simpa using h
      next hdot =>
        obtain ⟨hb, hall⟩ := Bool.and_eq_true_iff.1 h
        exact (mayFollow_name hb).2 (List.all_eq_true.1 hall)

/-- The first byte of a token decides which spellings can start there. -/
theorem mayFollow_of_spells {k : TokenKind} {word : List UInt8} (h : Spells k word) :
    ∃ b tail, word = b :: tail ∧ MayFollow b tail := by
  cases h with
  | fixed hk =>
    have hall : ∀ k ∈ TokenKind.all, k.Fixed → fixedMayFollow (utf8 k.describe) = true := by
      decide +kernel
    exact mayFollow_fixed (hall k (mem_all k) hk)
  | ident hn =>
    obtain ⟨b, tail, rfl, hb, hall⟩ := hn
    exact ⟨b, tail, rfl, (mayFollow_name hb).2 hall⟩
  | int hw => exact Numeric.mayFollow ⟨_, [], hw, .nil, (List.append_nil _).symm⟩
  | long hw hb => exact Numeric.mayFollow ⟨_, _, hw, .long hb, rfl⟩
  | float hw hp hb =>
    exact Numeric.mayFollow ⟨_, _, hw, .suffix hp (List.mem_append_left ['d', 'D'] hb), rfl⟩
  | double hw hp => exact Numeric.mayFollow ⟨_, _, hw, .fraction hp, rfl⟩
  | doubleSuffix hw hp hb =>
    exact Numeric.mayFollow ⟨_, _, hw, .suffix hp (List.mem_append_right ['f', 'F'] hb), rfl⟩
  | string hbody => exact ⟨_, _, rfl, _, hbody, rfl⟩
  | char hc _ hescape _ => exact ⟨_, _, rfl, _, hc, .inl ⟨hescape, rfl⟩⟩
  | escape hc => exact ⟨_, _, rfl, _, hc, .inr rfl⟩
  | mark => exact ⟨_, _, rfl, .inl rfl⟩
  | tag hn => exact ⟨_, _, rfl, .inr hn⟩

theorem longest_of_mayFollow {kind : TokenKind} {b : UInt8} {word rest : List UInt8}
    (hs : Spells kind (b :: word))
    (h : ∀ tail, tail <+: word ++ rest → MayFollow b tail → tail.length ≤ word.length) :
    Longest kind (b :: word) rest := by
  refine ⟨hs, ?_⟩
  intro k p hp hk
  obtain ⟨c, tail, rfl, hf⟩ := mayFollow_of_spells hk
  obtain ⟨rfl, htail⟩ := List.cons_prefix_cons.1 hp
  exact Nat.succ_le_succ (h tail htail hf)

/-! ### Operators and dots -/

namespace Scanner

variable {s t u start : Scanner} {b : UInt8} {after : List UInt8} {kind alone : TokenKind}
  {longer : List (Char × TokenKind)}

/-- A token that is no error is the longest that starts here. -/
def FindsLongest (start : Scanner) (r : Token × Scanner) : Prop :=
  r.1.kind ≠ .error → ∃ word, start.Takes word r.2 ∧ Longest r.1.kind word r.2.rest

theorem peek_of_starts (h : [b] <+: u.rest) : u.peek = some b := by
  obtain ⟨rest, hrest⟩ := h
  rw [peek, ← hrest]
  rfl

/-- With the longer spelling where one byte more fits, a token is the longest. -/
theorem munches_extended {close : Scanner → TokenKind → Token × Scanner} {word : List UInt8}
    (hclose : ∀ v kind, (close v kind).1.kind ≠ .error → close v kind = start.make v kind)
    (ht : start.Takes word u) (halone : Spells alone word)
    (hlonger : ∀ c kind, (byteChar c, kind) ∈ longer → Spells kind (word ++ [c]))
    (hlong : ∀ k p, Spells k p → p <+: word ++ u.rest → p.length ≤ word.length ∨
      ∃ c, [c] <+: u.rest ∧ byteChar c ∈ longer.map Prod.fst ∧ p = word ++ [c]) :
    start.FindsLongest (extended close u alone longer) := by
  unfold extended
  cases hl : u.peek.bind fun b => longer.lookup (byteChar b) with
  | some kind =>
    obtain ⟨c, hc, hlook⟩ := Option.bind_eq_some_iff.1 hl
    obtain ⟨rest, hrest⟩ := peek_eq_some hc
    obtain ⟨l, r, heq, -⟩ := List.lookup_eq_some_iff.1 hlook
    have hbump := takes_bump hrest
    intro hk
    simp only [hclose _ _ hk]
    refine ⟨word ++ [c], ht.trans hbump, hlonger c kind (by simp [heq]), ?_⟩
    intro k p hp hs
    have hp' : p <+: word ++ u.rest := by
      rw [hbump.rest, ← List.append_assoc]
      exact hp
    rw [List.length_append, List.length_singleton]
    rcases hlong k p hs hp' with hle | ⟨d, -, -, rfl⟩
    · omega
    · rw [List.length_append, List.length_singleton]
  | none =>
    intro hk
    simp only [hclose _ _ hk]
    refine ⟨word, ht, halone, ?_⟩
    intro k p hp hs
    rcases hlong k p hs hp with hle | ⟨c, hc, hmem, -⟩
    · exact hle
    · rw [peek_of_starts hc, Option.bind_some, List.lookup_eq_none_iff] at hl
      obtain ⟨⟨d, kind⟩, hd, heq⟩ := List.mem_map.1 hmem
      exact absurd heq.symm (by simpa using hl _ hd)

theorem operators_spelled {c : Char} (h : operators c = some (alone, longer)) :
    alone.Fixed ∧ alone.describe.toList = [c] ∧
      ∀ p ∈ longer, p.2.Fixed ∧ p.2.describe.toList = [c, p.1] := by
  unfold operators at h
  split at h <;> simp only [Option.some.injEq, Prod.mk.injEq, reduceCtorEq] at h <;>
    (obtain ⟨rfl, rfl⟩ := h; decide)

theorem munches_operator (hs : s.rest = b :: after)
    (ho : operators (byteChar b) = some (alone, longer)) :
    s.FindsLongest (s.operator s.bump alone longer) := by
  obtain ⟨hb, hsmall⟩ := lt_of_operators ho
  obtain ⟨hfixed, hspelled, hmore⟩ := operators_spelled ho
  have hb : b < 128 := lt_of_byteChar rfl hb
  rw [operator_eq_extended]
  refine munches_extended (fun _ _ _ => rfl) (takes_bump hs) ?_ ?_ ?_
  · have hword : utf8 alone.describe = [b] := by
      simp [utf8_eq, hspelled, encode_byteChar hb]
    exact hword ▸ .fixed hfixed
  · intro c kind hmem
    obtain ⟨hkfixed, hkspelled⟩ := hmore _ hmem
    have hc : c < 128 := lt_of_byteChar rfl (hsmall _ hmem)
    have hword : utf8 kind.describe = [b] ++ [c] := by
      simp [utf8_eq, hkspelled, encode_byteChar hb, encode_byteChar hc]
    exact hword ▸ .fixed hkfixed
  · intro k p hk hp
    obtain ⟨c, tail, rfl, hfollow⟩ := mayFollow_of_spells hk
    obtain ⟨rfl, htail⟩ := List.cons_prefix_cons.1 hp
    simp only [MayFollow, ho] at hfollow
    rcases hfollow with rfl | ⟨d, rfl, hd⟩
    · exact .inl (Nat.le_refl _)
    · exact .inr ⟨d, htail, hd, rfl⟩

theorem munches_dots (hs : s.rest = b :: after) (hb : byteChar b = '.') :
    s.FindsLongest (s.dots s.bump) := by
  obtain rfl : b = point := UInt8.toNat_inj.1 (byteChar_eq hb)
  intro _
  rw [dots_eq]
  by_cases hmore : s.bump.Begins '.' (byteChar · == '.')
  · obtain ⟨c, d, rest, hrest, hd⟩ := hmore.cons
    have hc : byteChar c = '.' := by
      have := hmore.1
      rw [peek, hrest] at this
      exact Option.some.inj this
    obtain rfl : c = point := UInt8.toNat_inj.1 (byteChar_eq hc)
    obtain rfl : d = point := UInt8.toNat_inj.1 (byteChar_eq (beq_iff_eq.1 hd))
    rw [if_pos hmore]
    refine ⟨[point, point, point], (takes_bump hs).trans (takes_skip_two hrest),
      longest_of_mayFollow (.fixed (k := .ellipsis) (by decide)) ?_⟩
    intro tail _ htail
    rcases (htail : tail = [] ∨ tail = [point, point]) with rfl | rfl
    · exact Nat.zero_le _
    · exact Nat.le_refl _
  · rw [if_neg hmore]
    refine ⟨[point], takes_bump hs, longest_of_mayFollow (.fixed (k := .dot) (by decide)) ?_⟩
    intro tail hfront htail
    rcases (htail : tail = [] ∨ tail = [point, point]) with rfl | rfl
    · exact Nat.le_refl _
    · obtain ⟨rest, hrest⟩ := hfront
      have hrest : s.bump.rest = point :: point :: rest := hrest.symm
      refine absurd ?_ hmore
      simp only [Begins, peek, peekSecond, hrest, List.head?_cons, List.tail_cons, Option.map_some,
        Option.any_some]
      decide

end Scanner

/-! ### Strings -/

theorem Quotable.append {plain body : List UInt8}
    (h : ∀ b ∈ plain, b ≠ quotationMark ∧ b ≠ backslash) (hbody : Quotable body) :
    Quotable (plain ++ body) := by
  induction plain with
  | nil => exact hbody
  | cons b plain ih =>
    obtain ⟨hb, hrest⟩ := List.forall_mem_cons.1 h
    exact .byte hb.1 hb.2 (ih hrest)

/-- The first quotation mark that is not escaped is the only end. -/
theorem Quotable.length_le {body body' rest : List UInt8} (h : Quotable body)
    (h' : Quotable body') (hp : body' ++ [quotationMark] <+: body ++ quotationMark :: rest) :
    body'.length ≤ body.length := by
  induction h generalizing body' with
  | nil =>
    cases h' with
    | nil => exact Nat.le_refl _
    | byte hb => exact absurd (List.cons_prefix_cons.1 hp).1 hb
    | escape => exact absurd (List.cons_prefix_cons.1 hp).1 (by decide)
  | byte _ hb _ ih =>
    cases h' with
    | nil => exact Nat.zero_le _
    | byte _ _ h' => exact Nat.succ_le_succ (ih h' (List.cons_prefix_cons.1 hp).2)
    | escape => exact absurd (List.cons_prefix_cons.1 hp).1.symm hb
  | escape _ ih =>
    cases h' with
    | nil => exact Nat.zero_le _
    | byte _ hb => exact absurd (List.cons_prefix_cons.1 hp).1 hb
    | escape h' =>
      have hp := (List.cons_prefix_cons.1 (List.cons_prefix_cons.1 hp).2).2
      exact Nat.succ_le_succ (Nat.succ_le_succ (ih h' hp))

namespace Scanner

variable {s t u start : Scanner} {b : UInt8} {after : List UInt8} {kind alone : TokenKind}
  {longer : List (Char × TokenKind)}

theorem takes_bumpChar (hs : s.rest = b :: after) :
    ∃ more, s.Takes (b :: more) s.bumpChar ∧ ∀ c ∈ more, continuesChar c = true :=
  ⟨_, (takes_bump hs).trans (takes_eatWhile ..), List.all_eq_true.1 List.all_takeWhile⟩

theorem quotable_closeString (h : s.closeString = .ok t) :
    ∃ body, Quotable body ∧ s.Takes (body ++ [quotationMark]) t := by
  have hseek {s u : Scanner}
      (hu : s.skipTo? (fun b => b == quotationMark || b == backslash) = some u) :
      ∃ bytes, s.Takes bytes u ∧ ∀ b ∈ bytes, b ≠ quotationMark ∧ b ≠ backslash := by
    obtain ⟨bytes, htakes, hall⟩ := takes_skipTo? hu
    exact ⟨bytes, htakes, fun b hb => by simpa using hall b hb⟩
  fun_induction closeString s with
  | case1 | case2 => cases h
  | case3 s u hu after hb =>
    obtain ⟨bytes, htakes, hplain⟩ := hseek hu
    cases h
    exact ⟨bytes ++ [], .append hplain .nil, by simpa using htakes.trans (takes_bump hb)⟩
  | case4 s u hu b after hb hquote ih =>
    obtain ⟨bytes, htakes, hplain⟩ := hseek hu
    obtain ⟨body, hbody, hbodyTakes⟩ := ih h
    obtain rfl : b = backslash := by
      obtain ⟨c, hc, hpc⟩ := peek_skipTo? hu
      obtain rfl : b = c := by simpa [peek, hb] using hc
      simpa [hquote] using hpc
    cases hrest : u.bump.rest with
    | nil =>
      -- Nothing is left behind the backslash, and so no quotation mark.
      have hempty := hbodyTakes.rest
      rw [bumpChar, rest_eatWhile, rest_bump, hrest] at hempty
      simp at hempty
    | cons c rest =>
      obtain ⟨more, hmore, hcontinues⟩ := takes_bumpChar hrest
      have hplain' : ∀ c ∈ more, c ≠ quotationMark ∧ c ≠ backslash := by
        intro c hc
        have := hcontinues c hc
        exact ⟨by rintro rfl; exact absurd this (by decide),
          by rintro rfl; exact absurd this (by decide)⟩
      refine ⟨bytes ++ backslash :: c :: (more ++ body),
        .append hplain (.escape (.append hplain' hbody)), ?_⟩
      have := htakes.trans ((takes_bump hb).trans (hmore.trans hbodyTakes))
      simpa using this

theorem munches_string (hs : s.rest = quotationMark :: after) :
    s.FindsLongest (s.string s.bump) := by
  unfold string
  cases hc : s.bump.closeString with
  | error stop => exact fun hk => absurd rfl hk
  | ok stop =>
    intro _
    obtain ⟨body, hbody, htakes⟩ := quotable_closeString hc
    refine ⟨quotationMark :: (body ++ [quotationMark]), (takes_bump hs).trans htakes,
      longest_of_mayFollow (.string hbody) ?_⟩
    rintro _ hp ⟨body', hbody', rfl⟩
    rw [List.append_assoc] at hp
    have := hbody.length_le hbody' hp
    simp only [List.length_append, List.length_singleton]
    omega

end Scanner

/-! ### Characters -/

theorem OneChar.cases {bytes : List UInt8} (h : OneChar bytes) :
    ∃ b more, bytes = b :: more ∧ (b < 128 → more = []) ∧ ∀ c ∈ more, continuesChar c = true := by
  obtain ⟨c, rfl⟩ := h
  rcases Whole.encode_cases c with ⟨b, hb, -⟩ | ⟨b, more, hb, hlarge, -, hall⟩
  · exact ⟨b, [], hb, fun _ => rfl, nofun⟩
  · exact ⟨b, more, hb, fun hlt => absurd hlt (UInt8.not_lt.2 hlarge), hall⟩

/-- A byte that continues none, and those that continue it, are one character. -/
theorem Whole.oneChar {b : UInt8} {more : List UInt8} (h : Whole (b :: more))
    (hmore : ∀ c ∈ more, continuesChar c = true) : OneChar (b :: more) := by
  obtain ⟨_ | ⟨c, cs⟩, hcs⟩ := h
  · cases hcs
  · cases cs with
    | nil => exact ⟨c, by simpa using hcs⟩
    | cons d ds =>
      -- A second character would start among the bytes that continue the first.
      obtain ⟨e, tail, hc, -⟩ := OneChar.cases ⟨c, rfl⟩
      obtain ⟨f, tail', hd, -⟩ := OneChar.cases ⟨d, rfl⟩
      have hwhole : Whole (String.utf8EncodeChar d) := ⟨[d], by simp⟩
      have hfirst := hwhole.head f (by simp [hd])
      rw [List.flatMap_cons, List.flatMap_cons, hc, hd] at hcs
      have := hmore f ((List.cons.inj hcs).2 ▸ by simp)
      simp [hfirst] at this

/-- Two characters in front of a byte that continues none have the same length. -/
theorem OneChar.length_eq {bytes bytes' rest rest' : List UInt8} {x y : UInt8} (h : OneChar bytes)
    (h' : OneChar bytes') (hx : continuesChar x = false) (hy : continuesChar y = false)
    (heq : bytes ++ x :: rest = bytes' ++ y :: rest') : bytes.length = bytes'.length := by
  obtain ⟨b, more, rfl, -, hmore⟩ := h.cases
  obtain ⟨b', more', rfl, -, hmore'⟩ := h'.cases
  have htail : more ++ x :: rest = more' ++ y :: rest' := (List.cons.inj heq).2
  replace htail := congrArg (List.takeWhile continuesChar) htail
  rw [List.takeWhile_append_of_pos hmore, List.takeWhile_append_of_pos hmore',
    List.takeWhile_cons, List.takeWhile_cons, hx, hy] at htail
  simpa using congrArg List.length htail

theorem OneChar.length_le {bytes bytes' rest : List UInt8} (h : OneChar bytes)
    (h' : OneChar bytes') (hp : bytes' ++ [apostrophe] <+: bytes ++ [apostrophe] ++ rest) :
    bytes'.length ≤ bytes.length := by
  obtain ⟨more, hmore⟩ := hp
  simp only [List.append_assoc, List.singleton_append] at hmore
  exact Nat.le_of_eq (h'.length_eq h (by decide) (by decide) hmore)

/-- A character that starts with a backslash is one. -/
theorem OneChar.eq_backslash {more : List UInt8} (h : OneChar (backslash :: more)) : more = [] := by
  obtain ⟨b, more', heq, hone, -⟩ := h.cases
  obtain ⟨rfl, rfl⟩ := List.cons.inj heq
  exact hone (by decide)

theorem longest_char {bytes rest : List UInt8} (h : OneChar bytes) (hquote : bytes ≠ [apostrophe])
    (hescape : bytes ≠ [backslash]) (hfeed : bytes ≠ [lineFeed]) :
    Longest .charLit (apostrophe :: (bytes ++ [apostrophe])) rest := by
  refine longest_of_mayFollow (.char h hquote hescape hfeed) ?_
  rintro _ hp ⟨bytes', h', ⟨-, rfl⟩ | rfl⟩
  · have := h.length_le h' hp
    simpa using this
  · obtain ⟨b, more, rfl, -⟩ := h.cases
    obtain rfl : backslash = b := (List.cons_prefix_cons.1 hp).1
    exact absurd (by rw [h.eq_backslash]) hescape

theorem longest_escape {bytes rest : List UInt8} (h : OneChar bytes) :
    Longest .charLit (apostrophe :: backslash :: (bytes ++ [apostrophe])) rest := by
  refine longest_of_mayFollow (.escape h) ?_
  rintro _ hp ⟨bytes', h', ⟨hescape, rfl⟩ | rfl⟩
  · obtain ⟨b, more, rfl, -⟩ := h'.cases
    obtain rfl : b = backslash := (List.cons_prefix_cons.1 hp).1
    exact absurd (by rw [h'.eq_backslash]) hescape
  · have := h.length_le h' (List.cons_prefix_cons.1 hp).2
    simpa using this

namespace Scanner

variable {s t u start : Scanner} {b : UInt8} {after : List UInt8} {kind alone : TokenKind}
  {longer : List (Char × TokenKind)}

theorem takes_oneChar (h : s.Settled) (hs : s.rest = b :: after) :
    ∃ more, OneChar (b :: more) ∧ s.Takes (b :: more) s.bumpChar := by
  obtain ⟨more, htakes, hall⟩ := takes_bumpChar hs
  have hwhole : Whole (b :: more ++ s.bumpChar.rest) := htakes.rest ▸ h
  exact ⟨more, (hwhole.split (settled_bumpChar h).head).1.oneChar hall, htakes⟩

theorem closeChar_eq (hk : (start.closeChar s).1.kind ≠ .error) :
    s.peek = some apostrophe ∧ start.closeChar s = start.make s.bump .charLit := by
  unfold closeChar at *
  split at hk
  next hs => exact ⟨hs, if_pos hs⟩
  next =>
    split at hk
    · exact absurd rfl hk
    · exact absurd rfl hk

theorem munches_charLiteral (h : s.Settled) (hs : s.rest = apostrophe :: after) :
    s.FindsLongest (s.charLiteral s.bump) := by
  have hset : s.bump.Settled := settled_bump h (by simp [peek, hs]; decide)
  intro hk
  unfold charLiteral at hk ⊢
  cases hp : s.bump.peek with
  | none =>
    simp only [hp] at hk
    exact absurd rfl hk
  | some b =>
    obtain ⟨rest, hrest⟩ := peek_eq_some hp
    simp only [hp] at hk ⊢
    split at hk
    next => exact absurd rfl hk
    next hfeed =>
      rw [if_neg hfeed]
      split at hk
      next hescape =>
        subst hescape
        split at hk
        next => exact absurd rfl hk
        next hnonempty =>
          obtain ⟨c, rest', hrest'⟩ := List.exists_cons_of_ne_nil (l := s.bump.bump.rest)
            (by simpa using hnonempty)
          obtain ⟨hclose, heq⟩ := closeChar_eq hk
          obtain ⟨last, hlast⟩ := peek_eq_some hclose
          obtain ⟨more, hchar, htakes⟩ := takes_oneChar
            (settled_bump hset (by simp [hp]; decide)) hrest'
          rw [if_pos rfl, if_neg hnonempty, heq]
          refine ⟨_, ?_, longest_escape hchar⟩
          exact (takes_bump hs).trans
            ((takes_bump hrest).trans (htakes.trans (takes_bump hlast)))
      next hescape =>
        split at hk
        next => exact absurd rfl hk
        next hquote =>
          obtain ⟨hclose, heq⟩ := closeChar_eq hk
          obtain ⟨last, hlast⟩ := peek_eq_some hclose
          obtain ⟨more, hchar, htakes⟩ := takes_oneChar hset hrest
          rw [if_neg hescape, if_neg hquote, heq]
          refine ⟨_, (takes_bump hs).trans (htakes.trans (takes_bump hlast)),
            longest_char hchar ?_ ?_ ?_⟩
          · exact fun he => hquote (List.cons.inj he).1
          · exact fun he => hescape (List.cons.inj he).1
          · exact fun he => hfeed (List.cons.inj he).1

end Scanner

/-! ### Runs of digits and of letters -/

section Runs

variable {p : UInt8 → Bool} {word run more rest : List UInt8} {b : UInt8}

/-- Some bytes of a kind in front of others are no more than the whole run. -/
theorem length_le_run (hword : ∀ b ∈ word, p b = true) (hrest : ∀ b ∈ rest.head?, p b = false)
    (h : word <+: run ++ rest) : word.length ≤ run.length := by
  rcases Nat.lt_or_ge run.length word.length with hlt | hle
  · obtain ⟨tail, rfl⟩ := List.prefix_of_prefix_length_le (List.prefix_append run rest) h hlt.le
    have htail := (List.prefix_append_right_inj run).1 h
    cases tail with
    | nil => simp at hlt
    | cons b tail =>
      obtain ⟨tail', rfl⟩ := htail
      have := hword b (by simp)
      simp [hrest b rfl] at this
  · exact hle

/-- If something else comes behind them, they are the whole run. -/
theorem eq_run (hword : ∀ b ∈ word, p b = true) (hrun : ∀ b ∈ run, p b = true)
    (hrest : ∀ b ∈ rest.head?, p b = false) (hb : p b = false)
    (h : word ++ b :: more <+: run ++ rest) : word = run ∧ b :: more <+: rest := by
  have hword_le := length_le_run hword hrest ((List.prefix_append word (b :: more)).trans h)
  obtain ⟨tail, rfl⟩ := List.prefix_of_prefix_length_le
    ((List.prefix_append word (b :: more)).trans h) (List.prefix_append run rest) hword_le
  rw [List.append_assoc, List.prefix_append_right_inj] at h
  cases tail with
  | nil => exact ⟨(List.append_nil _).symm, h⟩
  | cons c tail =>
    obtain rfl : b = c := (List.cons_prefix_cons.1 h).1
    simp [hrun b (by simp)] at hb

end Runs

/-! ### Numbers -/

theorem isDigit_suffix {b : UInt8} (h : byteChar b ∈ ['l', 'L', 'f', 'F', 'd', 'D']) :
    isDigit b = false := by
  have hall : ∀ b : UInt8, byteChar b ∈ ['l', 'L', 'f', 'F', 'd', 'D'] → isDigit b = false :=
    forall_byte (by decide +kernel)
  exact hall b h

/-- A number in front of other bytes ends inside its first digits or goes on behind all of them. -/
theorem Numeric.cases {p whole rest : List UInt8} (h : Numeric p) (hw : Digits whole)
    (hrest : ∀ b ∈ rest.head?, isDigit b = false) (hp : p <+: whole ++ rest) :
    p.length ≤ whole.length ∨ ∃ more, p = whole ++ more ∧ more <+: rest ∧ NumberTail more := by
  obtain ⟨digits, tail, ⟨-, hd⟩, htail, rfl⟩ := h
  have hmore {b : UInt8} {more : List UInt8} (hb : isDigit b = false)
      (hp : digits ++ b :: more <+: whole ++ rest) (htail : NumberTail (b :: more)) :
      ∃ tail, digits ++ b :: more = whole ++ tail ∧ tail <+: rest ∧ NumberTail tail := by
    obtain ⟨rfl, hmore⟩ := eq_run hd hw.2 hrest hb hp
    exact ⟨b :: more, rfl, hmore, htail⟩
  cases htail with
  | nil =>
    rw [List.append_nil] at hp ⊢
    exact .inl (length_le_run hd hrest hp)
  | long hb => exact .inr (hmore (isDigit_suffix (List.mem_append_left _ hb)) hp (.long hb))
  | fraction hpart => exact .inr (hmore (by decide) hp (.fraction hpart))
  | suffix hpart hb => exact .inr (hmore (by decide) hp (.suffix hpart hb))

theorem numeric_of_spells {k : TokenKind} {p whole rest : List UInt8} (h : Spells k p)
    (hw : Digits whole) (hp : p <+: whole ++ rest) : Numeric p := by
  obtain ⟨b, tail, rfl, hfollow⟩ := mayFollow_of_spells h
  obtain ⟨hne, hall⟩ := hw
  obtain ⟨c, digits, rfl⟩ := List.exists_cons_of_ne_nil hne
  obtain rfl : b = c := (List.cons_prefix_cons.1 hp).1
  exact (mayFollow_digit (hall b List.mem_cons_self)).1 hfollow

namespace Scanner

variable {s t u v start : Scanner} {b : UInt8} {after whole : List UInt8} {kind alone : TokenKind}
  {longer : List (Char × TokenKind)}

theorem closeNumber_eq (s : Scanner) (kind : TokenKind)
    (hk : (start.closeNumber s kind).1.kind ≠ .error) :
    start.closeNumber s kind = start.make s kind := by
  unfold closeNumber at *
  split at hk
  next => exact absurd rfl hk
  next hs => exact if_neg hs

/-- A digit after a decimal point. -/
theorem begins_fraction {part : List UInt8} (hpart : Digits part) (h : point :: part <+: u.rest) :
    u.Begins '.' isDigit := by
  obtain ⟨hne, hall⟩ := hpart
  obtain ⟨d, part, rfl⟩ := List.exists_cons_of_ne_nil hne
  obtain ⟨rest, hrest⟩ := h
  simp only [Begins, peek, peekSecond, ← hrest, List.cons_append, List.head?_cons, List.tail_cons,
    Option.map_some, Option.any_some]
  exact ⟨by decide, hall d List.mem_cons_self⟩

theorem munches_fraction (hw : Digits whole) (ht : start.Takes whole u)
    (hu : ∀ c ∈ u.peek, isDigit c = false) (hpoint : u.Begins '.' isDigit) :
    start.FindsLongest (start.fraction u) := by
  obtain ⟨a, d, after, hrest, hd⟩ := hpoint.cons
  obtain rfl : a = point := by
    have := hpoint.1
    rw [peek, hrest] at this
    exact UInt8.toNat_inj.1 (byteChar_eq (Option.some.inj this))
  have htakes := (takes_bump hrest).trans (takes_eatWhile u.bump isDigit)
  have hstop : ∀ c ∈ (u.bump.eatWhile isDigit).rest.head?, isDigit c = false :=
    fun c hc => peek_eatWhile hc
  generalize hpart : u.bump.rest.takeWhile isDigit = part at htakes
  have hdigits : Digits part := by
    subst hpart
    rw [rest_bump, hrest, List.tail_cons]
    exact ⟨by simp [hd], List.all_eq_true.1 List.all_takeWhile⟩
  rw [fraction, if_pos hpoint]
  refine munches_extended closeNumber_eq (ht.trans htakes) (.double hw hdigits) ?_ ?_
  · intro c kind hmem
    simp only [List.mem_cons, Prod.mk.injEq, List.not_mem_nil, or_false] at hmem
    rw [List.append_assoc]
    rcases hmem with ⟨hc, rfl⟩ | ⟨hc, rfl⟩ | ⟨hc, rfl⟩ | ⟨hc, rfl⟩
    · exact .float hw hdigits (by simp [hc])
    · exact .float hw hdigits (by simp [hc])
    · exact .doubleSuffix hw hdigits (by simp [hc])
    · exact .doubleSuffix hw hdigits (by simp [hc])
  · intro k p hk hp
    rw [List.append_assoc, ← htakes.rest] at hp
    rcases (numeric_of_spells hk hw hp).cases hw hu hp with hle | ⟨more, rfl, hmore, htail⟩
    · left
      rw [List.length_append]
      omega
    rw [htakes.rest] at hmore
    cases htail with
    | nil => exact .inl (by simp)
    | long hc =>
      obtain rfl := (List.cons_prefix_cons.1 hmore).1
      exact absurd hc (by decide)
    | @fraction part' hpart' =>
      have hle : part'.length ≤ part.length :=
        length_le_run hpart'.2 hstop (List.cons_prefix_cons.1 hmore).2
      exact .inl (by simpa using hle)
    | @suffix part' c hpart' hc =>
      obtain ⟨rfl, hc'⟩ := eq_run hpart'.2 hdigits.2 hstop
        (isDigit_suffix (List.mem_append_right ['l', 'L'] hc)) (List.cons_prefix_cons.1 hmore).2
      exact .inr ⟨c, hc', by simpa using hc, by simp⟩

theorem munches_whole (hw : Digits whole) (ht : start.Takes whole u)
    (hu : ∀ c ∈ u.peek, isDigit c = false) (hpoint : ¬u.Begins '.' isDigit) :
    start.FindsLongest (start.fraction u) := by
  rw [fraction, if_neg hpoint]
  refine munches_extended closeNumber_eq ht (.int hw) ?_ ?_
  · intro c kind hmem
    simp only [List.mem_cons, Prod.mk.injEq, List.not_mem_nil, or_false] at hmem
    rcases hmem with ⟨hc, rfl⟩ | ⟨hc, rfl⟩
    · exact .long hw (by simp [hc])
    · exact .long hw (by simp [hc])
  · intro k p hk hp
    rcases (numeric_of_spells hk hw hp).cases hw hu hp with hle | ⟨more, rfl, hmore, htail⟩
    · exact .inl hle
    cases htail with
    | nil => exact .inl (by simp)
    | long hc => exact .inr ⟨_, hmore, by simpa using hc, rfl⟩
    | fraction hpart => exact absurd (begins_fraction hpart hmore) hpoint
    | @suffix part c hpart =>
      have hfront : point :: part <+: point :: (part ++ [c]) := List.prefix_append (point :: part) _
      exact absurd (begins_fraction hpart (hfront.trans hmore)) hpoint

theorem munches_number (hs : s.rest = b :: after) (hb : isDigit b = true) :
    s.FindsLongest (s.number s.bump) := by
  rw [number_eq]
  have hdigits : Digits (b :: s.bump.rest.takeWhile isDigit) := by
    refine ⟨List.cons_ne_nil _ _, List.forall_mem_cons.2 ⟨hb, ?_⟩⟩
    exact List.all_eq_true.1 List.all_takeWhile
  have htakes := (takes_bump hs).trans (takes_eatWhile s.bump isDigit)
  by_cases hpoint : (s.bump.eatWhile isDigit).Begins '.' isDigit
  · exact munches_fraction hdigits htakes (fun c hc => peek_eatWhile hc) hpoint
  · exact munches_whole hdigits htakes (fun c hc => peek_eatWhile hc) hpoint

/-! ### Names, keywords and tags -/

theorem munches_tag (hs : s.rest = b :: after) (hb : byteChar b = '@') :
    s.FindsLongest (s.tag s.bump) := by
  obtain rfl : b = atSign := UInt8.toNat_inj.1 (byteChar_eq hb)
  unfold tag
  cases hp : s.bump.peek with
  | none => exact fun hk => absurd rfl hk
  | some c =>
    obtain ⟨rest, hrest⟩ := peek_eq_some hp
    dsimp only
    split
    next hmark =>
      obtain rfl : c = exclamationMark := UInt8.toNat_inj.1 (byteChar_eq hmark)
      intro _
      refine ⟨_, (takes_bump hs).trans (takes_bump hrest), longest_of_mayFollow .mark ?_⟩
      intro tail hp hf
      rcases (hf : tail = [exclamationMark] ∨ Named tail) with rfl | ⟨d, tail, rfl, hd, -⟩
      · exact Nat.le_refl _
      · obtain rfl : d = exclamationMark := (List.cons_prefix_cons.1 hp).1
        exact absurd hd (by decide)
    next hmark =>
      split
      next hstarts =>
        intro _
        have htakes := takes_eatWhile s.bump continuesName
        have hword : Named (s.bump.rest.takeWhile continuesName) := by
          rw [hrest, List.takeWhile_cons, if_pos (continuesName_of_startsName hstarts)]
          exact ⟨c, _, rfl, hstarts, List.all_eq_true.1 List.all_takeWhile⟩
        refine ⟨_, (takes_bump hs).trans htakes, longest_of_mayFollow (.tag hword) ?_⟩
        intro tail hp hf
        rcases (hf : tail = [exclamationMark] ∨ Named tail) with rfl | hnamed
        · obtain ⟨d, tail, heq, -⟩ := hword
          rw [heq]
          exact Nat.succ_le_succ (Nat.zero_le _)
        · exact length_le_run hnamed.continues (fun d hd => peek_eatWhile hd) hp
      next => exact fun hk => absurd rfl hk

theorem munches_word (hs : s.rest = b :: after) (hb : startsName b = true) :
    s.FindsLongest (s.word s.bump) := by
  have htakes := (takes_bump hs).trans (takes_eatWhile s.bump continuesName)
  have hnamed : Named (b :: s.bump.rest.takeWhile continuesName) :=
    ⟨b, _, rfl, hb, List.all_eq_true.1 List.all_takeWhile⟩
  intro _
  refine ⟨_, htakes, ?_⟩
  have hbytes : s.rest.take ((s.bump.eatWhile continuesName).offset - s.offset) =
      b :: s.bump.rest.takeWhile continuesName := by
    rw [htakes.offset, Nat.add_sub_cancel_left, htakes.rest, List.take_left]
    rfl
  simp only [word, make, hbytes]
  refine longest_of_mayFollow (spells_ofWord hnamed) ?_
  intro tail hp hf
  exact length_le_run ((mayFollow_name hb).1 hf) (fun d hd => peek_eatWhile hd) hp

/-- A token that is no error is the longest that starts where it starts. -/
theorem munches_lexeme (h : s.Settled) (hne : s.rest ≠ []) : s.FindsLongest s.lexeme := by
  obtain ⟨b, after, hs⟩ := List.exists_cons_of_ne_nil hne
  unfold lexeme
  simp only [hs]
  split
  next alone longer ho => exact munches_operator hs ho
  next =>
    split
    next hdot => exact munches_dots hs hdot
    next =>
      split
      next hquote => exact munches_string (hquote ▸ hs)
      next =>
        split
        next hquote => exact munches_charLiteral h (hquote ▸ hs)
        next =>
          split
          next hdigit => exact munches_number hs hdigit
          next =>
            split
            next hat => exact munches_tag hs hat
            next =>
              split
              next hstarts => exact munches_word hs hstarts
              next => exact fun hk => absurd rfl hk

end Scanner

/-! ### Texts -/

/-- The bytes from `offset` on are these tokens, with gaps between and around them, and every token
that is no error is the longest that starts where it starts. -/
inductive Munched : Nat → List UInt8 → List Token → Prop
  | eof {offset : Nat} {gap : List UInt8} {t : Token} : Gap [] gap → t.kind = .eof →
      t.span = Span.ofRange (offset + gap.length) (offset + gap.length) → Munched offset gap [t]
  | token {offset : Nat} {gap word rest : List UInt8} {t : Token} {ts : List Token} :
      Gap (word ++ rest) gap → t.kind ≠ .eof → word ≠ [] → Whole word →
      (t.kind ≠ .error → Longest t.kind word rest) →
      t.span = Span.ofRange (offset + gap.length) (offset + gap.length + word.length) →
      Munched (offset + gap.length + word.length) rest ts →
      Munched offset (gap ++ (word ++ rest)) (t :: ts)

theorem Scanner.munched_tokens {s : Scanner} (h : s.Settled) :
    Munched s.offset s.rest (s.tokens.map Prod.fst) := by
  fun_induction tokens s with
  | case1 s t u hnext ih =>
    have htoken := next_token h
    rw [hnext] at htoken
    rw [List.map_cons]
    split
    next hk =>
      obtain ⟨hgap, hspan⟩ := next_eof (by rw [hnext]; exact hk)
      rw [hnext] at hspan
      exact .eof hgap hk hspan
    next hk =>
      obtain ⟨start, gap, word, hs, hw, hg, hne, hstart, hu, hspan, hlexeme⟩ := htoken hk
      have hoffset : u.offset = s.offset + gap.length + word.length := by rw [hw.offset, hs.offset]
      have hwhole : Whole (word ++ u.rest) := hw.rest ▸ hstart
      rw [hs.offset, hoffset] at hspan
      rw [hs.rest, hw.rest]
      refine .token (hw.rest ▸ hg) hk hne (hwhole.split hu.head).1 ?_ hspan (hoffset ▸ ih hk hu)
      intro herror
      have hfinds := munches_lexeme hstart (by simp [hw.rest, hne])
      rw [← hlexeme herror] at hfinds
      obtain ⟨word', hword', hlongest⟩ := hfinds herror
      obtain rfl : word = word' := List.append_cancel_right (hw.rest.symm.trans hword'.rest)
      exact hlongest

/-- In a text shorter than four gibibytes these are the bytes under the span of the token. -/
theorem Munched.lexeme {offset : Nat} {bytes pre : List UInt8} {ts : List Token}
    (h : Munched offset bytes ts) (hpre : pre.length = offset)
    (hsmall : (pre ++ bytes).length ≤ maxOffset) :
    ∀ t ∈ ts, t.kind ≠ .error → t.kind ≠ .eof → ∃ rest,
      (pre ++ bytes).drop t.span.start = utf8 (t.lexeme (pre ++ bytes).toArray) ++ rest ∧
        Longest t.kind (utf8 (t.lexeme (pre ++ bytes).toArray)) rest := by
  induction h generalizing pre with
  | eof _ hk =>
    intro t ht _ hnot
    obtain rfl := List.mem_singleton.1 ht
    exact absurd hk hnot
  | @token offset gap word rest t ts _ _ _ hword hlongest hspan _ ih =>
    have hlen : (pre ++ gap).length = offset + gap.length := by rw [List.length_append, hpre]
    rw [← List.append_assoc pre] at hsmall ⊢
    intro u hu herror heof
    rcases List.mem_cons.1 hu with rfl | hu
    · have hlexeme : u.lexeme (pre ++ gap ++ (word ++ rest)).toArray = utf8Text word := by
        rw [Token.lexeme, hspan, ← hlen]
        exact slice_ofRange hsmall
      have hstart : u.span.start = (pre ++ gap).length := by
        rw [List.length_append] at hsmall
        rw [hspan, ← hlen]
        exact Nat.min_eq_left (by omega)
      rw [hlexeme, hword.utf8_text, hstart, List.drop_left]
      exact ⟨rest, rfl, hlongest herror⟩
    · have hbehind : (pre ++ gap ++ word).length = offset + gap.length + word.length := by
        rw [List.length_append, hlen]
      have htail := ih hbehind
      rw [List.append_assoc (pre ++ gap)] at htail
      exact htail hsmall u hu herror heof

/-- Longest match: every token of a text that is neither an error nor the end is a spelling of its
kind, and no longer prefix of the text from there on is a spelling of any kind. In a text shorter
than four gibibytes it is what stands under the span of the token. -/
theorem maximal_munch (text : String) :
    Munched 0 (utf8 text) (tokenize text) ∧
    (text.utf8ByteSize ≤ maxOffset →
      ∀ t ∈ tokenize text, t.kind ≠ .error → t.kind ≠ .eof → ∃ rest,
        (utf8 text).drop t.span.start = utf8 (t.lexeme text.toUTF8.data) ++ rest ∧
          Longest t.kind (utf8 (t.lexeme text.toUTF8.data)) rest) := by
  have hmunched : Munched 0 (utf8 text) (tokenize text) :=
    Scanner.munched_tokens (s := .ofBytes (utf8 text)) (Whole.ofString text)
  have hempty : ([] : List UInt8).length = 0 := rfl
  exact ⟨hmunched, fun hsmall => hmunched.lexeme hempty hsmall⟩

/-- The two signs of a shift are one token, although the assignment behind them is not. -/
theorem munch_of_shift : "a>>=1.5f".utf8ByteSize ≤ maxOffset ∧
    ∃ rest, (utf8 "a>>=1.5f").drop 1 = utf8 ">>" ++ rest ∧
      Longest .shiftRight (utf8 ">>") rest := by
  have hsmall : "a>>=1.5f".utf8ByteSize ≤ maxOffset := by decide +kernel
  have hmem : (⟨.shiftRight, none, ⟨1, 3⟩, 1, 2⟩ : Token) ∈ tokenize "a>>=1.5f" := by
    decide +kernel
  have hlexeme : (⟨1, 3⟩ : Span).slice "a>>=1.5f".toUTF8.data = ">>" := by decide +kernel
  have hmunch := (maximal_munch "a>>=1.5f").2 hsmall _ hmem (by decide) (by decide)
  rw [Token.lexeme, hlexeme] at hmunch
  exact ⟨hsmall, hmunch⟩

end FrontEnd
