import FrontEnd.Proofs.Token.Characters

/-!
The tokens of a text and what lies between them. A gap is made of blanks and comments, and every
byte is in one gap or in one token.
-/

namespace FrontEnd

def slash : UInt8 := 47

def star : UInt8 := 42

/-- The bytes start with the start or the end of a block comment. -/
def Delimits : List UInt8 → Prop
  | a :: b :: _ => a = slash ∧ b = star ∨ a = star ∧ b = slash
  | _ => False

/-- What stands inside a block comment: other comments that are closed, and bytes between. -/
inductive Enclosed : List UInt8 → Prop
  | nil : Enclosed []
  | byte {b : UInt8} {body : List UInt8} :
      ¬Delimits (b :: body ++ [star, slash]) → Enclosed body → Enclosed (b :: body)
  | comment {inner body : List UInt8} : Enclosed inner → Enclosed body →
      Enclosed (slash :: star :: inner ++ star :: slash :: body)

/-- Blanks and comments up to `after`. A line comment reaches to a line feed or to the end. -/
inductive Gap (after : List UInt8) : List UInt8 → Prop
  | nil : Gap after []
  | blank {b : UInt8} {gap : List UInt8} :
      b ∈ [32, 9, 13, lineFeed] → Gap after gap → Gap after (b :: gap)
  | line {body gap : List UInt8} : lineFeed ∉ body → (∀ b ∈ (gap ++ after).head?, b = lineFeed) →
      Gap after gap → Gap after (slash :: slash :: body ++ gap)
  | block {body gap : List UInt8} : Enclosed body → Gap after gap →
      Gap after (slash :: star :: body ++ star :: slash :: gap)

/-- The bytes from `offset` on are these tokens, with gaps between and around them. No token cuts a
character. -/
inductive Covers : Nat → List UInt8 → List Token → Prop
  | eof {offset : Nat} {gap : List UInt8} {t : Token} : Gap [] gap → t.kind = .eof →
      t.span = ⟨offset + gap.length, offset + gap.length⟩ → Covers offset gap [t]
  | token {offset : Nat} {gap word rest : List UInt8} {t : Token} {ts : List Token} :
      Gap (word ++ rest) gap → t.kind ≠ .eof → word ≠ [] → Whole (word ++ rest) → Whole rest →
      t.span = ⟨offset + gap.length, offset + gap.length + word.length⟩ →
      Covers (offset + gap.length + word.length) rest ts →
      Covers offset (gap ++ word ++ rest) (t :: ts)

namespace Scanner

variable {s t u : Scanner} {bytes more : List UInt8} {p : UInt8 → Bool}

/-- `t` stands behind `s`, with these bytes between. -/
structure Takes (s : Scanner) (bytes : List UInt8) (t : Scanner) : Prop where
  rest : s.rest = bytes ++ t.rest
  offset : t.offset = s.offset + bytes.length

theorem Takes.refl (s : Scanner) : s.Takes [] s := ⟨rfl, rfl⟩

theorem Takes.trans (h : s.Takes bytes t) (h' : t.Takes more u) : s.Takes (bytes ++ more) u where
  rest := by rw [h.rest, h'.rest, List.append_assoc]
  offset := by rw [h'.offset, h.offset, List.length_append, Nat.add_assoc]

theorem Passes.takes (h : s.Passes t) : ∃ bytes, s.Takes bytes t := by
  obtain ⟨k, hk, hrest, hoff⟩ := h.drops
  refine ⟨s.rest.take k, ?_, ?_⟩
  · rw [hrest, List.take_append_drop]
  · rw [hoff, List.length_take, Nat.min_eq_left hk]

theorem takes_bump {b : UInt8} {after : List UInt8} (h : s.rest = b :: after) :
    s.Takes [b] s.bump := by
  refine ⟨by rw [rest_bump, h]; rfl, ?_⟩
  unfold bump
  simp only [h]
  split <;> rfl

theorem takes_skip_two {b c : UInt8} {after : List UInt8} (h : s.rest = b :: c :: after) :
    s.Takes [b, c] (s.skip 2) :=
  ⟨by rw [rest_skip, h]; rfl, by simp [skip, h]⟩

theorem takes_eatWhile (s : Scanner) (p : UInt8 → Bool) :
    s.Takes (s.rest.takeWhile p) (s.eatWhile p) := by
  refine ⟨by rw [rest_eatWhile, List.takeWhile_append_dropWhile], ?_⟩
  have htake := (List.prefix_iff_eq_take.1 (List.takeWhile_prefix (l := s.rest) p)).symm
  simp only [eatWhile, skip, htake]

theorem takes_skipTo? (h : s.skipTo? p = some t) :
    ∃ bytes, s.Takes bytes t ∧ ∀ b ∈ bytes, p b = false := by
  obtain ⟨len, hlen, rfl⟩ := Option.map_eq_some_iff.1 h
  obtain ⟨hlt, -, hall⟩ := List.findIdx?_eq_some_iff_getElem.1 hlen
  refine ⟨s.rest.take len, ⟨?_, rfl⟩, fun b hb => ?_⟩
  · rw [rest_skip, List.take_append_drop]
  · obtain ⟨i, hi, rfl⟩ := List.mem_take_iff_getElem.1 hb
    simpa using hall i (by omega)

theorem byteChar_eq {b : UInt8} {c : Char} (h : byteChar b = c) : b.toNat = c.toNat := by
  rw [← h, toNat_byteChar]

theorem eq_slash {b : UInt8} (h : byteChar b = '/') : b = slash := UInt8.toNat_inj.1 (byteChar_eq h)

theorem eq_star {b : UInt8} (h : byteChar b = '*') : b = star := UInt8.toNat_inj.1 (byteChar_eq h)

/-! ### Comments -/

/-- The end of a block comment `depth` levels below the outermost, and of all around it. -/
def Closes : Nat → List UInt8 → Prop
  | 0, bytes => ∃ body, Enclosed body ∧ bytes = body ++ [star, slash]
  | depth + 1, bytes => ∃ body rest, Enclosed body ∧ bytes = body ++ star :: slash :: rest ∧
      Closes depth rest

/-- What is inside the innermost comment, and what follows it. -/
theorem Closes.split {depth : Nat} (h : Closes depth bytes) : ∃ body rest, Enclosed body ∧
    bytes = body ++ star :: slash :: rest ∧
    ∀ body', Enclosed body' → Closes depth (body' ++ star :: slash :: rest) := by
  cases depth with
  | zero =>
    obtain ⟨body, hbody, rfl⟩ := h
    exact ⟨body, [], hbody, rfl, fun body' hbody' => ⟨body', hbody', rfl⟩⟩
  | succ depth =>
    obtain ⟨body, rest, hbody, rfl, hrest⟩ := h
    exact ⟨body, rest, hbody, rfl, fun body' hbody' => ⟨body', rest, hbody', rfl, hrest⟩⟩

theorem Closes.byte {b : UInt8} {depth : Nat} (h : Closes depth bytes)
    (hb : ¬Delimits (b :: bytes)) :
    Closes depth (b :: bytes) := by
  obtain ⟨body, rest, hbody, rfl, hput⟩ := h.split
  refine hput (b :: body) (.byte ?_ hbody)
  cases body <;> exact hb

theorem Closes.comment {depth : Nat} (h : Closes (depth + 1) bytes) :
    Closes depth (slash :: star :: bytes) := by
  obtain ⟨inner, rest, hinner, rfl, hrest⟩ := h
  obtain ⟨body, rest, hbody, rfl, hput⟩ := hrest.split
  simpa using hput _ (.comment hinner hbody)

theorem Closes.append {depth : Nat} (h : Closes depth bytes)
    (hmore : ∀ b ∈ more, b ≠ slash ∧ b ≠ star) : Closes depth (more ++ bytes) := by
  induction more with
  | nil => exact h
  | cons b more ih =>
    refine (ih fun c hc => hmore c (List.mem_cons_of_mem _ hc)).byte fun hd => ?_
    obtain ⟨h1, h2⟩ := hmore b List.mem_cons_self
    cases hbytes : more ++ bytes with
    | nil => rw [hbytes] at hd; exact hd
    | cons c rest => rw [hbytes] at hd; exact hd.elim (h1 ·.1) (h2 ·.1)

theorem takes_closeComment {depth : Nat} (h : closeComment depth s = .ok t) :
    ∃ bytes, s.Takes bytes t ∧ Closes depth bytes := by
  have hseek {s u : Scanner}
      (hu : s.skipTo? (fun b => byteChar b == '*' || byteChar b == '/') = some u) :
      ∃ bytes, s.Takes bytes u ∧ ∀ b ∈ bytes, b ≠ slash ∧ b ≠ star := by
    obtain ⟨bytes, htakes, hall⟩ := takes_skipTo? hu
    refine ⟨bytes, htakes, fun b hb => ⟨?_, ?_⟩⟩ <;> rintro rfl <;> exact absurd (hall _ hb)
      (by decide)
  have htwo {u : Scanner} {b : UInt8} {after : List UInt8} {d : Char} (hb : u.rest = b :: after)
      (hd : after.head?.map byteChar = some d) :
          ∃ c, byteChar c = d ∧ u.Takes [b, c] (u.skip 2) := by
    obtain ⟨c, hc, hcd⟩ := Option.map_eq_some_iff.1 hd
    obtain ⟨rest, rfl⟩ := List.head?_eq_some_iff.1 hc
    exact ⟨c, hcd, takes_skip_two hb⟩
  fun_induction closeComment depth s with
  | case1 => cases h
  | case2 => cases h
  | case3 s u hu b after hb h2 h1 =>
    obtain ⟨pre, hpre, hplain⟩ := hseek hu
    obtain ⟨c, hc, htake⟩ := htwo hb h2
    cases h
    rw [eq_star h1, eq_slash hc] at htake
    exact ⟨_, hpre.trans htake, Closes.append ⟨[], .nil, rfl⟩ hplain⟩
  | case4 depth s u hu b after hb h2 h1 hdepth ih =>
    obtain ⟨pre, hpre, hplain⟩ := hseek hu
    obtain ⟨c, hc, htake⟩ := htwo hb h2
    obtain ⟨bytes, hbytes, hcloses⟩ := ih h
    rw [eq_star h1, eq_slash hc] at htake
    obtain ⟨depth, rfl⟩ := Nat.exists_eq_succ_of_ne_zero hdepth
    exact ⟨_, hpre.trans (htake.trans hbytes), Closes.append ⟨[], bytes, .nil, rfl, hcloses⟩ hplain⟩
  | case5 depth s u hu b after hb h2 h1 ih =>
    obtain ⟨pre, hpre, hplain⟩ := hseek hu
    obtain ⟨c, hc, htake⟩ := htwo hb h2
    obtain ⟨bytes, hbytes, hcloses⟩ := ih h
    rw [eq_slash h1, eq_star hc] at htake
    exact ⟨_, hpre.trans (htake.trans hbytes), hcloses.comment.append hplain⟩
  | case6 depth s u hu b after hb h1 h2 ih =>
    obtain ⟨pre, hpre, hplain⟩ := hseek hu
    obtain ⟨bytes, hbytes, hcloses⟩ := ih h
    refine ⟨_, hpre.trans ((takes_bump hb).trans hbytes), Closes.append (hcloses.byte ?_) hplain⟩
    have hrest := hbytes.rest
    rw [rest_bump, hb, List.tail_cons] at hrest
    cases bytes with
    | nil => exact id
    | cons c bytes =>
      rw [hrest] at h1 h2
      rintro (⟨rfl, rfl⟩ | ⟨rfl, rfl⟩)
      · exact h2 (by decide) rfl
      · exact h1 (by decide) rfl

theorem rest_closeComment_error {depth : Nat} (h : closeComment depth s = .error t) :
    t.rest = [] := by
  fun_induction closeComment depth s with
  | case1 =>
    cases h
    rw [skipAll, rest_skip, List.drop_length]
  | case2 depth s u hu hb =>
    cases h
    exact hb
  | case3 => cases h
  | case4 | case5 | case6 =>
    rename_i ih
    exact ih h

/-- What was passed over before a token is a gap. A comment that does not end reaches to the end. -/
def PassesGap (s : Scanner) : Trivia → Prop
  | .passed t => ∃ gap, s.Takes gap t ∧ Gap t.rest gap
  | .unterminated start stop => ∃ gap, s.Takes gap start ∧ Gap start.rest gap ∧
      ∃ word, word ≠ [] ∧ start.Takes word stop ∧ stop.rest = []

theorem PassesGap.after {r : Trivia} (h : u.PassesGap r) (ht : s.Takes bytes u)
    (hgap : ∀ {gap after}, u.rest = gap ++ after → Gap after gap → Gap after (bytes ++ gap)) :
    s.PassesGap r := by
  cases r with
  | passed t =>
    obtain ⟨gap, htakes, hg⟩ := h
    exact ⟨_, ht.trans htakes, hgap htakes.rest hg⟩
  | unterminated start stop =>
    obtain ⟨gap, htakes, hg, hword⟩ := h
    exact ⟨_, ht.trans htakes, hgap htakes.rest hg, hword⟩

theorem passesGap_skipTrivia (s : Scanner) : s.PassesGap s.skipTrivia := by
  have htwo {s : Scanner} {b : UInt8} {after : List UInt8} {d : Char} (hb : s.rest = b :: after)
      (h1 : byteChar b = '/') (hd : after.head?.map byteChar = some d) :
      ∃ c, byteChar c = d ∧ s.Takes [slash, c] (s.skip 2) := by
    obtain ⟨c, hc, hcd⟩ := Option.map_eq_some_iff.1 hd
    obtain ⟨rest, rfl⟩ := List.head?_eq_some_iff.1 hc
    exact ⟨c, hcd, takes_skip_two (eq_slash h1 ▸ hb)⟩
  fun_induction skipTrivia s with
  | case1 s => exact ⟨[], .refl s, .nil⟩
  | case2 s b after hb hblank ih =>
    refine ih.after (takes_bump hb) fun _ hg => .blank ?_ hg
    simpa [isBlank, or_assoc] using hblank
  | case3 s b after hb _ h2 h1 ih =>
    obtain ⟨c, hc, htake⟩ := htwo hb h1 h2
    rw [eq_slash hc] at htake
    refine ih.after (htake.trans (takes_eatWhile ..)) fun hrest hg => .line ?_ ?_ hg
    · intro hmem
      exact absurd ((List.all_eq_true.1 List.all_takeWhile) lineFeed hmem) (by decide)
    · rw [← hrest]
      intro d hd
      simpa using peek_eatWhile hd
  | case4 s b after hb _ h2 h1 t ht ih =>
    obtain ⟨c, hc, htake⟩ := htwo hb h1 h2
    obtain ⟨bytes, hbytes, body, hbody, rfl⟩ := takes_closeComment ht
    rw [eq_star hc] at htake
    refine ih.after (htake.trans hbytes) fun _ hg => ?_
    simpa using Gap.block hbody hg
  | case5 s b after hb _ h2 h1 stop hstop =>
    obtain ⟨c, hc, htake⟩ := htwo hb h1 h2
    have hends := ends_closeComment 0 (s.skip 2)
    rw [hstop] at hends
    obtain ⟨bytes, hbytes⟩ := Passes.takes hends
    exact ⟨[], .refl s, .nil, _, by simp, htake.trans hbytes, rest_closeComment_error hstop⟩
  | case6 s => exact ⟨[], .refl s, .nil⟩

/-! ### Tokens -/

theorem span_lexeme (s : Scanner) :
    s.lexeme.1.span = Span.ofRange s.offset s.lexeme.2.offset := by
  unfold lexeme operator dots string charLiteral closeChar number closeNumber tag word
  dsimp only
  repeat' split
  all_goals rfl

theorem next_of_passed (h : s.skipTrivia = .passed t) : s.next = t.lexeme := by
  simp only [next, h]

theorem next_of_unterminated {start stop : Scanner} (h : s.skipTrivia = .unterminated start stop) :
    s.next = start.fail stop .unterminatedComment := by
  simp only [next, h]

/-- After the last token only a gap is left. -/
theorem next_eof (hk : s.next.1.kind = .eof) : Gap [] s.rest ∧
    s.next.1.span = Span.ofRange (s.offset + s.rest.length) (s.offset + s.rest.length) := by
  have hgap := passesGap_skipTrivia s
  cases ht : s.skipTrivia with
  | passed t =>
    rw [ht] at hgap
    obtain ⟨gap, htakes, hg⟩ := hgap
    rw [next_of_passed ht] at hk ⊢
    have hrest : t.rest = [] := Decidable.byContradiction fun hne => (proper_lexeme hne).2 hk
    rw [hrest] at hg
    rw [lexeme_end hrest, htakes.rest, hrest, List.append_nil, ← htakes.offset]
    exact ⟨hg, rfl⟩
  | unterminated start stop =>
    rw [next_of_unterminated ht] at hk
    cases hk

/-- Every other token takes some bytes behind a gap, and cuts no character. Only an error may be
something else than the lexeme that starts there. -/
theorem next_token (h : s.Settled) (hk : s.next.1.kind ≠ .eof) : ∃ start gap word,
    s.Takes gap start ∧ start.Takes word s.next.2 ∧ Gap start.rest gap ∧ word ≠ [] ∧
    start.Settled ∧ s.next.2.Settled ∧
    s.next.1.span = Span.ofRange start.offset s.next.2.offset ∧
    (s.next.1.kind ≠ .error → s.next = start.lexeme) := by
  have hgap := passesGap_skipTrivia s
  have hset := settled_skipTrivia h
  cases ht : s.skipTrivia with
  | passed t =>
    rw [ht] at hgap hset
    obtain ⟨gap, htakes, hg⟩ := hgap
    rw [next_of_passed ht] at hk ⊢
    obtain ⟨word, hword⟩ := (finds_lexeme t).passes.takes
    refine ⟨t, gap, word, htakes, hword, hg, ?_, hset, settled_lexeme hset, span_lexeme t,
      fun _ => rfl⟩
    rintro rfl
    have hrest : t.rest ≠ [] := fun hrest => hk (by rw [lexeme_end hrest]; rfl)
    have := length_lexeme t hrest
    rw [hword.rest] at this
    exact Nat.lt_irrefl _ this
  | unterminated start stop =>
    rw [ht] at hgap hset
    obtain ⟨gap, htakes, hg, word, hne, hword, -⟩ := hgap
    rw [next_of_unterminated ht]
    exact ⟨start, gap, word, htakes, hword, hg, hne, hset.1, hset.2, rfl, fun hk => absurd rfl hk⟩

theorem ofRange_eq {m n : Nat} (hm : m ≤ maxOffset) (hn : n ≤ maxOffset) :
    Span.ofRange m n = ⟨m, n⟩ := by
  rw [Span.ofRange, Nat.min_eq_left hm, Nat.min_eq_left hn]

theorem covers_tokens (h : s.Settled) (hsmall : s.offset + s.rest.length ≤ maxOffset) :
    Covers s.offset s.rest (s.tokens.map Prod.fst) := by
  fun_induction tokens s with
  | case1 s t u hnext ih =>
    have htoken := next_token h
    rw [hnext] at htoken
    rw [List.map_cons]
    split
    next hk =>
      obtain ⟨hgap, hspan⟩ := next_eof (by rw [hnext]; exact hk)
      rw [hnext] at hspan
      exact .eof hgap hk (hspan.trans (ofRange_eq hsmall hsmall))
    next hk =>
      obtain ⟨start, gap, word, hs, hw, hg, hne, hstart, hu, hspan, -⟩ := htoken hk
      have hrest : s.rest = gap ++ word ++ u.rest := by rw [hs.rest, hw.rest, List.append_assoc]
      have hoffset : u.offset = s.offset + gap.length + word.length := by rw [hw.offset, hs.offset]
      have hlen : s.rest.length = gap.length + word.length + u.rest.length := by
        rw [hrest, List.length_append, List.length_append]
      have hrange := ofRange_eq (m := start.offset) (n := u.offset) (by rw [hs.offset]; omega)
        (by omega)
      rw [hrange, hs.offset, hoffset] at hspan
      have hcovers := ih hk hu (by omega)
      rw [hoffset] at hcovers
      rw [Settled, hw.rest] at hstart
      rw [hrest]
      exact .token (hw.rest ▸ hg) hk hne hstart hu hspan hcovers

end Scanner

namespace Covers

variable {offset : Nat} {bytes pre : List UInt8} {ts : List Token} {text : String}

theorem ordered (h : Covers offset bytes ts) :
    (∀ t ∈ ts, offset ≤ t.span.start) ∧ ts.Pairwise fun t u => t.span.stop ≤ u.span.start := by
  induction h with
  | eof _ _ hspan => simp [hspan]
  | token _ _ _ _ _ hspan _ ih =>
    refine ⟨?_, List.pairwise_cons.2 ⟨fun u hu => ?_, ih.2⟩⟩
    · intro u hu
      rcases List.mem_cons.1 hu with rfl | hu
      · rw [hspan]
        exact Nat.le_add_right ..
      · have := ih.1 u hu
        omega
    · rw [hspan]
      exact ih.1 u hu

/-- The last token is the end of the text; no other is, and none of these is empty. -/
theorem last (h : Covers offset bytes ts) : ∃ front last, ts = front ++ [last] ∧
    last.kind = .eof ∧ last.span = ⟨offset + bytes.length, offset + bytes.length⟩ ∧
    ∀ t ∈ front, t.kind ≠ .eof ∧ t.span.start < t.span.stop := by
  induction h with
  | eof _ hk hspan => exact ⟨[], _, rfl, hk, hspan, nofun⟩
  | @token offset gap word rest t ts _ hk hne _ _ hspan _ ih =>
    obtain ⟨front, last, rfl, hlast, hend, hfront⟩ := ih
    refine ⟨t :: front, last, rfl, hlast, ?_, fun u hu => ?_⟩
    · rw [hend, List.length_append, List.length_append, ← Nat.add_assoc, ← Nat.add_assoc]
    · rcases List.mem_cons.1 hu with rfl | hu
      · have := List.length_pos_iff.2 hne
        rw [hspan]
        exact ⟨hk, by dsimp only; omega⟩
      · exact hfront u hu

theorem boundary (h : Covers offset bytes ts) (htext : text.toUTF8.data.toList = pre ++ bytes)
    (hpre : pre.length = offset) :
    ∀ t ∈ ts, Boundary text t.span.start ∧ Boundary text t.span.stop := by
  have hcut {before after : List UInt8} (h : text.toUTF8.data.toList = before ++ after)
      (ha : Whole after) : Boundary text before.length := by
    have hw := Whole.ofString text
    rw [h] at hw
    exact Whole.boundary h (hw.split ha.head).1 ha
  induction h generalizing pre with
  | eof _ _ hspan =>
    have := hcut (htext.trans (List.append_nil _).symm) .nil
    rw [List.length_append, hpre] at this
    simpa [hspan] using this
  | @token offset gap word rest t ts _ _ _ hword hrest hspan _ ih =>
    have hgap : text.toUTF8.data.toList = pre ++ gap ++ (word ++ rest) := htext.trans (by simp)
    have htoken : text.toUTF8.data.toList = pre ++ gap ++ word ++ rest := htext.trans (by simp)
    have hstart := hcut hgap hword
    have hstop := hcut htoken hrest
    simp only [List.length_append, hpre] at hstart hstop
    intro u hu
    rcases List.mem_cons.1 hu with rfl | hu
    · rw [hspan]
      exact ⟨hstart, hstop⟩
    · exact ih htoken (by simp only [List.length_append, hpre]) u hu

end Covers

/-- The tokens of a text shorter than four gibibytes, with the gaps between them, are the text. They
follow each other, start and end between characters, and have bytes, but for the last one, which is
at the end. -/
theorem tokenize_covers (text : String) (h : text.utf8ByteSize ≤ maxOffset) :
    Covers 0 text.toUTF8.data.toList (tokenize text) ∧
    (tokenize text).Pairwise (fun t u => t.span.stop ≤ u.span.start) ∧
    (∃ front last, tokenize text = front ++ [last] ∧ last.kind = .eof ∧
      last.span = ⟨text.utf8ByteSize, text.utf8ByteSize⟩ ∧
      ∀ t ∈ front, t.kind ≠ .eof ∧ t.span.start < t.span.stop) ∧
    ∀ t ∈ tokenize text, Boundary text t.span.start ∧ Boundary text t.span.stop := by
  have hsize : text.toUTF8.data.toList.length = text.utf8ByteSize := by
    rw [Array.length_toList]
    rfl
  have hcovers : Covers 0 text.toUTF8.data.toList (tokenize text) :=
    Scanner.covers_tokens (s := .ofBytes text.toUTF8.data.toList) (Whole.ofString text)
      (by rw [Scanner.ofBytes, Nat.zero_add, hsize]; exact h)
  have hlast := hcovers.last
  rw [hsize, Nat.zero_add] at hlast
  exact ⟨hcovers, hcovers.ordered.2, hlast, hcovers.boundary (List.nil_append _).symm rfl⟩

theorem tokenize_covers_comment : "a/*b*/".utf8ByteSize ≤ maxOffset ∧
    Covers 0 "a/*b*/".toUTF8.data.toList (tokenize "a/*b*/") :=
  ⟨by decide, (tokenize_covers "a/*b*/" (by decide)).1⟩

end FrontEnd
