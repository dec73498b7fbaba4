import FrontEnd.Proofs.Token.Spacing

/-!
The table of keywords is exact: the bytes of a word are those of a keyword's spelling, and then it
is that keyword, or the word is an identifier.
-/

namespace FrontEnd

open TokenKind (ofWord ofLetters ifEnds)

variable {k : TokenKind} {word : List UInt8} {letters rest : List Char}

theorem forall_byte {P : UInt8 → Prop} (h : ∀ n < 256, P (UInt8.ofNat n)) (b : UInt8) : P b := by
  have := h b.toNat b.toNat_lt
  rwa [UInt8.ofNat_toNat] at this

theorem byteChar_injective : Function.Injective byteChar := by
  intro a b h
  apply UInt8.toNat_inj.1
  rw [← toNat_byteChar a, h, toNat_byteChar b]

theorem mem_all (k : TokenKind) : k ∈ TokenKind.all := by cases k <;> decide

/-- The table of keywords finds no keyword, or the one that has these letters. -/
def Spelled (letters : List Char) (k : TokenKind) : Prop :=
  k = .ident ∨ k.isKeyword = true ∧ letters = k.describe.toList

theorem spelled_ifEnds {kind : TokenKind} {tail : String} (hk : kind.isKeyword = true)
    (h : rest = tail.toList → letters = kind.describe.toList) :
    Spelled letters (ifEnds kind tail rest) := by
  unfold TokenKind.ifEnds
  split
  next hrest => exact .inr ⟨hk, h hrest⟩
  next => exact .inl rfl

theorem ofLetters_spelled (letters : List Char) : Spelled letters (ofLetters letters) := by
  unfold TokenKind.ofLetters TokenKind.afterB TokenKind.afterC TokenKind.afterD TokenKind.afterE
    TokenKind.afterF TokenKind.afterI TokenKind.afterN TokenKind.afterO TokenKind.afterS
    TokenKind.afterT TokenKind.afterU
  split
  all_goals
    try split
  all_goals
    first
    | exact .inl rfl
    | exact spelled_ifEnds rfl (by rintro rfl; rfl)
    | exact .inr ⟨rfl, rfl⟩

theorem ofWord_keyword (h : k.isKeyword = true) : ofWord (utf8 k.describe) = k := by
  have hall : ∀ k ∈ TokenKind.all, k.isKeyword = true → ofWord (utf8 k.describe) = k := by
    decide +kernel
  exact hall k (mem_all k) h

/-- Spellings of keywords have no bytes but letters. -/
theorem map_byteChar_keyword (h : k.isKeyword = true) :
    (utf8 k.describe).map byteChar = k.describe.toList := by
  have hall : ∀ k ∈ TokenKind.all, k.isKeyword = true →
      (utf8 k.describe).map byteChar = k.describe.toList := by
    decide +kernel
  exact hall k (mem_all k) h

/-- Bytes that are found in the table are the spelling of what is found. -/
theorem ofWord_spelled (word : List UInt8) : ofWord word = .ident ∨
    (ofWord word).isKeyword = true ∧ word = utf8 (ofWord word).describe := by
  rcases ofLetters_spelled (word.map byteChar) with hident | ⟨hkeyword, hletters⟩
  · exact .inl hident
  · refine .inr ⟨hkeyword, ?_⟩
    apply List.map_injective_iff.2 byteChar_injective
    exact hletters.trans (map_byteChar_keyword hkeyword).symm

/-- For all bytes, letters or not: a word is a keyword exactly if it is spelled like it, and an
identifier if it is spelled like none. -/
theorem keywords_exact (word : List UInt8) :
    (∀ k : TokenKind, k.isKeyword = true → (ofWord word = k ↔ word = utf8 k.describe)) ∧
    ((∀ k : TokenKind, k.isKeyword = true → word ≠ utf8 k.describe) → ofWord word = .ident) := by
  constructor
  · intro k hk
    constructor
    · rintro rfl
      rcases ofWord_spelled word with hident | ⟨-, hword⟩
      · rw [hident] at hk
        cases hk
      · exact hword
    · rintro rfl
      exact ofWord_keyword hk
  · intro hnone
    rcases ofWord_spelled word with hident | ⟨hkeyword, hword⟩
    · exact hident
    · exact absurd hword (hnone _ hkeyword)

/-- One keyword begins another; between the two, and in other letters, stand identifiers. -/
theorem keyword_inside_another :
    ofWord (utf8 "null") = .kwNull ∧ ofWord (utf8 "nullptr") = .kwNullptr ∧
      ofWord (utf8 "nullp") = .ident ∧ ofWord (utf8 "Null") = .ident := by
  have hother (word : List UInt8) (h : ∀ k ∈ TokenKind.all, k.isKeyword = true →
      word ≠ utf8 k.describe) : ∀ k : TokenKind, k.isKeyword = true → word ≠ utf8 k.describe :=
    fun k => h k (mem_all k)
  exact ⟨((keywords_exact _).1 .kwNull rfl).2 rfl, ((keywords_exact _).1 .kwNullptr rfl).2 rfl,
    (keywords_exact _).2 (hother _ (by decide +kernel)),
    (keywords_exact _).2 (hother _ (by decide +kernel))⟩

end FrontEnd
