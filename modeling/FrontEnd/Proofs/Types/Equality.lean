import FrontEnd.Proofs.Grammar.SteadyParts
import FrontEnd.Proofs.Storage.Room
import FrontEnd.Proofs.Symbol.LinkNames
import FrontEnd.Proofs.Token.Munch

/-!
Types are equal exactly if they are built alike. Equality is asked of their canonical texts, in
which the texts of parameters and results stand inside those of functions, and each can be read in
one way only.
-/

namespace FrontEnd

/-! ### Texts inside others -/

/-- No bracket and no comma. -/
def isPlain (c : Char) : Bool := c != '(' && c != ')' && c != ','

/-- Items with commas between them. -/
def listed : List (List Char) → List Char
  | [] => []
  | item :: items => item ++ items.flatMap (',' :: ·)

def functionChars (items : List (List Char)) (ret : List Char) : List Char :=
  "func(".toList ++ (listed items ++ (")->".toList ++ ret))

/-- Words, and functions of such texts. The mark of further arguments is a word. -/
inductive Canonical : List Char → Prop
  | word {w : List Char} : w ≠ [] → (∀ c ∈ w, isPlain c = true) → Canonical w
  | function {items : List (List Char)} {ret : List Char} : (∀ item ∈ items, Canonical item) →
      Canonical ret → Canonical (functionChars items ret)

/-- What may stand behind a text inside another. -/
def Ended (rest : List Char) : Prop := ∀ c ∈ rest.head?, c = ',' ∨ c = ')'

section

variable {u v w x y ret ret' : List Char} {items items' : List (List Char)}

theorem takeWhile_word (hw : ∀ c ∈ w, isPlain c = true) (hx : Ended x) :
    (w ++ x).takeWhile isPlain = w := by
  rw [List.takeWhile_append_of_pos hw]
  cases x with
  | nil => exact List.append_nil w
  | cons c x =>
    have hc : isPlain c = false := by
      rcases hx c rfl with rfl | rfl <;> rfl
    rw [List.takeWhile_cons_of_neg (by simp [hc]), List.append_nil]

theorem takeWhile_functionChars :
    (functionChars items ret ++ x).takeWhile isPlain = "func".toList := rfl

/-- A function does not begin with a word that ends there. -/
theorem word_ne_function (hw : ∀ c ∈ w, isPlain c = true) (hx : Ended x) :
    w ++ x ≠ functionChars items ret ++ y := by
  intro he
  have hword : w = "func".toList := by
    rw [← takeWhile_word hw hx, he, takeWhile_functionChars]
  subst hword
  have hbehind : x = '(' :: (listed items ++ (")->".toList ++ ret) ++ y) :=
    List.append_cancel_left he
  rw [hbehind] at hx
  rcases hx '(' rfl with h | h <;> cases h

theorem Canonical.head (h : Canonical u) : ∃ c rest, u = c :: rest ∧ c ≠ ')' := by
  cases h with
  | word hne hw =>
    obtain ⟨c, rest, rfl⟩ := List.exists_cons_of_ne_nil hne
    refine ⟨c, rest, rfl, ?_⟩
    rintro rfl
    cases hw ')' List.mem_cons_self
  | function => exact ⟨_, _, rfl, by decide⟩

/-- The text is found again at the front of others that follow it. -/
def Splits (u : List Char) : Prop :=
  ∀ v x y, Canonical v → Ended x → Ended y → u ++ x = v ++ y → u = v ∧ x = y

theorem ended_comma (x : List Char) : Ended (',' :: x) := by
  rintro c ⟨⟩
  exact .inl rfl

theorem ended_close (x : List Char) : Ended (')' :: x) := by
  rintro c ⟨⟩
  exact .inr rfl

theorem ended_tail (items : List (List Char)) (x : List Char) :
    Ended (items.flatMap (',' :: ·) ++ ')' :: x) := by
  cases items with
  | nil => exact ended_close x
  | cons item items => exact ended_comma _

theorem tail_inj (hs : ∀ item ∈ items, Splits item) (hc : ∀ item ∈ items', Canonical item)
    (he : items.flatMap (',' :: ·) ++ ')' :: x = items'.flatMap (',' :: ·) ++ ')' :: y) :
    items = items' ∧ x = y := by
  induction items generalizing items' with
  | nil =>
    cases items' with
    | nil => exact ⟨rfl, (List.cons.inj he).2⟩
    | cons item' items' => cases (List.cons.inj he).1
  | cons item items ih =>
    cases items' with
    | nil => cases (List.cons.inj he).1
    | cons item' items' =>
      obtain ⟨hitem, hrest⟩ := List.forall_mem_cons.1 hs
      obtain ⟨hitem', hrest'⟩ := List.forall_mem_cons.1 hc
      rw [List.flatMap_cons, List.flatMap_cons, List.append_assoc, List.append_assoc] at he
      obtain ⟨rfl, hbehind⟩ := hitem item' _ _ hitem' (ended_tail items x) (ended_tail items' y)
        (List.cons.inj he).2
      obtain ⟨rfl, rfl⟩ := ih hrest hrest' hbehind
      exact ⟨rfl, rfl⟩

/-- The items in brackets can be told apart. -/
theorem listed_inj (hs : ∀ item ∈ items, Canonical item ∧ Splits item)
    (hc : ∀ item ∈ items', Canonical item)
    (he : listed items ++ ')' :: x = listed items' ++ ')' :: y) : items = items' ∧ x = y := by
  cases items with
  | nil =>
    cases items' with
    | nil => exact ⟨rfl, (List.cons.inj he).2⟩
    | cons item' items' =>
      obtain ⟨c, rest, rfl, hhead⟩ := (hc item' List.mem_cons_self).head
      exact absurd (List.cons.inj he).1.symm hhead
  | cons item items =>
    obtain ⟨⟨hitem, hsplits⟩, hrest⟩ := List.forall_mem_cons.1 hs
    cases items' with
    | nil =>
      obtain ⟨c, rest, rfl, hhead⟩ := hitem.head
      exact absurd (List.cons.inj he).1 hhead
    | cons item' items' =>
      obtain ⟨hitem', hrest'⟩ := List.forall_mem_cons.1 hc
      rw [listed, listed, List.append_assoc, List.append_assoc] at he
      obtain ⟨rfl, hbehind⟩ := hsplits item' _ _ hitem' (ended_tail items x) (ended_tail items' y)
        he
      obtain ⟨rfl, rfl⟩ := tail_inj (fun item h => (hrest item h).2) hrest' hbehind
      exact ⟨rfl, rfl⟩

theorem function_inj (hs : ∀ item ∈ items, Canonical item ∧ Splits item)
    (hc : ∀ item ∈ items', Canonical item) (hret : Splits ret) (hret' : Canonical ret')
    (hx : Ended x) (hy : Ended y)
    (he : functionChars items ret ++ x = functionChars items' ret' ++ y) :
    items = items' ∧ ret = ret' ∧ x = y := by
  simp only [functionChars, List.append_assoc] at he
  obtain ⟨rfl, hbehind⟩ := listed_inj hs hc (List.append_cancel_left he)
  obtain ⟨rfl, rfl⟩ := hret ret' x y hret' hx hy (List.cons.inj (List.cons.inj hbehind).2).2
  exact ⟨rfl, rfl, rfl⟩

/-- Where a text ends is seen from what it begins with. The induction is on how texts are built;
brackets match because the items between them are read to their ends. -/
theorem Canonical.splits (h : Canonical u) : Splits u := by
  induction h with
  | @word w _ hw =>
    intro v x y hv hx hy he
    cases hv with
    | word _ hv =>
      obtain rfl : w = v := by rw [← takeWhile_word hw hx, he, takeWhile_word hv hy]
      exact ⟨rfl, List.append_cancel_left he⟩
    | function => exact absurd he (word_ne_function hw hx)
  | @function items ret hitems _ ihitems ihret =>
    intro v x y hv hx hy he
    cases hv with
    | word _ hv => exact absurd he.symm (word_ne_function hv hy)
    | function hitems' hret' =>
      obtain ⟨rfl, rfl, rfl⟩ := function_inj (fun item h => ⟨hitems item h, ihitems item h⟩)
        hitems' ihret hret' hx hy he
      exact ⟨rfl, rfl⟩

/-- Unique readability: a text of a function gives its items and its result away. -/
theorem functionChars_inj (hitems : ∀ item ∈ items, Canonical item)
    (hitems' : ∀ item ∈ items', Canonical item) (hret : Canonical ret) (hret' : Canonical ret')
    (he : functionChars items ret = functionChars items' ret') : items = items' ∧ ret = ret' := by
  have hnil : Ended [] := by
    intro c hc
    cases hc
  obtain ⟨rfl, rfl, -⟩ := function_inj (fun item h => ⟨hitems item h, (hitems item h).splits⟩)
    hitems' hret.splits hret' hnil hnil (congrArg (· ++ []) he)
  exact ⟨rfl, rfl⟩

end

/-! ### Names of types -/

/-- A name for a struct or an enum: identifiers with `::` between them, but not the text of the type
of something wrong. -/
def TypeName (text : String) : Prop :=
  text ≠ BasicType.invalid.text ∧ ∃ words : List String, words ≠ [] ∧
    (∀ word ∈ words, Spells .ident (utf8 word)) ∧ text = "::".intercalate words

theorem toList_of_named {word : String} (h : Named (utf8 word)) :
    word.toList = (utf8 word).map byteChar := by
  have hword := toList_ascii fun b hb => Scanner.lt_of_continuesName (h.continues b hb)
  rwa [utf8Text_utf8] at hword

theorem named_of_ident {word : List UInt8} (h : Spells .ident word) :
    Named word ∧ ∀ k : TokenKind, k.isKeyword = true → word ≠ utf8 k.describe := by
  generalize hkind : TokenKind.ident = kind at h
  cases h with
  | ident hnamed hnot => exact ⟨hnamed, hnot⟩
  | fixed hk => exact absurd (hkind ▸ hk) (by decide)
  | _ => cases hkind

theorem chars_of_ident {word : String} (h : Spells .ident (utf8 word)) :
    word.toList ≠ [] ∧ ∀ c ∈ word.toList, c ∉ ['(', ')', ',', '.', ':'] := by
  have hall : ∀ b : UInt8, continuesName b = true → byteChar b ∉ ['(', ')', ',', '.', ':'] :=
    forall_byte (by decide +kernel)
  obtain ⟨hnamed, -⟩ := named_of_ident h
  rw [toList_of_named hnamed]
  constructor
  · obtain ⟨b, tail, hword, -⟩ := hnamed
    rw [hword]
    exact List.cons_ne_nil _ _
  · intro c hc
    obtain ⟨b, hb, rfl⟩ := List.mem_map.1 hc
    exact hall b (hnamed.continues b hb)

theorem toList_qualified (word next : String) (words : List String) :
    ("::".intercalate (word :: next :: words)).toList =
      word.toList ++ "::".toList ++ ("::".intercalate (next :: words)).toList := by
  simp [String.toList_intercalate]

theorem chars_of_words {words : List String} (hne : words ≠ [])
    (h : ∀ word ∈ words, Spells .ident (utf8 word)) :
    ("::".intercalate words).toList ≠ [] ∧
      ∀ c ∈ ("::".intercalate words).toList, c ∉ ['(', ')', ',', '.'] := by
  induction words with
  | nil => exact absurd rfl hne
  | cons word words ih =>
    obtain ⟨hword, hwords⟩ := List.forall_mem_cons.1 h
    obtain ⟨hnil, hchars⟩ := chars_of_ident hword
    have hfirst : ∀ c ∈ word.toList, c ∉ ['(', ')', ',', '.'] := by
      intro c hc hmem
      exact hchars c hc (List.mem_append_left [':'] hmem)
    cases words with
    | nil =>
      have hsingle : "::".intercalate [word] = word := by
        rw [← String.toList_inj, String.toList_intercalate]
        simp
      rw [hsingle]
      exact ⟨hnil, hfirst⟩
    | cons next words =>
      obtain ⟨-, hrest⟩ := ih (List.cons_ne_nil _ _) hwords
      rw [toList_qualified]
      refine ⟨by simp [hnil], fun c hc => ?_⟩
      rcases List.mem_append.1 hc with hc | hc
      · rcases List.mem_append.1 hc with hc | hc
        · exact hfirst c hc
        · obtain rfl : c = ':' := by simpa using hc
          decide
      · exact hrest c hc

/-- All basic types but one are called by keywords. -/
theorem BasicType.keyword (b : BasicType) :
    b = .invalid ∨ ∃ k : TokenKind, k.isKeyword = true ∧ b.text = k.describe := by
  cases b with
  | invalid => exact .inl rfl
  | void => exact .inr ⟨.kwVoid, rfl, rfl⟩
  | integer => exact .inr ⟨.kwInt, rfl, rfl⟩
  | long => exact .inr ⟨.kwLong, rfl, rfl⟩
  | float => exact .inr ⟨.kwFloat, rfl, rfl⟩
  | double => exact .inr ⟨.kwDouble, rfl, rfl⟩
  | bool => exact .inr ⟨.kwBool, rfl, rfl⟩
  | char => exact .inr ⟨.kwChar, rfl, rfl⟩
  | cstring => exact .inr ⟨.kwCstring, rfl, rfl⟩

theorem BasicType.chars (b : BasicType) :
    b.text.toList ≠ [] ∧ ∀ c ∈ b.text.toList, c ∉ ['(', ')', ',', '.', ':'] := by
  have hall : (b.text.toList.all fun c => decide (c ∉ ['(', ')', ',', '.', ':'])) = true := by
    cases b <;> rfl
  refine ⟨by cases b <;> decide, fun c hc => ?_⟩
  exact of_decide_eq_true (List.all_eq_true.1 hall c hc)

theorem TypeName.ne_basic {s : String} (h : TypeName s) (b : BasicType) : s ≠ b.text := by
  obtain ⟨hinvalid, words, hne, hwords, rfl⟩ := h
  intro he
  rcases b.keyword with rfl | ⟨k, hk, hb⟩
  · exact hinvalid he
  cases words with
  | nil => exact hne rfl
  | cons word words =>
    cases words with
    | nil =>
      have hword : word = k.describe := by
        rw [← hb, ← he, ← String.toList_inj, String.toList_intercalate]
        simp
      obtain ⟨-, hnot⟩ := named_of_ident (hwords word List.mem_cons_self)
      exact hnot k hk (congrArg utf8 hword)
    | cons next words =>
      have hmem : ':' ∈ b.text.toList := by
        rw [← he, toList_qualified]
        simp
      exact b.chars.2 ':' hmem (by decide)

/-! ### Texts of types -/

/-- The text can be read in one way only, and is not the mark of further arguments. -/
def TypeText (s : String) : Prop := Canonical s.toList ∧ s ≠ "..."

theorem typeText_of_chars {s : String} (hne : s.toList ≠ [])
    (h : ∀ c ∈ s.toList, c ∉ ['(', ')', ',', '.']) : TypeText s := by
  refine ⟨.word hne fun c hc => ?_, ?_⟩
  · have hnot : c ∉ ['(', ')', ','] := fun hmem => h c hc (List.mem_append_left ['.'] hmem)
    simpa [isPlain, and_assoc] using hnot
  · rintro rfl
    exact absurd (h '.' (by decide)) (by decide)

theorem BasicType.typeText (b : BasicType) : TypeText b.text :=
  typeText_of_chars b.chars.1 fun c hc hmem => b.chars.2 c hc (List.mem_append_left [':'] hmem)

theorem TypeName.typeText {s : String} (h : TypeName s) : TypeText s := by
  obtain ⟨-, words, hne, hwords, rfl⟩ := h
  obtain ⟨hnil, hchars⟩ := chars_of_words hne hwords
  exact typeText_of_chars hnil hchars

/-- What stands between the brackets of a function. -/
def itemsOf (params : List String) (variadic : Bool) : List (List Char) :=
  (params ++ if variadic then ["..."] else []).map String.toList

section

variable {params params' : List String} {variadic variadic' : Bool} {ret s : String}

theorem canonical_items (h : ∀ s ∈ params, TypeText s) :
    ∀ item ∈ itemsOf params variadic, Canonical item := by
  intro item hitem
  obtain ⟨s, hs, rfl⟩ := List.mem_map.1 hitem
  rcases List.mem_append.1 hs with hs | hs
  · exact (h s hs).1
  · cases variadic with
    | false => cases hs
    | true =>
      obtain rfl := List.mem_singleton.1 hs
      exact .word (by decide) (List.all_eq_true.1 (by decide))

theorem itemsOf_inj (h : ∀ s ∈ params, TypeText s) (h' : ∀ s ∈ params', TypeText s)
    (he : itemsOf params variadic = itemsOf params' variadic') :
    params = params' ∧ variadic = variadic' := by
  have hlists := (List.map_injective_iff.2 fun s t h => String.toList_inj.1 h) he
  have hnot {list : List String} (hl : ∀ s ∈ list, TypeText s) : "..." ∉ list :=
    fun hmem => (hl _ hmem).2 rfl
  cases variadic <;> cases variadic' <;>
    simp only [if_true, Bool.false_eq_true, if_false, List.append_nil] at hlists
  · exact ⟨hlists, rfl⟩
  · exact absurd (hlists ▸ by simp) (hnot h)
  · exact absurd (hlists ▸ by simp) (hnot h')
  · exact ⟨List.append_cancel_right hlists, rfl⟩

theorem toList_functionPieces :
    (String.join (TypeTable.functionPieces params variadic ret).flatten).toList =
      functionChars (itemsOf params variadic) ret.toList := by
  cases params <;> cases variadic <;>
    simp [TypeTable.functionPieces, functionChars, itemsOf, listed, String.toList_join,
      List.flatMap_map, List.flatten_eq_flatMap, List.flatMap_assoc]

theorem typeText_function (hparams : ∀ s ∈ params, TypeText s) (hret : TypeText ret)
    (hs : s.toList = functionChars (itemsOf params variadic) ret.toList) : TypeText s := by
  refine ⟨hs ▸ .function (canonical_items hparams) hret.1, ?_⟩
  rintro rfl
  cases (List.cons.inj hs).1

end

/-! ### Tables that are built -/

/-- The name of a struct or an enum. -/
def TypeKind.name? : TypeKind → Option Name
  | .struct name _ | .enum name _ => some name
  | .basic _ | .function _ => none

namespace TypeTable

/-- The tables that can be built, with the names at the time: the basic types first, then structs,
enums and functions in any order, and texts that are interned in between. Where a function type
finds no room, its text may stay. -/
inductive Built : TypeTable → Interner → Prop
  | basics {hashOf : String → UInt64} {reserve maxSlots : Nat} {calls : List InternerCall}
      {t : TypeTable} {names : Interner} :
      withMaxSlots ((Interner.withHash hashOf reserve).run calls).2 maxSlots = .ok (t, names) →
      Built t names
  | intern {t : TypeTable} {names names' : Interner} {text : String} {name : Name} :
      Built t names → names.intern text = .ok (name, names') → Built t names'
  | struct {t u : TypeTable} {names : Interner} {text : String} {name : Name}
      {fields : List Field} {id : TypeId} :
      Built t names → names.Has name text → TypeName text →
      t.addStruct name fields = .ok (id, u) → Built u names
  | enum {t u : TypeTable} {names : Interner} {text : String} {name : Name}
      {variants : List Name} {id : TypeId} :
      Built t names → names.Has name text → TypeName text →
      t.addEnum name variants = .ok (id, u) → Built u names
  | function {t u : TypeTable} {names names' : Interner} {scratch : Nat} {signature : Signature}
      {id : TypeId} :
      Built t names → addFunction scratch signature (t, names) = .ok id (u, names') →
      Built u names'
  | refused {t u : TypeTable} {names names' : Interner} {scratch : Nat} {signature : Signature}
      {e : Halt StorageError} :
      Built t names → addFunction scratch signature (t, names) = .error e (u, names') →
      Built u names'

/-- The kinds are the same, or two functions whose parameters and results are equal in turn. -/
def Alike (t : TypeTable) : TypeKind → TypeKind → Prop
  | .basic b, .basic c => b = c
  | .function s, .function s' => s.variadic = s'.variadic ∧
      List.Forall₂ (fun p q => t.equal p q = .ok true) s.params s'.params ∧
      t.equal s.ret s'.ret = .ok true
  | k, l => ∃ name, k.name? = some name ∧ l.name? = some name

variable {t u : TypeTable} {names names' : Interner} {id a b : TypeId} {d e : TypeDesc}
  {kind : TypeKind} {name : Name} {s s' : String} {ps qs : List TypeId} {ts us : List String}

/-- The text that is composed for a type. -/
def Composed (t : TypeTable) (names : Interner) : TypeKind → String → Prop
  | .basic b, s => s = b.text
  | .function signature, s => ∃ params ret,
      List.Forall₂ (t.Reads names) signature.params params ∧ t.Reads names signature.ret ret ∧
      s.toList = functionChars (itemsOf params signature.variadic) ret.toList
  | .struct name _, s | .enum name _, s => names.Has name s ∧ TypeName s

/-- Every type goes by the text that is composed for it. -/
structure Readable (t : TypeTable) (names : Interner) : Prop where
  sound : t.Sound
  lexical : names.Lexical
  texts : ∀ id d, t.desc id = .ok d →
    ∃ s, names.Has d.text s ∧ t.Composed names d.kind s ∧ TypeText s

theorem Composed.mono (h : t.Composed names kind s) (ht : t.Grows u) (hn : names.Grows names') :
    u.Composed names' kind s := by
  cases kind with
  | basic b => exact h
  | function signature =>
    obtain ⟨params, ret, hparams, hret, hs⟩ := h
    exact ⟨params, ret, hparams.imp fun _ _ hr => hr.mono ht hn, hret.mono ht hn, hs⟩
  | struct name fields => exact ⟨hn _ _ h.1, h.2⟩
  | enum name variants => exact ⟨hn _ _ h.1, h.2⟩

namespace Readable

theorem intern (h : Readable t names) (hi : names.intern s = .ok (name, names')) :
    Readable t names' := by
  obtain ⟨-, -, hgrows⟩ := h.lexical.sound.intern hi
  refine ⟨h.sound, (h.lexical.intern hi).1, fun id d hd => ?_⟩
  obtain ⟨s, hhas, hcomposed, htext⟩ := h.texts id d hd
  exact ⟨s, hgrows _ _ hhas, hcomposed.mono (.refl t) hgrows, htext⟩

theorem add (h : Readable t names) (hhas : names.Has name s) (hc : t.Composed names kind s)
    (hs : TypeText s) (ha : t.add kind name = .ok (id, u)) : Readable u names := by
  obtain ⟨hu, -, hgrows, hall⟩ := Sound.add h.sound ha
  refine ⟨hu, h.lexical, fun i d hd => ?_⟩
  rcases hall i d hd with ⟨-, rfl⟩ | hd
  · exact ⟨s, hhas, hc.mono hgrows (.refl names), hs⟩
  · obtain ⟨s, hhas, hcomposed, htext⟩ := h.texts i d hd
    exact ⟨s, hhas, hcomposed.mono hgrows (.refl names), htext⟩

theorem add_named (h : Readable t names) (hk : kind.name? = some name) (hhas : names.Has name s)
    (hs : TypeName s) (ha : t.add kind name = .ok (id, u)) : Readable u names := by
  refine h.add hhas ?_ hs.typeText ha
  cases kind with
  | basic b | function signature => cases hk
  | struct n fields | enum n fields =>
    obtain rfl := Option.some.inj hk
    exact ⟨hhas, hs⟩

theorem addBasics {list : List BasicType} (h : Readable t names)
    (ha : t.addBasics names list = .ok (u, names')) : Readable u names' := by
  induction list generalizing t names with
  | nil =>
    obtain ⟨rfl, rfl⟩ := Prod.mk.inj (Except.ok.inj ha)
    exact h
  | cons b rest ih =>
    rw [TypeTable.addBasics] at ha
    obtain ⟨⟨name, names₁⟩, hi, ha⟩ := bind_ok ha
    obtain ⟨⟨id, t₁⟩, ht, ha⟩ := bind_ok ha
    have hhas := (h.lexical.sound.intern hi).2.1
    have hcomposed : t.Composed names₁ (.basic b) b.text := rfl
    exact ih ((h.intern hi).add hhas hcomposed b.typeText ht) ha

theorem exists_reads (h : Readable t names) (hd : t.desc id = .ok d) :
    ∃ s, t.Reads names id s := by
  obtain ⟨s, hs, -⟩ := h.texts id d hd
  exact ⟨s, d, hd, hs⟩

theorem typeText (h : Readable t names) (hr : t.Reads names id s) : TypeText s := by
  obtain ⟨d, hd, hs⟩ := hr
  obtain ⟨s', hs', -, htext⟩ := h.texts id d hd
  exact hs.inj hs' ▸ htext

theorem reads_of_text (h : Readable t names) (ht : t.text names id = .ok s) :
    t.Reads names id s := by
  obtain ⟨d, hd, -⟩ := bind_ok ht
  exact TypeTable.reads_of_text (h.exists_reads hd) ht

theorem reads_of_mapM (h : Readable t names) (ht : ps.mapM (t.text names) = .ok ts) :
    List.Forall₂ (t.Reads names) ps ts := by
  induction ps generalizing ts with
  | nil =>
    obtain rfl := Except.ok.inj ht
    exact .nil
  | cons p ps ih =>
    rw [List.mapM_cons] at ht
    obtain ⟨s, hs, ht⟩ := bind_ok ht
    obtain ⟨rest, hrest, ht⟩ := bind_ok ht
    obtain rfl := Except.ok.inj ht
    exact .cons (h.reads_of_text hs) (ih hrest)

theorem typeTexts (h : Readable t names) (hr : List.Forall₂ (t.Reads names) ps ts) :
    ∀ s ∈ ts, TypeText s :=
  forall_of_reads hr fun _ _ _ hread => h.typeText hread

/-- A function type is found under the text composed for it. -/
theorem composed_function {scratch : Nat} {signature : Signature} (h : Readable t names)
    (hf : t.functionText names scratch signature = .ok s) :
    t.Composed names (.function signature) s ∧ TypeText s := by
  obtain ⟨params, ret, hparams, hret, rfl⟩ := exists_of_functionText hf
  have hreads := h.reads_of_mapM hparams
  have hread := h.reads_of_text hret
  exact ⟨⟨params, ret, hreads, hread, toList_functionPieces⟩,
    typeText_function (h.typeTexts hreads) (h.typeText hread) toList_functionPieces⟩

end Readable

theorem Built.readable (h : Built t names) : Readable t names := by
  induction h with
  | @basics hashOf reserve maxSlots calls t names ht =>
    have hlexical := ((Interner.lexical_withHash hashOf reserve).run calls).1
    have hempty : Readable ⟨Pool.withMaxSlots maxSlots⟩
        ((Interner.withHash hashOf reserve).run calls).2 := by
      refine ⟨Pool.sound_withMaxSlots _, hlexical, fun id d hd => ?_⟩
      simpa [Pool.get?_withMaxSlots] using Pool.read_eq_ok.1 hd
    exact hempty.addBasics ht
  | intern _ hi ih => exact ih.intern hi
  | struct _ hhas hname ha ih => exact ih.add_named rfl hhas hname ha
  | enum _ hhas hname ha ih => exact ih.add_named rfl hhas hname ha
  | @function t u names names' scratch signature id _ ha ih =>
    obtain ⟨full, name, hfull, hi, hadd⟩ :=
      (Parse.addFunction_steps t names scratch signature).of_ok ha
    obtain ⟨hcomposed, htext⟩ := ih.composed_function hfull
    obtain ⟨-, hhas, hgrows⟩ := ih.lexical.sound.intern hi
    exact (ih.intern hi).add hhas (hcomposed.mono (.refl t) hgrows) htext hadd
  | @refused t u names names' scratch signature e _ ha ih =>
    obtain ⟨rfl, rfl | ⟨full, name, hi⟩, -⟩ :=
      (Parse.addFunction_steps t names scratch signature).of_error ha
    · exact ih
    · exact ih.intern hi

theorem Built.holdsBasics (h : Built t names) : t.HoldsBasics names := by
  induction h with
  | @basics hashOf reserve maxSlots calls t names ht =>
    have hlexical := ((Interner.lexical_withHash hashOf reserve).run calls).1
    exact (holdsBasics_withMaxSlots hlexical.sound ht).1
  | intern hb hi ih =>
    exact ih.grows (.refl _) (hb.readable.lexical.sound.intern hi).2.2
  | struct hb _ _ ha ih | enum hb _ _ ha ih =>
    exact ih.grows (Sound.add hb.readable.sound ha).2.2.1 (.refl _)
  | function hb ha ih =>
    obtain ⟨-, hgrows, -, hnames, -⟩ :=
      (Parse.addFunction_outcome hb.readable.sound hb.readable.lexical.sound _ _).of_ok ha
    exact ih.grows hgrows hnames
  | refused hb ha ih =>
    obtain ⟨rfl, -, hnames, -⟩ :=
      (Parse.addFunction_outcome hb.readable.sound hb.readable.lexical.sound _ _).of_error ha
    exact ih.grows (.refl _) hnames

theorem Built.reads_basic (h : Built t names) (b : BasicType) : t.Reads names b.id b.text := by
  obtain ⟨name, hdesc, hhas⟩ := h.holdsBasics b
  exact ⟨_, hdesc, hhas⟩

theorem Built.kind_basic (h : Built t names) (b : BasicType) : t.kind b.id = .ok (.basic b) := by
  obtain ⟨name, hdesc, -⟩ := h.holdsBasics b
  exact kind_of_desc hdesc

/-! ### Equality -/

theorem forall₂_equal_iff (hx : names.Lexical) (hp : List.Forall₂ (t.Reads names) ps ts)
    (hq : List.Forall₂ (t.Reads names) qs us) :
    List.Forall₂ (fun p q => t.equal p q = .ok true) ps qs ↔ ts = us := by
  induction hp generalizing qs us with
  | nil =>
    cases hq with
    | nil => simp
    | cons => exact iff_of_false (nofun) (nofun)
  | cons hs _ ih =>
    cases hq with
    | nil => exact iff_of_false (nofun) (nofun)
    | cons hs' hq => rw [List.forall₂_cons, hx.equal_iff hs hs', ih hq, List.cons.injEq]

/-- Only the texts of functions have brackets. -/
theorem Composed.open_mem_iff (h : t.Composed names kind s) :
    '(' ∈ s.toList ↔ kind.function?.isSome = true := by
  cases kind with
  | basic b =>
    obtain rfl := h
    exact iff_of_false (fun hmem => b.chars.2 '(' hmem (by decide)) Bool.false_ne_true
  | function signature =>
    obtain ⟨params, ret, -, -, hs⟩ := h
    exact iff_of_true (by simp [hs, functionChars]) rfl
  | struct name fields | enum name fields =>
    obtain ⟨-, -, words, hne, hwords, rfl⟩ := h
    exact iff_of_false (fun hmem => (chars_of_words hne hwords).2 '(' hmem (by decide))
      Bool.false_ne_true

/-- The texts of functions are equal exactly if the functions are alike. -/
theorem Readable.function_iff {f g : Signature} (h : Readable t names)
    (hs : t.Composed names (.function f) s) (hs' : t.Composed names (.function g) s') :
    s = s' ↔ t.Alike (.function f) (.function g) := by
  obtain ⟨params, ret, hparams, hret, hs⟩ := hs
  obtain ⟨params', ret', hparams', hret', hs'⟩ := hs'
  have htexts := h.typeTexts hparams
  have htexts' := h.typeTexts hparams'
  change _ ↔ f.variadic = g.variadic ∧ List.Forall₂ (fun p q => t.equal p q = .ok true) _ _ ∧ _
  rw [forall₂_equal_iff h.lexical hparams hparams', h.lexical.equal_iff hret hret',
    ← String.toList_inj, hs, hs']
  constructor
  · intro he
    obtain ⟨hitems, hrets⟩ := functionChars_inj (canonical_items htexts) (canonical_items htexts')
      (h.typeText hret).1 (h.typeText hret').1 he
    obtain ⟨rfl, hvariadic⟩ := itemsOf_inj htexts htexts' hitems
    exact ⟨hvariadic, rfl, String.toList_inj.1 hrets⟩
  · rintro ⟨hvariadic, rfl, rfl⟩
    rw [hvariadic]

theorem Composed.isFunction_eq {k l : TypeKind} (h : t.Composed names k s)
    (h' : t.Composed names l s) : k.function?.isSome = l.function?.isSome :=
  Bool.eq_iff_iff.2 (h.open_mem_iff.symm.trans h'.open_mem_iff)

theorem Composed.named {k : TypeKind} (h : t.Composed names k s) (hk : k.name? = some name) :
    names.Has name s ∧ TypeName s := by
  cases k with
  | basic b | function signature => cases hk
  | struct n fields | enum n fields =>
    obtain rfl := Option.some.inj hk
    exact h

theorem Composed.named_iff {k l : TypeKind} {m : Name} (hx : names.Lexical)
    (hs : t.Composed names k s) (hs' : t.Composed names l s') (hk : k.name? = some name)
    (hl : l.name? = some m) : s = s' ↔ ∃ n, k.name? = some n ∧ l.name? = some n := by
  obtain ⟨hhas, -⟩ := hs.named hk
  obtain ⟨hhas', -⟩ := hs'.named hl
  constructor
  · rintro rfl
    exact ⟨name, hk, hl.trans (congrArg some (hx.name_inj hhas' hhas))⟩
  · rintro ⟨n, hn, hm⟩
    obtain rfl := Option.some.inj (hk.symm.trans hn)
    obtain rfl := Option.some.inj (hl.symm.trans hm)
    exact hhas.inj hhas'

theorem Readable.texts_iff {k l : TypeKind} (h : Readable t names) (hs : t.Composed names k s)
    (hs' : t.Composed names l s') : s = s' ↔ t.Alike k l := by
  have hdiffer (hne : k.function?.isSome ≠ l.function?.isSome) : s ≠ s' := by
    rintro rfl
    exact hne (hs.isFunction_eq hs')
  cases k with
  | basic b =>
    obtain rfl := hs
    cases l with
    | basic c =>
      obtain rfl := hs'
      exact BasicType.text_injective.eq_iff
    | function g => exact iff_of_false (hdiffer nofun) nofun
    | struct n fields | enum n fields =>
      exact iff_of_false (fun he => (hs'.named rfl).2.ne_basic b he.symm) nofun
  | function f =>
    cases l with
    | function g => exact h.function_iff hs hs'
    | basic c | struct n fields | enum n fields => exact iff_of_false (hdiffer nofun) nofun
  | struct n fields | enum n fields =>
    cases l with
    | basic c =>
      obtain rfl := hs'
      exact iff_of_false ((hs.named rfl).2.ne_basic c) nofun
    | function g => exact iff_of_false (hdiffer nofun) nofun
    | struct m fields' | enum m fields' => exact Composed.named_iff h.lexical hs hs' rfl rfl

/-- The canonical text tells types apart just as far as they differ: two types that were built are
equal exactly if they are the same basic type, structs or enums of one name, or functions with equal
parameters, equal results, and further arguments in both or in neither. The names of parameters do
not matter. -/
theorem Built.equal_iff_alike (h : Built t names) (ha : t.desc a = .ok d) (hb : t.desc b = .ok e) :
    (∃ r, t.equal a b = .ok r ∧ (r = true ↔ t.Alike d.kind e.kind)) ∧
      ∀ (signature : Signature) (paramNames : List Name), d.kind = .function signature →
        e.kind = .function { signature with paramNames } → t.equal a b = .ok true := by
  have hreadable := h.readable
  obtain ⟨s, hs, hcomposed, -⟩ := hreadable.texts a d ha
  obtain ⟨s', hs', hcomposed', -⟩ := hreadable.texts b e hb
  have hiff : t.equal a b = .ok true ↔ t.Alike d.kind e.kind := by
    rw [hreadable.lexical.equal_iff ⟨d, ha, hs⟩ ⟨e, hb, hs'⟩]
    exact hreadable.texts_iff hcomposed hcomposed'
  obtain ⟨r, hr⟩ := exists_equal ⟨d, ha⟩ ⟨e, hb⟩
  refine ⟨⟨r, hr, ?_⟩, fun signature paramNames hd he => ?_⟩
  · rw [← hiff, hr, Except.ok.injEq]
  · rw [hiff, hd, he]
    have hself (p : TypeId) : t.equal p p = .ok true := equal_eq_true.2 (.inl rfl)
    exact ⟨rfl, List.forall₂_same.2 fun p _ => hself p, hself _⟩

theorem functionText_of_integer (h : t.HoldsBasics names) (paramNames : List Name) :
    t.functionText names 64 ⟨[.integer], paramNames, .void, false⟩ = .ok "func(int)->void" := by
  have hparam : t.text names .integer = .ok "int" := h.text .integer
  have hret : t.text names .void = .ok "void" := h.text .void
  have hdraft : ((functionPieces ["int"] false "void").foldl Draft.puts
      (Draft.withReserve 64)).finish = .ok "func(int)->void" := by decide +kernel
  simp [functionText, hparam, hret, hdraft, Halt.liftFault, Halt.liftCause, Bind.bind, Except.bind,
    Pure.pure, Except.pure]

/-- Two functions on integers, of which only one names its parameter. -/
theorem equal_of_renamed : ∃ (t : TypeTable) (names : Interner) (a b : TypeId) (d e : TypeDesc),
    Built t names ∧ t.desc a = .ok d ∧ t.desc b = .ok e ∧
      d.kind = .function ⟨[.integer], [⟨1⟩], .void, false⟩ ∧
      e.kind = .function ⟨[.integer], [.empty], .void, false⟩ ∧ t.equal a b = .ok true := by
  have hsize : "func(int)->void".utf8ByteSize = 15 := by decide
  have hnames : (Interner.withHash hash 4096).Roomy (44 + 30) :=
    show 0 + (44 + 30) ≤ min 4096 maxOffset by decide
  have hslots : (Pool.withMaxSlots 1000 : Pool TypeDesc).Roomy (2 + 9) :=
    Pool.roomy_withMaxSlots (by decide)
  obtain ⟨t, names, hbasics, hn, ht⟩ := exists_addBasics BasicType.all
    (t := ⟨Pool.withMaxSlots 1000⟩) hslots hnames
  have hbuilt : Built t names :=
    .basics (show withMaxSlots ((Interner.withHash hash 4096).run []).2 1000 = _ from hbasics)
  obtain ⟨hholds, -⟩ := holdsBasics_withMaxSlots (Interner.sound_withHash hash 4096) hbasics
  have hone := functionText_of_integer hholds [⟨1⟩]
  obtain ⟨a, t₁, names₁, ha, hn₁, ht₁⟩ := exists_addFunction (m := 15) hone (hsize ▸ hn) ht
  obtain ⟨-, hgrows, -, hnames₁, ⟨name, text, hda, -⟩, -⟩ :=
    (Parse.addFunction_outcome hbuilt.readable.sound hbuilt.readable.lexical.sound _ _).of_ok ha
  have hbuilt₁ := Built.function hbuilt ha
  have htwo := functionText_of_integer (hholds.grows hgrows hnames₁) [.empty]
  obtain ⟨b, t₂, names₂, hb, -⟩ := exists_addFunction (m := 0) htwo (hsize ▸ hn₁) ht₁
  obtain ⟨-, hgrows₂, -, -, ⟨name', text', hdb, -⟩, -⟩ :=
    (Parse.addFunction_outcome hbuilt₁.readable.sound hbuilt₁.readable.lexical.sound _ _).of_ok hb
  have hequal := (Built.equal_iff_alike (Built.function hbuilt₁ hb) (hgrows₂ a _ hda) hdb).2
    ⟨[.integer], [⟨1⟩], .void, false⟩ [.empty] rfl rfl
  exact ⟨t₂, names₂, a, b, _, _, Built.function hbuilt₁ hb, hgrows₂ a _ hda, hdb, rfl, rfl, hequal⟩

end TypeTable

end FrontEnd
