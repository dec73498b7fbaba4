import FrontEnd.Proofs.Grammar.Descent
import FrontEnd.Proofs.Grammar.Opening
import FrontEnd.Proofs.Grammar.Reading
import FrontEnd.Proofs.Token.FixedWords
import FrontEnd.Proofs.Types.Equality

/-!
Canonical texts of types parse back. The text of a type made from basic types and functions is a row
of tokens in which no two words meet, and the production of types takes that row and makes a type
of the same text from it.
-/

namespace FrontEnd

/-! ### The tokens of types -/

namespace TokenKind

variable {k : TokenKind} {ks ls params ret : List TokenKind} {items : List (List TokenKind)}
  {text : String}

/-- Rows with commas between them. -/
def series : List (List TokenKind) → List TokenKind
  | [] => []
  | item :: items => item ++ items.flatMap (.comma :: ·)

/-- The tokens of a function type. -/
def functionKinds (params ret : List TokenKind) : List TokenKind :=
  [.kwFunc, .openParen] ++ (params ++ ([.closeParen, .thinArrow] ++ ret))

/-- The characters of tokens of one spelling, one behind the other. -/
def chars (ks : List TokenKind) : List Char := ks.flatMap (·.describe.toList)

theorem series_cons (item : List TokenKind) (h : items ≠ []) :
    series (item :: items) = item ++ .comma :: series items := by
  obtain ⟨next, rest, rfl⟩ := List.exists_cons_of_ne_nil h
  rfl

theorem chars_append (ks ls : List TokenKind) : chars (ks ++ ls) = chars ks ++ chars ls :=
  List.flatMap_append

theorem chars_series : chars (series items) = listed (items.map chars) := by
  cases items with
  | nil => rfl
  | cons item items =>
    rw [series, chars_append, List.map_cons, listed, List.flatMap_map]
    exact congrArg (chars item ++ ·) List.flatMap_assoc

theorem chars_functionKinds :
    chars (functionKinds (series items) ret) = functionChars (items.map chars) (chars ret) := by
  simp only [functionKinds, chars_append, chars_series]
  rfl

theorem utf8_of_chars (h : text.toList = chars ks) : utf8 text = spelling ks := by
  rw [utf8_eq, h, chars, spelling, List.flatMap_assoc]
  exact congrArg (List.flatMap · ks) (funext fun k => (utf8_eq _).symm)

/-- Each function has one opening bracket. -/
theorem count_chars (h : ∀ k ∈ ks, k ∈ typeKinds) :
    (chars ks).count '(' = ks.count .openParen := by
  have hall : ∀ k ∈ typeKinds, k.describe.toList.count '(' = [k].count .openParen := by
    decide +kernel
  induction ks with
  | nil => rfl
  | cons k ks ih =>
    obtain ⟨hk, hks⟩ := List.forall_mem_cons.1 h
    rw [chars, List.flatMap_cons, List.count_append, hall k hk, ← chars, ih hks,
      ← List.count_append, List.singleton_append]

theorem count_functionKinds : (functionKinds params ret).count .openParen =
    params.count .openParen + ret.count .openParen + 1 := by
  simp [functionKinds, List.count_append]

theorem length_functionKinds (params ret : List TokenKind) :
    (spelling params).length + (spelling ret).length ≤
      (spelling (functionKinds params ret)).length := by
  simp only [functionKinds, spelling, List.flatMap_append, List.length_append]
  omega

theorem mem_series {P : TokenKind → Prop} (hcomma : P .comma)
    (h : ∀ item ∈ items, ∀ k ∈ item, P k) : ∀ k ∈ series items, P k := by
  cases items with
  | nil => exact nofun
  | cons item items =>
    obtain ⟨hitem, hrest⟩ := List.forall_mem_cons.1 h
    simp only [series, List.mem_append, List.mem_flatMap, List.mem_cons]
    rintro k (hk | ⟨next, hnext, rfl | hk⟩)
    · exact hitem k hk
    · exact hcomma
    · exact hrest next hnext k hk

theorem mem_functionKinds (hparams : ∀ k ∈ params, k ∈ typeKinds)
    (hret : ∀ k ∈ ret, k ∈ typeKinds) : ∀ k ∈ functionKinds params ret, k ∈ typeKinds := by
  have hopen : ∀ k ∈ [kwFunc, openParen], k ∈ typeKinds := by decide
  have hclose : ∀ k ∈ [closeParen, thinArrow], k ∈ typeKinds := by decide
  simp only [functionKinds, List.mem_append]
  rintro k (hk | hk | hk | hk)
  · exact hopen k hk
  · exact hparams k hk
  · exact hclose k hk
  · exact hret k hk

/-- A mark keeps what stands around it apart. -/
theorem apart_around (ks : List TokenKind) (hk : k.isKeyword = false) :
    (ks ++ k :: ls).IsChain Apart ↔ ks.IsChain Apart ∧ ls.IsChain Apart := by
  rw [List.isChain_append, List.isChain_cons]
  simp [Apart, hk]

theorem apart_series (h : ∀ item ∈ items, item.IsChain Apart) : (series items).IsChain Apart := by
  cases items with
  | nil => exact .nil
  | cons item items =>
    induction items generalizing item with
    | nil => simpa [series] using h
    | cons next items ih =>
      obtain ⟨hitem, hitems⟩ := List.forall_mem_cons.1 h
      exact (apart_around item rfl).2 ⟨hitem, ih next hitems⟩

theorem apart_functionKinds (hparams : params.IsChain Apart) (hret : ret.IsChain Apart) :
    (functionKinds params ret).IsChain Apart :=
  (apart_around [.kwFunc] rfl).2 ⟨.singleton _, (apart_around params rfl).2
    ⟨hparams, (apart_around [] rfl).2 ⟨.nil, hret⟩⟩⟩

end TokenKind

namespace ParseState

variable {t₀ : TypeTable} {n₀ : Interner} {s t u : ParseState} {k l : TokenKind}
  {ks : List TokenKind} {m n : Nat}

/-- In front of tokens of these kinds, with the types and names that were there before. -/
structure Faces (t₀ : TypeTable) (n₀ : Interner) (s : ParseState) (ks : List TokenKind) :
    Prop where
  sound : s.Sound
  built : TypeTable.Built s.types s.names
  types : t₀.Grows s.types
  names : n₀.Grows s.names
  front : s.window.Begins ks

/-- `t` comes after `s` without a report, by adding so many types at most. -/
structure Passed (s : ParseState) (n : Nat) (t : ParseState) : Prop where
  types : s.types.Grows t.types
  names : s.names.Grows t.names
  reports : t.reports = s.reports
  scratch : t.scratch = s.scratch
  room : ∀ k, s.types.types.Roomy (n + k) → t.types.types.Roomy k

/-- There is room for so many types, and for composing texts of so many bytes. -/
def Spacious (s : ParseState) (n size : Nat) : Prop :=
  s.types.types.Roomy n ∧ size ≤ min s.scratch maxOffset

/-- A storage ran out, for there was no such room. -/
def Falters (s : ParseState) (n size : Nat) (stop : Stop) (t : ParseState) : Prop :=
  Parse.Exhausted stop t ∧ ¬ s.Spacious n size

theorem Passed.refl (s : ParseState) : s.Passed 0 s :=
  ⟨.refl _, .refl _, rfl, rfl, fun _ h => by rwa [Nat.zero_add] at h⟩

theorem Passed.trans (h : s.Passed m t) (h' : t.Passed n u) : s.Passed (m + n) u where
  types := h.types.trans h'.types
  names := h.names.trans h'.names
  reports := h'.reports.trans h.reports
  scratch := h'.scratch.trans h.scratch
  room k hk := h'.room k (h.room (n + k) (by rwa [Nat.add_assoc] at hk))

/-- Where a part falters, so does the whole. -/
theorem Passed.falters {stop : Stop} {k size size' : Nat} (h : s.Passed m t)
    (hf : t.Falters n size stop u) (hk : m + n ≤ k) (hsize : size ≤ size') :
    s.Falters k size' stop u :=
  ⟨hf.1, fun hs => hf.2 ⟨h.room n (hs.1.mono hk), h.scratch ▸ hsize.trans hs.2⟩⟩

theorem Faces.kind (h : s.Faces t₀ n₀ (k :: ks)) : s.window.current.kind = k :=
  (Window.begins_cons.1 h.front).1

theorem Faces.advanced (h : s.Faces t₀ n₀ (k :: l :: ks)) (hl : l ≠ .error) :
    s.advanced.Faces t₀ n₀ (l :: ks) ∧ s.Passed 0 s.advanced := by
  obtain ⟨-, hfront⟩ := Window.begins_cons.1 h.front
  have htook := took_advanced h.sound (by rwa [(Window.begins_cons.1 hfront).1])
  refine ⟨⟨htook.sound, h.built, h.types, h.names, htook.window ▸ hfront⟩, ?_⟩
  exact { Passed.refl s with reports := htook.reports }

end ParseState

namespace Parse

open ParseState

variable {t₀ : TypeTable} {n₀ : Interner} {s : ParseState} {k l : TokenKind}
  {ks more : List TokenKind} {E : Stop → ParseState → Prop}

/-- A keyword of a basic type is read as that type. -/
theorem meets_word {b : BasicType} (h : s.Faces t₀ n₀ (k :: l :: ks)) (hl : l ≠ .error)
    (hk : basicType? k = some b.id) :
    Meets (production .type) s (fun parsed t => t.Faces t₀ n₀ (l :: ks) ∧ s.Passed 0 t ∧
      t.types.Reads t.names parsed b.text) E := by
  obtain ⟨hfaces, hpassed⟩ := h.advanced hl
  refine Meets.congr ?_ (production_eq_step .type h.sound)
  change Meets (typeName production) s _ _
  unfold typeName
  refine meets_bind_of_ok (current_eq s) ?_
  rw [h.kind, hk]
  refine meets_bind_of_ok (advance_eq s) ?_
  exact meets_pure ⟨hfaces, hpassed, hfaces.built.reads_basic b⟩

/-- A function type whose text is known is added under that text if there is room. -/
theorem meets_composed {signature : Signature} {params : List String} {ret text : String}
    {name : Name} (h : s.Faces t₀ n₀ ks)
    (hparams : List.Forall₂ (s.types.Reads s.names) signature.params params)
    (hret : s.types.Reads s.names signature.ret ret)
    (htext : text.toList = functionChars (itemsOf params signature.variadic) ret.toList)
    (hhas : s.names.Has name text) :
    Meets (addFunction signature) s (fun id t => t.Faces t₀ n₀ ks ∧ s.Passed 1 t ∧
        t.types.Reads t.names id text) (s.Falters 1 text.utf8ByteSize) := by
  have hreadable := h.built.readable
  have hintern : s.names.intern text = .ok (name, s.names) :=
    Interner.intern_of_get? (hreadable.lexical.get?_iff.2 hhas)
  have hmapM := TypeTable.mapM_of_reads hparams
  have hpieces : String.join (TypeTable.functionPieces params signature.variadic ret).flatten =
      text := by
    rw [← String.toList_inj, toList_functionPieces, htext]
  have hsteps := addFunction_steps s.types s.names s.scratch signature
  refine meets_addFunction (meets_intro ?_ ?_)
  · rintro id ⟨types, names⟩ hrun
    obtain ⟨full, name', hfull, hi, ha⟩ := hsteps.of_ok hrun
    obtain ⟨params', ret', hparams', hret', rfl⟩ := TypeTable.exists_of_functionText hfull
    obtain rfl := Except.ok.inj (hmapM.symm.trans hparams')
    obtain rfl := Except.ok.inj (hret.text.symm.trans hret')
    rw [hpieces, hintern] at hi
    cases hi
    obtain ⟨htypes, hdesc, hgrows, -⟩ := TypeTable.Sound.add h.sound.types ha
    refine ⟨⟨{ h.sound with types := htypes }, .function h.built hrun, h.types.trans hgrows,
      h.names, h.front⟩, ⟨hgrows, .refl _, rfl, rfl, fun k hk => ?_⟩, _, hdesc, hhas⟩
    rw [Nat.add_comm] at hk
    obtain ⟨id', types', ha', hroom⟩ := TypeTable.exists_add hk (.function signature) name
    cases ha.symm.trans ha'
    exact hroom
  · rintro e ⟨types, names⟩ hrun
    constructor
    · cases e with
      | cause e => exact ⟨e, rfl⟩
      | fault f =>
        exact absurd ((hsteps.of_error hrun).2.2 f rfl)
          (TypeTable.functionText_ne_fault hmapM hret.text)
    · rintro ⟨hroom, hfits⟩
      obtain ⟨id, types', ha, -⟩ := TypeTable.exists_add hroom (.function signature) name
      cases hrun.symm.trans (TypeTable.addFunction_eq
        (TypeTable.functionText_of_fits hmapM hret.text hpieces hfits) hintern ha)

/-- A type of this text is written with these tokens and read back from them. -/
structure ReadsBack (t₀ : TypeTable) (n₀ : Interner) (text : String) (ks : List TokenKind) :
    Prop where
  chars : text.toList = TokenKind.chars ks
  kinds : ∀ k ∈ ks, k ∈ TokenKind.typeKinds
  apart : ks.IsChain TokenKind.Apart
  head : ∃ k more, ks = k :: more ∧ k.isKeyword = true
  reads : ∀ s k more, k ≠ .error → s.Faces t₀ n₀ (ks ++ k :: more) →
    Meets (production .type) s (fun parsed t => t.Faces t₀ n₀ (k :: more) ∧
      s.Passed (ks.count .openParen) t ∧ t.types.Reads t.names parsed text)
      (s.Falters (ks.count .openParen) (TokenKind.spelling ks).length)

theorem readsBack_word {b : BasicType} (hb : b ≠ .invalid) : ∃ ks, ReadsBack t₀ n₀ b.text ks := by
  have hword : ∃ k ∈ TokenKind.typeKinds, k.isKeyword = true ∧ [k].count .openParen = 0 ∧
      basicType? k = some b.id ∧ b.text = k.describe := by
    cases b with
    | invalid => exact absurd rfl hb
    | void => exact ⟨.kwVoid, by decide⟩
    | integer => exact ⟨.kwInt, by decide⟩
    | long => exact ⟨.kwLong, by decide⟩
    | float => exact ⟨.kwFloat, by decide⟩
    | double => exact ⟨.kwDouble, by decide⟩
    | bool => exact ⟨.kwBool, by decide⟩
    | char => exact ⟨.kwChar, by decide⟩
    | cstring => exact ⟨.kwCstring, by decide⟩
  obtain ⟨k, hmem, hkeyword, hcount, hk, htext⟩ := hword
  refine ⟨[k], by simp [TokenKind.chars, htext], by simpa using hmem, .singleton k,
    ⟨k, [], rfl, hkeyword⟩, fun s l more hl h => ?_⟩
  rw [hcount]
  exact meets_word h hl hk

/-! ### Parameters -/

/-- What is read as parameters. -/
def ParamsRead (t₀ : TypeTable) (n₀ : Interner) (s : ParseState) (texts : List String)
    (variadic : Bool) (n : Nat) (ks : List TokenKind) (r : List (TypeId × Name) × Bool)
    (t : ParseState) : Prop :=
  t.Faces t₀ n₀ ks ∧ s.Passed n t ∧ r.2 = variadic ∧
    List.Forall₂ (t.types.Reads t.names) (r.1.map Prod.fst) texts

theorem paramName_eq (h : s.window.current.kind ≠ .ident) : paramName s = .ok .empty s := by
  unfold paramName
  rw [bind_of_ok (currentIs_ne h), if_neg Bool.false_ne_true]
  rfl

/-- The first parameter and what follows it. -/
theorem meets_param {text : String} {Q : List (TypeId × Name) × Bool → ParseState → Prop}
    (hf : ReadsBack t₀ n₀ text ks) (hl : l ≠ .error) (hident : l ≠ .ident)
    (h : s.Faces t₀ n₀ (ks ++ l :: more))
    (hE : ∀ stop t, s.Falters (ks.count .openParen) (TokenKind.spelling ks).length stop t →
      E stop t)
    (next : ∀ type t, t.Faces t₀ n₀ (l :: more) → s.Passed (ks.count .openParen) t →
      t.types.Reads t.names type text →
      Meets (do
        if ← eat .comma then
          let (rest, variadic) ← production .params
          return ((type, .empty) :: rest, variadic)
        return ([(type, .empty)], false)) t Q E) :
    Meets (production .params) s Q E := by
  obtain ⟨k, tail, rfl, hkeyword⟩ := hf.head
  have hellipsis : s.window.current.kind ≠ .ellipsis := by
    rw [h.kind]
    rintro rfl
    cases hkeyword
  refine Meets.congr ?_ (production_eq_step .params h.sound)
  change Meets (params production) s _ _
  unfold params
  refine meets_bind_of_ok (eat_ne hellipsis) ?_
  rw [if_neg Bool.false_ne_true]
  refine Meets.bind ((hf.reads s l more hl h).imp (fun _ _ hq => hq) hE) ?_
  rintro type t ⟨hfaces, hpassed, hreads⟩
  refine meets_bind_of_ok (paramName_eq (hfaces.kind ▸ hident)) ?_
  exact next type t hfaces hpassed hreads

/-- The tokens of parameters, each with those of its text, and of the mark of further arguments. -/
def paramKinds (f : String → List TokenKind) (texts : List String) (variadic : Bool) :
    List TokenKind :=
  TokenKind.series (texts.map f ++ if variadic then [[.ellipsis]] else [])

section

variable {f : String → List TokenKind} {text : String} {texts : List String} {variadic : Bool}

theorem paramKinds_last : paramKinds f [text] false = f text := List.append_nil _

theorem paramKinds_cons (f : String → List TokenKind) (text : String)
    (h : texts ≠ [] ∨ variadic = true) :
    paramKinds f (text :: texts) variadic = f text ++ .comma :: paramKinds f texts variadic := by
  refine TokenKind.series_cons _ ?_
  rcases h with h | rfl
  · simp [h]
  · simp

theorem forall_params {P : List TokenKind → Prop} (hf : ∀ text ∈ texts, P (f text))
    (hdots : P [.ellipsis]) :
    ∀ item ∈ texts.map f ++ if variadic then [[.ellipsis]] else [], P item := by
  intro item hitem
  rcases List.mem_append.1 hitem with hitem | hitem
  · obtain ⟨text, hmem, rfl⟩ := List.mem_map.1 hitem
    exact hf text hmem
  · cases variadic with
    | false => cases hitem
    | true =>
      obtain rfl := List.mem_singleton.1 hitem
      exact hdots

/-- Parameters begin with a word, or with the mark of further arguments. -/
theorem head_params (hf : ∀ text ∈ texts, ReadsBack t₀ n₀ text (f text))
    (hne : texts ≠ [] ∨ variadic = true) :
    ∃ l tail, paramKinds f texts variadic = l :: tail ∧ l ≠ .error ∧ l ≠ .closeParen := by
  cases texts with
  | nil =>
    obtain rfl : variadic = true := by simpa using hne
    exact ⟨.ellipsis, [], rfl, by decide, by decide⟩
  | cons text texts =>
    obtain ⟨l, tail, hl, hkeyword⟩ := (hf text List.mem_cons_self).head
    refine ⟨l, tail ++ _, congrArg (· ++ _) hl, ?_, ?_⟩
    · rintro rfl
      cases hkeyword
    · rintro rfl
      cases hkeyword

/-- Parameters are read one after the other. The induction is on their texts. -/
theorem meets_params (hf : ∀ text ∈ texts, ReadsBack t₀ n₀ text (f text))
    (hne : texts ≠ [] ∨ variadic = true)
    (h : s.Faces t₀ n₀ (paramKinds f texts variadic ++ .closeParen :: more)) :
    Meets (production .params) s
      (ParamsRead t₀ n₀ s texts variadic ((paramKinds f texts variadic).count .openParen)
        (.closeParen :: more))
      (s.Falters ((paramKinds f texts variadic).count .openParen)
        (TokenKind.spelling (paramKinds f texts variadic)).length) := by
  induction texts generalizing s with
  | nil =>
    obtain rfl : variadic = true := by simpa using hne
    have hdots : s.Faces t₀ n₀ (.ellipsis :: .closeParen :: more) := h
    obtain ⟨hfaces, hpassed⟩ := hdots.advanced (by decide)
    refine Meets.congr ?_ (production_eq_step .params h.sound)
    change Meets (params production) s _ _
    unfold params
    refine meets_bind_of_ok (eat_eq hdots.kind) ?_
    exact meets_pure ⟨hfaces, hpassed, rfl, .nil⟩
  | cons text texts ih =>
    obtain ⟨hfirst, hrest⟩ := List.forall_mem_cons.1 hf
    by_cases hmore : texts ≠ [] ∨ variadic = true
    · obtain ⟨l, tail, hl, herror, -⟩ := head_params hrest hmore
      have hkinds := paramKinds_cons f text hmore
      have hcount : (paramKinds f (text :: texts) variadic).count .openParen =
          (f text).count .openParen + (paramKinds f texts variadic).count .openParen := by
        rw [hkinds, List.count_append, List.count_cons_of_ne (by decide)]
      have hsize : (TokenKind.spelling (f text)).length +
          (TokenKind.spelling (paramKinds f texts variadic)).length ≤
            (TokenKind.spelling (paramKinds f (text :: texts) variadic)).length := by
        simp [hkinds, TokenKind.spelling]
      rw [hcount]
      rw [hkinds, List.append_assoc, List.cons_append] at h
      refine meets_param hfirst (by decide) (by decide) h (fun stop t hfalters =>
        (Passed.refl s).falters hfalters (by omega) (by omega)) ?_
      intro type t hcomma hpassed hreads
      rw [hl, List.cons_append] at hcomma
      obtain ⟨hbehind, hpassed'⟩ := hcomma.advanced herror
      rw [← List.cons_append, ← hl] at hbehind
      have hbefore := hpassed.trans hpassed'
      refine meets_bind_of_ok (eat_eq hcomma.kind) ?_
      rw [if_pos rfl]
      refine Meets.bind ((ih hrest hmore hbehind).imp (fun _ _ hq => hq) fun stop u hfalters =>
        hbefore.falters hfalters (by omega) (by omega)) ?_
      rintro ⟨ps, _⟩ u ⟨hends, hall, rfl, hothers⟩
      exact meets_pure ⟨hends, hbefore.trans hall, rfl,
        .cons (hreads.mono (hpassed'.types.trans hall.types) (hpassed'.names.trans hall.names))
          hothers⟩
    · obtain ⟨rfl, rfl⟩ : texts = [] ∧ variadic = false := by simpa using hmore
      rw [paramKinds_last] at h ⊢
      refine meets_param hfirst (by decide) (by decide) h (fun _ _ hfalters => hfalters) ?_
      intro type t hclose hpassed hreads
      refine meets_bind_of_ok (eat_ne (hclose.kind ▸ by decide)) ?_
      exact meets_pure ⟨hclose, hpassed, rfl, .cons hreads .nil⟩

/-! ### Functions -/

/-- The result of a function behind its parameters, which have been read. -/
theorem meets_result {u : ParseState} {ps : List (TypeId × Name)} {rs : List TokenKind}
    {ret : String} {name : Name} {n : Nat} (hret : ReadsBack t₀ n₀ ret rs) (hk : k ≠ .error)
    (h : ParamsRead t₀ n₀ s texts variadic n (.closeParen :: .thinArrow :: (rs ++ k :: more))
      (ps, variadic) u)
    (htext : text.toList = functionChars (itemsOf texts variadic) ret.toList)
    (hsize : (TokenKind.spelling rs).length ≤ text.utf8ByteSize) (hhas : n₀.Has name text) :
    Meets (do
        let _ ← expect .closeParen
        let ret ← if ← eat .thinArrow then production .type else pure .void
        addFunction ⟨ps.map Prod.fst, ps.map Prod.snd, ret, variadic⟩) u
      (fun id t => t.Faces t₀ n₀ (k :: more) ∧ s.Passed (n + rs.count .openParen + 1) t ∧
        t.types.Reads t.names id text)
      (s.Falters (n + rs.count .openParen + 1) text.utf8ByteSize) := by
  obtain ⟨hclose, hpassed, -, hps⟩ := h
  obtain ⟨harrow, hpassed₁⟩ := hclose.advanced (by decide)
  obtain ⟨l, tail, hl, hkeyword⟩ := hret.head
  have herror : l ≠ .error := by
    rintro rfl
    cases hkeyword
  have hkind := harrow.kind
  rw [hl, List.cons_append] at harrow
  obtain ⟨hresult, hpassed₂⟩ := harrow.advanced herror
  rw [← List.cons_append, ← hl] at hresult
  have hafter := hpassed₁.trans hpassed₂
  have hbefore := hpassed.trans hafter
  refine meets_bind_of_ok (expect_eq hclose.kind) ?_
  refine meets_bind_of_ok (eat_eq hkind) ?_
  rw [if_pos rfl]
  refine Meets.bind ((hret.reads _ k more hk hresult).imp (fun _ _ hq => hq) fun stop t hfalters =>
    hbefore.falters hfalters (by omega) hsize) ?_
  rintro type t ⟨hfaces, hread, hreads⟩
  have hall := hbefore.trans hread
  have hgrown := hafter.trans hread
  have hparams := hps.imp fun _ _ hp => hp.mono hgrown.types hgrown.names
  refine (meets_composed hfaces hparams hreads htext (hfaces.names _ _ hhas)).imp ?_ ?_
  · exact fun id v ⟨hends, hadded, hid⟩ => ⟨hends, hall.trans hadded, hid⟩
  · exact fun stop v hfalters => hall.falters hfalters (by omega) (Nat.le_refl _)

/-- The parameters of a function in their brackets, and its result. -/
theorem meets_signature {rs : List TokenKind} {ret : String} {name : Name}
    (hf : ∀ text ∈ texts, ReadsBack t₀ n₀ text (f text)) (hret : ReadsBack t₀ n₀ ret rs)
    (hk : k ≠ .error)
    (h : s.Faces t₀ n₀ (.openParen :: (paramKinds f texts variadic ++
      .closeParen :: .thinArrow :: (rs ++ k :: more))))
    (htext : text.toList = functionChars (itemsOf texts variadic) ret.toList)
    (hsize : (TokenKind.spelling (paramKinds f texts variadic)).length +
      (TokenKind.spelling rs).length ≤ text.utf8ByteSize) (hhas : n₀.Has name text) :
    Meets (signature production) s
      (fun id t => t.Faces t₀ n₀ (k :: more) ∧
        s.Passed ((paramKinds f texts variadic).count .openParen + rs.count .openParen + 1) t ∧
        t.types.Reads t.names id text)
      (s.Falters ((paramKinds f texts variadic).count .openParen + rs.count .openParen + 1)
        text.utf8ByteSize) := by
  have hsize' : (TokenKind.spelling rs).length ≤ text.utf8ByteSize := by omega
  unfold signature
  refine meets_bind_of_ok (expect_eq h.kind) ?_
  by_cases hsome : texts ≠ [] ∨ variadic = true
  · obtain ⟨l, tail, hl, herror, hclose⟩ := head_params hf hsome
    rw [hl, List.cons_append] at h
    obtain ⟨hfirst, hpassed⟩ := h.advanced herror
    have hkind := hfirst.kind
    rw [← List.cons_append, ← hl] at hfirst
    refine meets_bind_of_ok (currentIs_ne (hkind ▸ hclose)) ?_
    rw [if_neg Bool.false_ne_true]
    refine Meets.bind ((meets_params hf hsome hfirst).imp (fun _ _ hq => hq) fun stop u hfalters =>
      hpassed.falters hfalters (by omega) (by omega)) ?_
    rintro ⟨ps, _⟩ t ⟨hfaces, hread, rfl, hreads⟩
    exact meets_result hret hk ⟨hfaces, by simpa using hpassed.trans hread, rfl, hreads⟩ htext
      hsize' hhas
  · obtain ⟨rfl, rfl⟩ : texts = [] ∧ variadic = false := by simpa using hsome
    obtain ⟨hfirst, hpassed⟩ := ParseState.Faces.advanced (l := .closeParen) h (by decide)
    refine meets_bind_of_ok (currentIs_eq hfirst.kind) ?_
    rw [if_pos rfl]
    refine meets_bind_of_ok rfl ?_
    exact meets_result hret hk ⟨hfirst, hpassed, rfl, .nil⟩ htext hsize' hhas

theorem chars_function {rs : List TokenKind} {ret : String}
    (hf : ∀ text ∈ texts, text.toList = TokenKind.chars (f text))
    (hret : ret.toList = TokenKind.chars rs) :
    TokenKind.chars (TokenKind.functionKinds (paramKinds f texts variadic) rs) =
      functionChars (itemsOf texts variadic) ret.toList := by
  have hparams : texts.map (TokenKind.chars ∘ f) = texts.map String.toList :=
    List.map_congr_left fun text hmem => (hf text hmem).symm
  rw [paramKinds, TokenKind.chars_functionKinds, hret, List.map_append, List.map_map, hparams,
    itemsOf, List.map_append]
  cases variadic <;> rfl

theorem readsBack_function {rs : List TokenKind} {ret : String} {name : Name}
    (hf : ∀ text ∈ texts, ReadsBack t₀ n₀ text (f text)) (hret : ReadsBack t₀ n₀ ret rs)
    (htext : text.toList = functionChars (itemsOf texts variadic) ret.toList)
    (hhas : n₀.Has name text) :
    ReadsBack t₀ n₀ text (TokenKind.functionKinds (paramKinds f texts variadic) rs) := by
  have hchars := htext.trans
    (chars_function (fun text hmem => (hf text hmem).chars) hret.chars).symm
  have hlength := congrArg List.length (TokenKind.utf8_of_chars hchars)
  rw [length_utf8] at hlength
  refine ⟨hchars, ?_, ?_, ⟨_, _, rfl, rfl⟩, fun s k more hk h => ?_⟩
  · refine TokenKind.mem_functionKinds (TokenKind.mem_series (by decide) ?_) hret.kinds
    exact forall_params (fun text hmem => (hf text hmem).kinds) (by decide)
  · refine TokenKind.apart_functionKinds (TokenKind.apart_series ?_) hret.apart
    exact forall_params (fun text hmem => (hf text hmem).apart) (.singleton _)
  · have hsize := hlength ▸ TokenKind.length_functionKinds (paramKinds f texts variadic) rs
    have hfront : s.Faces t₀ n₀ (.kwFunc :: .openParen ::
        (paramKinds f texts variadic ++ .closeParen :: .thinArrow :: (rs ++ k :: more))) := by
      simpa [TokenKind.functionKinds] using h
    obtain ⟨hfirst, hpassed⟩ := hfront.advanced (by decide)
    rw [← hlength, TokenKind.count_functionKinds]
    refine Meets.congr ?_ (production_eq_step .type h.sound)
    change Meets (typeName production) s _ _
    unfold typeName
    refine meets_bind_of_ok (current_eq s) ?_
    rw [hfront.kind]
    refine meets_bind_of_ok (advance_eq s) ?_
    refine (meets_signature hf hret hk hfirst htext hsize hhas).imp ?_ ?_
    · exact fun id t ⟨hends, hread, hid⟩ => ⟨hends, by simpa using hpassed.trans hread, hid⟩
    · exact fun stop t hfalters => hpassed.falters hfalters (by omega) (Nat.le_refl _)

end

end Parse

/-! ### Types that can be written -/

/-- Types made from functions and from the basic types that have a name. -/
inductive TypeTable.Nameable (t : TypeTable) : TypeId → Prop
  | basic {id : TypeId} {b : BasicType} :
      t.kind id = .ok (.basic b) → b ≠ .invalid → Nameable t id
  | function {id : TypeId} {signature : Signature} :
      t.kind id = .ok (.function signature) → (∀ p ∈ signature.params, Nameable t p) →
      Nameable t signature.ret → Nameable t id

namespace TypeTable

variable {t : TypeTable} {names : Interner} {id : TypeId} {text : String}

/-- A type goes by the text that is composed for its kind. -/
theorem Readable.composed {kind : TypeKind} (h : Readable t names) (hk : t.kind id = .ok kind)
    (hr : t.Reads names id text) : t.Composed names kind text := by
  obtain ⟨d, hd, rfl⟩ := desc_of_kind hk
  obtain ⟨d', hd', hhas⟩ := hr
  obtain rfl := Except.ok.inj (hd.symm.trans hd')
  obtain ⟨s, hs, hcomposed, -⟩ := h.texts id d hd
  exact hs.inj hhas ▸ hcomposed

/-- The induction is on how the type is made. -/
theorem Nameable.readsBack (h : t.Nameable id) (ht : Readable t names)
    (hr : t.Reads names id text) : ∃ ks, Parse.ReadsBack t names text ks := by
  induction h generalizing text with
  | basic hk hb =>
    obtain rfl : text = _ := ht.composed hk hr
    exact Parse.readsBack_word hb
  | function hk _ _ ihparams ihret =>
    obtain ⟨params, ret, hparams, hret, htext⟩ := ht.composed hk hr
    obtain ⟨d, -, hhas⟩ := hr
    obtain ⟨rs, hrs⟩ := ihret hret
    have hall := forall_of_reads hparams fun p hp _ => ihparams p hp
    choose! f hf using hall
    exact ⟨_, Parse.readsBack_function hf hrs htext hhas⟩

end TypeTable

namespace Parse

variable {s : ParseState} {id : TypeId}

/-- A function type is made where there is room for it. -/
theorem exists_function (signature : Signature) (text : String) {params : List String}
    {ret : String} {m k : Nat} (h : s.Sound) (hb : TypeTable.Built s.types s.names)
    (hparams : List.Forall₂ (s.types.Reads s.names) signature.params params)
    (hret : s.types.Reads s.names signature.ret ret)
    (htext : String.join (TypeTable.functionPieces params signature.variadic ret).flatten = text)
    (hfits : text.utf8ByteSize ≤ min s.scratch maxOffset)
    (hn : s.names.Roomy (text.utf8ByteSize + m)) (ht : s.types.types.Roomy (k + 1)) :
    ∃ (id : TypeId) (t : ParseState), t.Sound ∧ TypeTable.Built t.types t.names ∧
      s.types.Grows t.types ∧ t.scratch = s.scratch ∧
      t.types.kind id = .ok (.function signature) ∧ t.types.Reads t.names id text ∧
      t.names.Roomy m ∧ t.types.types.Roomy k := by
  have hfull := TypeTable.functionText_of_fits (TypeTable.mapM_of_reads hparams) hret.text htext
    hfits
  obtain ⟨id, types, names, ha, hm, hk⟩ := TypeTable.exists_addFunction hfull hn ht
  have hrun : addFunction signature s = .ok id { s with types, names } := by
    simp only [addFunction, ha]
  have hsound := ((steady_addFunction (k := 0) signature).ok hrun h).sound
  obtain ⟨-, hgrows, -, -, ⟨name, full, hdesc, hhas, he⟩, -⟩ :=
    (addFunction_outcome h.types h.names _ _).of_ok ha
  obtain rfl := Except.ok.inj (hfull.symm.trans he)
  exact ⟨id, _, hsound, .function hb ha, hgrows, rfl, TypeTable.kind_of_desc hdesc,
    ⟨_, hdesc, hhas⟩, hm, hk⟩

/-- The canonical text of a type made from functions and basic types parses back: read as a type, it
is read to its end without a report, and gives a type equal to the one it is the text of. Only a
storage that runs out can stop this, and none does if the table has room for as many types as the
text has functions, and the text fits into a scratch arena. -/
theorem type_text_parses_back (h : s.Sound) (hb : TypeTable.Built s.types s.names)
    (hid : s.types.Nameable id) : ∃ text, s.types.text s.names id = .ok text ∧
      Meets (production .type) { s with window := .ofText text, lines := .ofText text }
        (fun parsed t => t.types.equal parsed id = .ok true ∧ t.window.atEnd = true ∧
          t.reports = s.reports)
        fun stop t => Exhausted stop t ∧ ¬ (s.types.types.Roomy (text.toList.count '(') ∧
          text.utf8ByteSize ≤ min s.scratch maxOffset) := by
  have hreadable := hb.readable
  obtain ⟨text, hreads⟩ : ∃ text, s.types.Reads s.names id text := by
    cases hid with
    | basic hk | function hk =>
      obtain ⟨d, hd, -⟩ := TypeTable.desc_of_kind hk
      exact hreadable.exists_reads hd
  obtain ⟨ks, hks⟩ := hid.readsBack hreadable hreads
  have hbytes := TokenKind.utf8_of_chars hks.chars
  have hbegins : (Window.ofText text).Begins (ks ++ [.eof]) :=
    (Window.shows_ofText text).begins hbytes hks.kinds hks.apart
  have hfront : (Window.ofText text).current.kind ≠ .error := by
    obtain ⟨k, more, rfl, hkeyword⟩ := hks.head
    rw [(Window.begins_cons.1 hbegins).1]
    rintro rfl
    cases hkeyword
  have hfaces : ParseState.Faces s.types s.names
      { s with window := .ofText text, lines := .ofText text } (ks ++ [.eof]) :=
    ⟨{ h with front := hfront, marks := Window.marked_ofText text }, hb, .refl _, .refl _, hbegins⟩
  refine ⟨text, hreads.text, (hks.reads _ .eof [] (by decide) hfaces).imp ?_ ?_⟩
  · rintro parsed t ⟨hends, hpassed, hparsed⟩
    refine ⟨?_, beq_iff_eq.2 hends.kind, hpassed.reports⟩
    exact (hends.built.readable.lexical.equal_iff hparsed
      (hreads.mono hpassed.types hpassed.names)).2 rfl
  · rintro stop t ⟨hstop, hroom⟩
    refine ⟨hstop, fun ⟨htypes, hsize⟩ => hroom ⟨?_, ?_⟩⟩
    · rwa [hks.chars, TokenKind.count_chars hks.kinds] at htypes
    · rwa [← hbytes, length_utf8]

/-- A function that takes a function and further arguments. -/
theorem nested_type_text : ∃ (s t : ParseState) (id parsed : TypeId) (text : String),
    text = "func(func(int)->void,...)->int" ∧ s.Sound ∧ TypeTable.Built s.types s.names ∧
      s.types.Nameable id ∧ s.types.text s.names id = .ok text ∧
      production .type { s with window := .ofText text, lines := .ofText text } = .ok parsed t ∧
      t.types.equal parsed id = .ok true ∧ t.window.atEnd = true ∧ t.reports = s.reports := by
  obtain ⟨s₀, hs₀, hnames₀, htypes₀⟩ := ParseState.exists_opens_roomy "" .standard (n := 45)
    (k := 4) (by decide) (by decide)
  have hscratch : s₀.scratch = Settings.standard.arenaReserve := hs₀.scratch
  have hbuilt₀ : TypeTable.Built s₀.types s₀.names :=
    .basics (show TypeTable.withMaxSlots ((Interner.withHash hash _).run []).2 _ = _ from
      hs₀.basics)
  obtain ⟨inner, s₁, hs₁, hbuilt₁, -, hscratch₁, hkind₁, hreads₁, hnames₁, htypes₁⟩ :=
    exists_function ⟨[.integer], [.empty], .void, false⟩ "func(int)->void" (m := 30) (k := 3)
      hs₀.sound hbuilt₀ (.cons (hbuilt₀.reads_basic .integer) .nil) (hbuilt₀.reads_basic .void)
      (by decide) (by rw [hscratch]; decide) hnames₀ htypes₀
  have hpieces : String.join
      (TypeTable.functionPieces ["func(int)->void"] true BasicType.integer.text).flatten =
        "func(func(int)->void,...)->int" := by decide
  obtain ⟨outer, s, hs, hbuilt, hgrows, hscratch₂, hkind, hreads, -, htypes⟩ :=
    exists_function ⟨[inner], [.empty], .integer, true⟩ "func(func(int)->void,...)->int" (m := 0)
      (k := 2) hs₁ hbuilt₁ (.cons hreads₁ .nil) (hbuilt₁.reads_basic .integer) hpieces
      (by rw [hscratch₁, hscratch]; decide) hnames₁ htypes₁
  have hbasic (b : BasicType) (hb : b ≠ .invalid) : s.types.Nameable b.id :=
    .basic (hbuilt.kind_basic b) hb
  have hinner : s.types.Nameable inner :=
    .function (hgrows.kind_eq hkind₁) (List.forall_mem_singleton.2 (hbasic .integer (by decide)))
      (hbasic .void (by decide))
  have houter : s.types.Nameable outer :=
    .function hkind (List.forall_mem_singleton.2 hinner) (hbasic .integer (by decide))
  obtain ⟨text, htext, hmeets⟩ := type_text_parses_back hs hbuilt houter
  have hsame := Except.ok.inj (htext.symm.trans hreads.text)
  cases hrun : production .type { s with window := .ofText text, lines := .ofText text } with
  | ok parsed t =>
    exact ⟨s, t, outer, parsed, text, hsame, hs, hbuilt, houter, htext, hrun, hmeets.of_ok hrun⟩
  | error stop t =>
    refine absurd ⟨?_, ?_⟩ (hmeets.of_error hrun).2
    · rw [hsame]
      exact htypes
    · rw [hsame, hscratch₂, hscratch₁, hscratch]
      decide

end Parse

end FrontEnd
