import FrontEnd.Proofs.Name.Bijection
import FrontEnd.Proofs.Name.ComposedTexts
import FrontEnd.Proofs.Symbol.Declarations
import FrontEnd.Proofs.Typing.TypingGrowth

/-!
What link names tell apart. The texts of the parameters follow one another with no mark between
them, so a link name gives its parameters away where none of these texts begins another. Elsewhere
overloads may share one.
-/

namespace FrontEnd

namespace LinkName

variable {types : TypeTable} {names names₁ : Interner} {scratch : Nat} {name n : Name}
  {params : List TypeId} {variadic variadic' : Bool}
  {base : String} {texts texts' : List String} {ts : String → Prop} {d : Draft}

/-- The text of a link name, from those of the function and its parameters. -/
def text (base : String) (texts : List String) (variadic : Bool) : String :=
  base ++ "_" ++ toString texts.length ++ String.join texts ++ if variadic then "_va" else ""

/-- One parameter more is written. -/
def write (types : TypeTable) (names : Interner) (d : Draft) (param : TypeId) :
    Except Fault Draft := do
  if d.complete then return d.put (← types.text names param) else return d

theorem texts_of_written {d' : Draft} (h : params.foldlM (write types names) d = .ok d')
    (hc : d'.complete = true) : d.complete = true ∧ ∃ texts,
      params.mapM (types.text names) = .ok texts ∧ texts.length = params.length ∧
        d'.text = d.text ++ String.join texts := by
  induction params generalizing d with
  | nil =>
    obtain rfl := Except.ok.inj h
    exact ⟨hc, [], rfl, rfl, by simp⟩
  | cons param params ih =>
    rw [List.foldlM_cons] at h
    obtain ⟨mid, hmid, h⟩ := bind_ok h
    obtain ⟨hcmid, texts, htexts, hlength, htext⟩ := ih h
    unfold write at hmid
    split at hmid
    next hcd =>
      obtain ⟨piece, hpiece, hmid⟩ := bind_ok hmid
      obtain rfl := Except.ok.inj hmid
      refine ⟨hcd, piece :: texts, ?_, congrArg (· + 1) hlength, ?_⟩
      · rw [List.mapM_cons, hpiece, htexts]
        rfl
      · rw [htext, (Draft.complete_put hcmid).2, String.join_cons, String.append_assoc]
    next hcd =>
      obtain rfl := Except.ok.inj hmid
      exact absurd hcmid hcd

theorem text_of_marked {full : String}
    (h : (if variadic && d.complete then d.put "_va" else d).finish = .ok full) :
    d.complete = true ∧ full = d.text ++ if variadic then "_va" else "" := by
  obtain ⟨hc, rfl⟩ := Draft.finish_eq_ok.1 h
  cases variadic with
  | false => exact ⟨hc, (String.append_empty).symm⟩
  | true =>
    cases hd : d.complete with
    | true =>
      rw [hd] at hc
      simp only [Bool.and_true, if_true]
      exact ⟨trivial, (Draft.complete_put hc).2⟩
    | false => simp [hd] at hc

/-- A draft that was finished has left no piece out. -/
theorem text_of_draft {full : String} (hd : draft types names scratch name params variadic = .ok d)
    (hf : d.finish = .ok full) : ∃ texts, params.mapM (types.text names) = .ok texts ∧
      full = text (names.lookup name) texts variadic := by
  obtain ⟨mid, hmid, hd⟩ := bind_ok hd
  obtain rfl := Except.ok.inj hd
  obtain ⟨hc, rfl⟩ := text_of_marked hf
  obtain ⟨hstart, texts, htexts, hlength, htext⟩ := texts_of_written hmid hc
  have hpieces := (Draft.complete_puts hstart).2
  refine ⟨texts, htexts, ?_⟩
  rw [htext, hpieces, text, hlength]
  simp [Draft.withReserve, String.append_assoc]

/-- A link name has the text that is composed for it. -/
theorem has_make (h : names.Sound)
    (hm : make types names scratch name params variadic = .ok (n, names₁)) : ∃ texts,
      params.mapM (types.text names) = .ok texts ∧
        names₁.Has n (text (names.lookup name) texts variadic) := by
  obtain ⟨d, full, hd, hf, hi⟩ := exists_of_make hm
  obtain ⟨texts, htexts, rfl⟩ := text_of_draft hd hf
  exact ⟨texts, htexts, (h.intern hi).2.1⟩

/-! ### Texts that can be told apart -/

/-- None of the texts begins another one, and none begins with a digit. -/
structure Separate (ts : String → Prop) : Prop where
  eq_of_prefix : ∀ s t, ts s → ts t → s.toList <+: t.toList → s = t
  start : ∀ s, ts s → ∃ c rest, s.toList = c :: rest ∧ c.isDigit = false

theorem Separate.split {s t : String} {xs ys : List Char} (h : Separate ts) (hs : ts s) (ht : ts t)
    (he : s.toList ++ xs = t.toList ++ ys) : s = t ∧ xs = ys := by
  have hsame : s = t := by
    rcases List.prefix_or_prefix_of_prefix (List.prefix_append s.toList xs)
        (he ▸ List.prefix_append t.toList ys) with hst | hts
    · exact h.eq_of_prefix s t hs ht hst
    · exact (h.eq_of_prefix t s ht hs hts).symm
  subst hsame
  exact ⟨rfl, List.append_cancel_left he⟩

theorem Separate.join_inj {xs ys : List Char} (h : Separate ts) (hs : ∀ s ∈ texts, ts s)
    (ht : ∀ t ∈ texts', ts t) (hlength : texts.length = texts'.length)
    (he : texts.flatMap String.toList ++ xs = texts'.flatMap String.toList ++ ys) :
    texts = texts' ∧ xs = ys := by
  induction texts generalizing texts' with
  | nil =>
    obtain rfl := List.eq_nil_of_length_eq_zero hlength.symm
    exact ⟨rfl, he⟩
  | cons s texts ih =>
    cases texts' with
    | nil => cases hlength
    | cons t texts' =>
      simp only [List.flatMap_cons, List.append_assoc] at he
      obtain ⟨rfl, hrest⟩ := h.split (hs s (by simp)) (ht t (by simp)) he
      obtain ⟨rfl, rfl⟩ := ih (fun s h => hs s (by simp [h])) (fun t h => ht t (by simp [h]))
        (Nat.succ.inj hlength) hrest
      exact ⟨rfl, rfl⟩

/-- What stands behind the number of parameters. -/
def tail (texts : List String) (variadic : Bool) : List Char :=
  texts.flatMap String.toList ++ (if variadic then "_va" else "").toList

theorem Separate.takeWhile_tail (h : Separate ts) (hs : ∀ s ∈ texts, ts s) :
    (tail texts variadic).takeWhile Char.isDigit = [] := by
  cases texts with
  | nil => cases variadic <;> rfl
  | cons s texts =>
    obtain ⟨c, rest, hc, hdigit⟩ := h.start s (hs s (by simp))
    simp [tail, hc, hdigit]

theorem text_toList : (text base texts variadic).toList =
    (base ++ "_").toList ++ (Nat.toDigits 10 texts.length ++ tail texts variadic) := by
  simp [text, tail, Nat.toString_eq_repr, Nat.toList_repr, String.toList_join]

/-- Among such texts those of the parameters can be read off. -/
theorem Separate.text_inj (h : Separate ts) (hs : ∀ s ∈ texts, ts s) (ht : ∀ t ∈ texts', ts t)
    (he : text base texts variadic = text base texts' variadic') :
    texts = texts' ∧ variadic = variadic' := by
  rw [← String.toList_inj, text_toList, text_toList] at he
  have hbehind := List.append_cancel_left he
  have hdigits (n : Nat) : ∀ c ∈ Nat.toDigits 10 n, c.isDigit = true :=
    fun c hc => Nat.isDigit_of_mem_toDigits (by decide) (by decide) hc
  -- The digits end where the first text begins.
  have hlength : texts.length = texts'.length := by
    have hnumber := congrArg (List.takeWhile Char.isDigit) hbehind
    rw [List.takeWhile_append_of_pos (hdigits _), List.takeWhile_append_of_pos (hdigits _),
      h.takeWhile_tail hs, h.takeWhile_tail ht, List.append_nil, List.append_nil] at hnumber
    have hread (n : Nat) : Nat.ofDigitChars 10 (Nat.toDigits 10 n) 0 = n :=
      Nat.ofDigitChars_toDigits (by decide) (by decide)
    rw [← hread texts.length, hnumber, hread]
  rw [hlength] at hbehind
  obtain ⟨rfl, hmark⟩ := h.join_inj hs ht hlength (List.append_cancel_left hbehind)
  refine ⟨rfl, ?_⟩
  cases variadic <;> cases variadic' <;> first | rfl | simp at hmark

theorem separate_basic : Separate fun s => ∃ b : BasicType, b.text = s where
  eq_of_prefix := by
    rintro _ _ ⟨b, rfl⟩ ⟨c, rfl⟩
    cases b <;> cases c <;> decide
  start := by
    rintro _ ⟨b, rfl⟩
    cases b <;> exact ⟨_, _, rfl, by decide⟩

/-! ### Texts that cannot be told apart -/

/-- Where one text ends and the next begins is not marked. -/
theorem text_shifted (s t u : String) :
    text base (s :: (t ++ u) :: texts) variadic = text base ((s ++ t) :: u :: texts) variadic := by
  simp [text, String.append_assoc]

/-- A parameter may look like one with further arguments behind it. -/
theorem text_marked (s : String) :
    text base (texts ++ [s ++ "_va"]) false = text base (texts ++ [s]) true := by
  rw [← String.toList_inj]
  simp [text_toList, tail]

end LinkName

/-! ### Overloads by their link names -/

/-- The canonical text of a type. -/
def TypeTable.Reads (types : TypeTable) (names : Interner) (type : TypeId) (s : String) : Prop :=
  ∃ d, types.desc type = .ok d ∧ names.Has d.text s

/-- The link name is the one for the parameters. -/
def Overload.Linked (types : TypeTable) (names : Interner) (base : String) (o : Overload) : Prop :=
  ∃ texts, List.Forall₂ (types.Reads names) o.params texts ∧
    names.Has o.mangled (LinkName.text base texts o.variadic)

section

variable {types types' : TypeTable} {names names' : Interner} {base : String} {o p : Overload}
  {ts : String → Prop} {params params' : List TypeId} {texts texts' : List String} {s : String}
  {type : TypeId}

theorem TypeTable.reads_of_text (h : ∃ s, types.Reads names type s)
    (ht : types.text names type = .ok s) : types.Reads names type s := by
  obtain ⟨s', d, hd, hs⟩ := h
  obtain ⟨d', hd', ht⟩ := bind_ok ht
  obtain rfl := Except.ok.inj (hd.symm.trans hd')
  obtain rfl := hs.lookup.symm.trans (Except.ok.inj ht)
  exact ⟨d, hd, hs⟩

theorem TypeTable.reads_of_mapM (h : ∀ type ∈ params, ∃ s, types.Reads names type s)
    (ht : params.mapM (types.text names) = .ok texts) :
    List.Forall₂ (types.Reads names) params texts := by
  induction params generalizing texts with
  | nil =>
    obtain rfl := Except.ok.inj ht
    exact .nil
  | cons type params ih =>
    rw [List.mapM_cons] at ht
    obtain ⟨s, hs, ht⟩ := bind_ok ht
    obtain ⟨rest, hrest, ht⟩ := bind_ok ht
    obtain rfl := Except.ok.inj ht
    exact .cons (reads_of_text (h type (by simp)) hs) (ih (fun t ht => h t (by simp [ht])) hrest)

theorem TypeTable.Reads.text (h : types.Reads names type s) : types.text names type = .ok s := by
  obtain ⟨d, hd, hs⟩ := h
  simp only [TypeTable.text, hd, hs.lookup, Bind.bind, Except.bind, Pure.pure, Except.pure]

theorem TypeTable.mapM_of_reads (h : List.Forall₂ (types.Reads names) params texts) :
    params.mapM (types.text names) = .ok texts := by
  induction h with
  | nil => rfl
  | cons hs _ ih =>
    rw [List.mapM_cons, hs.text, ih]
    rfl

theorem TypeTable.forall_of_reads {types : TypeTable}
    (h : List.Forall₂ (types.Reads names) params texts)
    (hts : ∀ type ∈ params, ∀ s, types.Reads names type s → ts s) : ∀ s ∈ texts, ts s := by
  induction h with
  | nil => exact fun _ hs => absurd hs List.not_mem_nil
  | cons hr _ ih =>
    exact List.forall_mem_cons.2 ⟨hts _ (by simp) _ hr, ih fun t ht => hts t (by simp [ht])⟩

theorem TypeTable.Reads.mono (h : types.Reads names type s) (ht : types.Grows types')
    (hn : names.Grows names') : types'.Reads names' type s :=
  have ⟨d, hd, hs⟩ := h
  ⟨d, ht _ _ hd, hn _ _ hs⟩

namespace Overload

theorem linked_of_make {scratch : Nat} {name : Name} (hn : names.Sound)
    (hp : ∀ type ∈ o.params, ∃ s, types.Reads names type s)
    (hm : LinkName.make types names scratch name o.params o.variadic = .ok (o.mangled, names')) :
    o.Linked types names' (names.lookup name) := by
  obtain ⟨texts, htexts, hhas⟩ := LinkName.has_make hn hm
  obtain ⟨d, text, -, -, hi⟩ := LinkName.exists_of_make hm
  refine ⟨texts, (TypeTable.reads_of_mapM hp htexts).imp fun _ _ h => ?_, hhas⟩
  exact h.mono (.refl types) (hn.intern hi).2.2

theorem Linked.mono (h : o.Linked types names base) (ht : types.Grows types')
    (hn : names.Grows names') : o.Linked types' names' base :=
  have ⟨texts, hreads, hhas⟩ := h
  ⟨texts, hreads.imp fun _ _ hr => hr.mono ht hn, hn _ _ hhas⟩

end Overload

theorem Interner.Lexical.equal_iff {s' : String} {type' : TypeId} (hx : names.Lexical)
    (h : types.Reads names type s) (h' : types.Reads names type' s') :
    types.equal type type' = .ok true ↔ s = s' := by
  obtain ⟨d, hd, hs⟩ := h
  obtain ⟨e, he, hs'⟩ := h'
  rw [TypeTable.equal_eq_true]
  constructor
  · rintro (rfl | ⟨d', e', hd', he', htext⟩)
    · obtain rfl := Except.ok.inj (hd.symm.trans he)
      exact hs.inj hs'
    · obtain rfl := Except.ok.inj (hd.symm.trans hd')
      obtain rfl := Except.ok.inj (he.symm.trans he')
      exact hs.inj (htext ▸ hs')
  · rintro rfl
    exact .inr ⟨d, e, hd, he, hx.name_inj hs hs'⟩

theorem Interner.Lexical.allM_equal_iff (hx : names.Lexical)
    (h : List.Forall₂ (types.Reads names) params texts)
    (h' : List.Forall₂ (types.Reads names) params' texts')
    (hlength : params.length = params'.length) :
    (∀ v ∈ params.zip params', types.equal v.1 v.2 = .ok true) ↔ texts = texts' := by
  induction h generalizing params' texts' with
  | nil =>
    obtain rfl := List.eq_nil_of_length_eq_zero hlength.symm
    cases h'
    simp
  | cons hs _ ih =>
    cases h' with
    | nil => cases hlength
    | cons hs' h' =>
      rw [List.zip_cons_cons, List.forall_mem_cons, hx.equal_iff hs hs',
        ih h' (Nat.succ.inj hlength), List.cons.injEq]

theorem Interner.Lexical.sameParams_iff (hx : names.Lexical)
    (ho : List.Forall₂ (types.Reads names) o.params texts)
    (hp : List.Forall₂ (types.Reads names) p.params texts') :
    o.sameParams types p = .ok true ↔ o.variadic = p.variadic ∧ texts = texts' := by
  unfold Overload.sameParams
  split
  next h => rw [allM_eq_true, hx.allM_equal_iff ho hp h.2, and_iff_right h.1]
  next h =>
    refine ⟨nofun, fun ⟨hv, ht⟩ => absurd ⟨hv, ?_⟩ h⟩
    rw [ho.length_eq, hp.length_eq, ht]

theorem Interner.Lexical.mangled_eq_iff (hx : names.Lexical)
    (ho : names.Has o.mangled (LinkName.text base texts o.variadic))
    (hp : names.Has p.mangled (LinkName.text base texts' p.variadic)) :
    o.mangled = p.mangled ↔
      LinkName.text base texts o.variadic = LinkName.text base texts' p.variadic :=
  ⟨fun he => ho.inj (he ▸ hp), fun he => hx.name_inj ho (he ▸ hp)⟩

/-- Overloads of one function have one link name exactly if their parameters are the same, provided
the texts of these can be told apart. -/
theorem mangled_eq_iff_sameParams (hx : names.Lexical) (hsep : LinkName.Separate ts)
    (ho : o.Linked types names base) (hp : p.Linked types names base)
    (hts : ∀ type ∈ o.params ++ p.params, ∀ s, types.Reads names type s → ts s) :
    o.mangled = p.mangled ↔ o.sameParams types p = .ok true := by
  obtain ⟨texts, hreads, hhas⟩ := ho
  obtain ⟨texts', hreads', hhas'⟩ := hp
  rw [hx.sameParams_iff hreads hreads', hx.mangled_eq_iff hhas hhas']
  constructor
  · intro he
    obtain ⟨htexts, hv⟩ := hsep.text_inj
      (TypeTable.forall_of_reads hreads fun type ht => hts type (by simp [ht]))
      (TypeTable.forall_of_reads hreads' fun type ht => hts type (by simp [ht])) he
    exact ⟨hv, htexts⟩
  · rintro ⟨hv, rfl⟩
    rw [hv]

/-- Overloads share a link name where the end of one parameter may as well begin the next. -/
theorem mangled_eq_of_shifted {t u : String} (hx : names.Lexical)
    (ho : names.Has o.mangled (LinkName.text base (s :: (t ++ u) :: texts) o.variadic))
    (hp : names.Has p.mangled (LinkName.text base ((s ++ t) :: u :: texts) p.variadic))
    (hv : o.variadic = p.variadic) : o.mangled = p.mangled :=
  (hx.mangled_eq_iff ho hp).2 (hv ▸ LinkName.text_shifted s t u)

/-- So do overloads of which one ends where the other takes further arguments. -/
theorem mangled_eq_of_marked (hx : names.Lexical)
    (ho : names.Has o.mangled (LinkName.text base (texts ++ [s ++ "_va"]) o.variadic))
    (hp : names.Has p.mangled (LinkName.text base (texts ++ [s]) p.variadic))
    (hov : o.variadic = false) (hpv : p.variadic = true) : o.mangled = p.mangled := by
  rw [hx.mangled_eq_iff ho hp, hov, hpv]
  exact LinkName.text_marked s

/-! ### Removal by link name -/

namespace FuncTable

variable {t : FuncTable} {key : ScopedKey} {mangled : Name}

/-- What goes is the first overload with the link name. -/
theorem eraseOverload_fst :
    (t.eraseOverload key mangled).1 = (t.overloads key).find? (·.mangled == mangled) := by
  unfold eraseOverload overloads
  cases t.get? key with
  | none => rfl
  | some chain =>
    dsimp only [Option.getD_some]
    cases chain.find? (·.mangled == mangled) <;> rfl

theorem overloads_eraseOverload (h : t.Sound) (k : ScopedKey) :
    (t.eraseOverload key mangled).2.overloads k =
      if k = key then (t.overloads key).eraseP (·.mangled == mangled) else t.overloads k := by
  -- Without an overload of this name nothing is removed.
  have hkept (hnone : ∀ o ∈ t.overloads key, ¬(o.mangled == mangled) = true) : t.overloads k =
      if k = key then (t.overloads key).eraseP (·.mangled == mangled) else t.overloads k := by
    rw [List.eraseP_of_forall_not hnone]
    split
    next hk => rw [hk]
    next => rfl
  unfold eraseOverload
  cases hkey : t.get? key with
  | none => exact hkept (by simp [overloads, hkey])
  | some chain =>
    have hchain : t.overloads key = chain := by rw [overloads, hkey, Option.getD_some]
    dsimp only
    cases hfind : chain.find? (·.mangled == mangled) with
    | none => exact hkept (hchain ▸ List.find?_eq_none.1 hfind)
    | some o =>
      dsimp only
      rw [hchain, overloads, overloads]
      cases hempty : (chain.eraseP (·.mangled == mangled)).isEmpty with
      | true =>
        rw [if_pos rfl, h.get?_erase, List.isEmpty_iff.1 hempty]
        split <;> rfl
      | false =>
        rw [if_neg Bool.false_ne_true, h.get?_modify]
        split
        next hk => rw [hk, hkey, Option.map_some, Option.getD_some]
        next => rfl

/-- With link names that differ, an overload is removed by its own. -/
theorem eraseOverload_of_pairwise (h : t.Sound)
    (hd : (t.overloads key).Pairwise fun o p => o.mangled ≠ p.mangled) (ho : o ∈ t.overloads key) :
    (t.eraseOverload key o.mangled).1 = some o ∧
      (t.eraseOverload key o.mangled).2.overloads key = (t.overloads key).erase o := by
  rw [eraseOverload_fst, overloads_eraseOverload h, if_pos rfl]
  generalize t.overloads key = chain at hd ho
  induction chain with
  | nil => cases ho
  | cons p chain ih =>
    obtain ⟨hp, hd⟩ := List.pairwise_cons.1 hd
    by_cases hop : p = o
    · subst hop
      simp
    · have hmem := (List.mem_cons.1 ho).resolve_left (Ne.symm hop)
      have hne : (p.mangled == o.mangled) = false := beq_false_of_ne (hp o hmem)
      rw [List.find?_cons_of_neg (by simp [hne]), List.eraseP_cons_of_neg (by simp [hne]),
        List.erase_cons_tail (by simpa using hop)]
      exact ⟨(ih hd hmem).1, congrArg _ (ih hd hmem).2⟩

/-- The overloads of a function are told apart by their link names, if the texts of their
parameters can be. -/
theorem eraseOverload_of_linked (h : t.Sound) (hx : names.Lexical) (hsep : LinkName.Separate ts)
    (hl : ∀ o ∈ t.overloads key, o.Linked types names base)
    (hts : ∀ o ∈ t.overloads key, ∀ type ∈ o.params, ∀ s, types.Reads names type s → ts s)
    (hd : (t.overloads key).Pairwise fun o p => o.sameParams types p ≠ .ok true)
    (ho : o ∈ t.overloads key) : (t.eraseOverload key o.mangled).1 = some o ∧
      (t.eraseOverload key o.mangled).2.overloads key = (t.overloads key).erase o := by
  refine eraseOverload_of_pairwise h (hd.imp_of_mem fun hp hq hpq he => hpq ?_) ho
  refine (mangled_eq_iff_sameParams hx hsep (hl _ hp) (hl _ hq) fun type ht => ?_).1 he
  exact (List.mem_append.1 ht).elim (hts _ hp type) (hts _ hq type)

end FuncTable

end

end FrontEnd
