import FrontEnd.Proofs.Name.ComposedTexts
import FrontEnd.Proofs.Symbol.Declarations
import FrontEnd.Proofs.Typing.Fitting

/-!
Which types can be in use: those in the tables are, and whatever checking looks up is. As long as
nothing is reported, no type in use is the invalid one.
-/

namespace FrontEnd

namespace TypeTable

variable {types types' : TypeTable} {names names' : Interner} {quiet quiet' : Prop} {id : TypeId}
  {k : ValueKind}

/-- There is such a type, and it is not invalid while all is quiet. -/
def Uses (types : TypeTable) (quiet : Prop) (id : TypeId) : Prop :=
  (∃ d, types.desc id = .ok d) ∧ (quiet → id ≠ .invalid)

/-- No type but that of a kind of values goes by its text. -/
def Plain (types : TypeTable) (names : Interner) (id : TypeId) : Prop :=
  ∃ d text, types.desc id = .ok d ∧ names.Has d.text text ∧
    ∀ k : ValueKind, text = k.basic.text → id = k.type

/-- A type that was named. -/
structure Knows (types : TypeTable) (names : Interner) (quiet : Prop) (id : TypeId) : Prop where
  uses : types.Uses quiet id
  plain : types.Plain names id

theorem Uses.mono (h : types.Uses quiet id) (ht : types.Grows types') (hq : quiet' → quiet) :
    types'.Uses quiet' id :=
  ⟨h.1.imp fun _ hd => ht _ _ hd, fun hq' => h.2 (hq hq')⟩

theorem Plain.mono (h : types.Plain names id) (ht : types.Grows types')
    (hn : names.Grows names') : types'.Plain names' id := by
  obtain ⟨d, text, hd, htext, hk⟩ := h
  exact ⟨d, text, ht _ _ hd, hn _ _ htext, hk⟩

theorem Knows.mono (h : types.Knows names quiet id) (ht : types.Grows types')
    (hn : names.Grows names') (hq : quiet' → quiet) : types'.Knows names' quiet' id :=
  ⟨h.uses.mono ht hq, h.plain.mono ht hn⟩

/-- A type that equals that of a kind of values is that type. -/
theorem Plain.eq_type (h : types.Plain names id) (hb : types.HoldsBasics names)
    (he : types.equal k.type id = .ok true) : k.type = id := by
  obtain ⟨d, text, hd, htext, hk⟩ := h
  obtain ⟨name, hbasic, hname⟩ := hb k.basic
  rw [k.id_basic] at hbasic
  unfold TypeTable.equal at he
  split at he
  next heq => exact heq
  next =>
    simp only [hbasic, hd, Bind.bind, Except.bind, Pure.pure, Except.pure, Except.ok.injEq,
      beq_iff_eq] at he
    refine (hk k ?_).symm
    rw [← htext.lookup, ← he, hname.lookup]

theorem HoldsBasics.plain (h : types.HoldsBasics names) (b : BasicType) :
    types.Plain names b.id := by
  obtain ⟨name, hd, hname⟩ := h b
  refine ⟨_, _, hd, hname, fun k hk => ?_⟩
  rw [BasicType.text_injective hk, k.id_basic]

theorem HoldsBasics.knows (h : types.HoldsBasics names) {b : BasicType} (hb : b ≠ .invalid) :
    types.Knows names quiet b.id := by
  obtain ⟨name, hd, -⟩ := h b
  refine ⟨⟨⟨_, hd⟩, fun _ he => hb ?_⟩, h.plain b⟩
  cases b <;> first | rfl | cases he

end TypeTable

/-! ### Tables -/

/-- All types in the tables are in use, and those without a name of their own are basic. From some
place in a text on, which `late` tells of, names are cut off, and nothing is known of new types. -/
structure Symbols.Furnished (symbols : Symbols) (types : TypeTable) (names : Interner)
    (late quiet : Prop) : Prop where
  basics : types.HoldsBasics names
  basic : ∀ id b, types.kind id = .ok (.basic b) → id = b.id
  plain : ¬late → ∀ id d, types.desc id = .ok d → types.Plain names id
  named : ∀ key type, symbols.types.get? key = some type →
    type ≠ .invalid ∧ ∃ d, types.desc type = .ok d ∧ d.text = key.name
  var : ∀ key type, symbols.vars.get? key = some type → types.Uses quiet type
  overload : ∀ key, ∀ o ∈ FuncTable.overloads symbols.funcs key, types.Uses quiet o.ret
  param : ∀ key, ∀ o ∈ FuncTable.overloads symbols.funcs key, ∀ type ∈ o.params,
    ∃ d, types.desc type = .ok d
  signature : ∀ id signature, types.kind id = .ok (.function signature) →
    (∀ type ∈ signature.params, types.Knows names quiet type) ∧
      types.Knows names quiet signature.ret
  field : ∀ id name fields, types.kind id = .ok (.struct name fields) →
    ∀ field ∈ fields, types.Knows names quiet field.type

namespace Symbols.Furnished

variable {symbols symbols' : Symbols} {types types' : TypeTable} {names names' : Interner}
  {late late' quiet quiet' : Prop} {key : ScopedKey} {type id : TypeId} {kind : TypeKind}
  {text : Name}

/-- Later on, with the same types and symbols. -/
theorem mono (h : symbols.Furnished types names late quiet) (hn : names.Grows names')
    (hl : late → late') (hq : quiet' → quiet) : symbols.Furnished types names' late' quiet' where
  basics := h.basics.grows (.refl types) hn
  basic := h.basic
  plain hlate id d hd := (h.plain (fun hl' => hlate (hl hl')) id d hd).mono (.refl types) hn
  named := h.named
  var key type hv := (h.var key type hv).mono (.refl types) hq
  overload key o ho := (h.overload key o ho).mono (.refl types) hq
  param := h.param
  signature id signature hk :=
    ⟨fun type ht => ((h.signature id signature hk).1 type ht).mono (.refl types) hn hq,
      (h.signature id signature hk).2.mono (.refl types) hn hq⟩
  field id name fields hk field hf := (h.field id name fields hk field hf).mono (.refl types) hn hq

theorem overloads_of_fewer {o : Overload}
    (hf : ∀ key chain, symbols'.funcs.get? key = some chain → symbols.funcs.get? key = some chain)
    (ho : o ∈ FuncTable.overloads symbols'.funcs key) :
    o ∈ FuncTable.overloads symbols.funcs key := by
  unfold FuncTable.overloads at ho ⊢
  cases hc : symbols'.funcs.get? key with
  | none => simp [hc] at ho
  | some chain => rwa [hf key chain hc, ← hc]

/-- Some of the symbols are gone. -/
theorem fewer (h : symbols.Furnished types names late quiet)
    (hv : ∀ key type, symbols'.vars.get? key = some type → symbols.vars.get? key = some type)
    (hf : ∀ key chain, symbols'.funcs.get? key = some chain → symbols.funcs.get? key = some chain)
    (ht : ∀ key type, symbols'.types.get? key = some type → symbols.types.get? key = some type) :
    symbols'.Furnished types names late quiet where
  basics := h.basics
  basic := h.basic
  plain := h.plain
  named key type hk := h.named key type (ht key type hk)
  var key type hk := h.var key type (hv key type hk)
  overload key o ho := h.overload key o (overloads_of_fewer hf ho)
  param key o ho := h.param key o (overloads_of_fewer hf ho)
  signature := h.signature
  field := h.field

theorem leaveDepth (h : symbols.Furnished types names late quiet) (hs : symbols.Sound)
    (depth : Nat) : (symbols.leaveDepth depth).Furnished types names late quiet := by
  refine h.fewer (fun key type hk => ?_) (fun key chain hk => ?_) fun key type hk => ?_
  · rw [(hs.get?_leaveDepth depth key).1] at hk
    split at hk
    · cases hk
    · exact hk
  · rw [(hs.get?_leaveDepth depth key).2.1] at hk
    split at hk
    · cases hk
    · exact hk
  · rw [(hs.get?_leaveDepth depth key).2.2] at hk
    split at hk
    · cases hk
    · exact hk

theorem insert_var (h : symbols.Furnished types names late quiet) (hs : symbols.Sound)
    (ht : types.Uses quiet type) (key : ScopedKey) :
    Furnished { symbols with vars := (symbols.vars.insert key type).2 } types names late quiet :=
  { h with
    var := fun k found hk => by
      rw [hs.vars.get?_insert] at hk
      split at hk
      · exact Option.some.inj hk ▸ ht
      · exact h.var k found hk }

theorem withParams (h : symbols.Furnished types names late quiet) (hs : symbols.Sound) (depth : Nat)
    (params : List (TypeId × Name)) (hp : ∀ p ∈ params, types.Uses quiet p.1) :
    Furnished { symbols with vars := symbols.vars.withParams depth params } types names late
      quiet := by
  induction params generalizing symbols with
  | nil => exact h
  | cons param params ih =>
    obtain ⟨type, name⟩ := param
    rw [VarTable.withParams_cons]
    rw [List.forall_mem_cons] at hp
    by_cases hname : name = .empty
    · simp only [hname, if_true]
      exact ih h hs hp.2
    · simp only [hname, if_false]
      exact ih (h.insert_var hs hp.1 ⟨name, depth⟩) (hs.insert_var name depth type).1 hp.2

theorem insert_type (h : symbols.Furnished types names late quiet) (hs : symbols.Sound)
    (hne : type ≠ .invalid) (hd : types.desc type = .ok ⟨kind, text⟩) (depth : Nat) :
    Furnished { symbols with types := (symbols.types.insert ⟨text, depth⟩ type).2 } types names late
      quiet :=
  { h with
    named := fun k found hk => by
      rw [hs.types.get?_insert] at hk
      split at hk
      next he =>
        obtain rfl := Option.some.inj hk
        exact ⟨hne, _, hd, he ▸ rfl⟩
      next => exact h.named k found hk }

theorem declare_func (h : symbols.Furnished types names late quiet) (hs : symbols.Sound)
    {o : Overload} {replaced : Bool} {funcs : FuncTable} (ho : types.Uses quiet o.ret)
    (hp : ∀ type ∈ o.params, ∃ d, types.desc type = .ok d)
    (hd : FuncTable.declare symbols.funcs types key o = .ok (replaced, funcs)) :
    Furnished { symbols with funcs } types names late quiet :=
  { h with
    overload := fun k p hmem => by
      rcases (FuncTable.declare_ok hs.funcs hd).2.2 k p hmem with ⟨-, rfl⟩ | hmem
      · exact ho
      · exact h.overload k p hmem
    param := fun k p hmem => by
      rcases (FuncTable.declare_ok hs.funcs hd).2.2 k p hmem with ⟨-, rfl⟩ | hmem
      · exact hp
      · exact h.param k p hmem }

/-- One more type. -/
theorem add (h : symbols.Furnished types names late quiet) (hn : names.Grows names')
    (hg : types.Grows types') (hd : types'.desc id = .ok ⟨kind, text⟩)
    (hall : ∀ i d, types'.desc i = .ok d → i = id ∧ d.kind = kind ∨ types.desc i = .ok d)
    (hk : ∀ b, kind ≠ .basic b) (hp : ¬late → types'.Plain names' id) (hq : quiet' → quiet)
    (hs : ∀ signature, kind = .function signature →
      (∀ type ∈ signature.params, types.Knows names quiet type) ∧
        types.Knows names quiet signature.ret)
    (hf : ∀ name fields, kind = .struct name fields →
      ∀ field ∈ fields, types.Knows names quiet field.type) :
    id ≠ .invalid ∧ symbols.Furnished types' names' late quiet' := by
  have hkind {i : TypeId} {k : TypeKind} (hi : types'.kind i = .ok k) :
      k = kind ∨ types.kind i = .ok k := by
    obtain ⟨d, hd, rfl⟩ := TypeTable.desc_of_kind hi
    rcases hall i d hd with ⟨-, hd⟩ | hd
    · exact .inl hd
    · exact .inr (TypeTable.kind_of_desc hd)
  have hne : id ≠ .invalid := by
    rintro rfl
    obtain ⟨name, hb, -⟩ := h.basics .invalid
    have := (hg _ _ hb).symm.trans hd
    cases this
    exact hk _ rfl
  refine ⟨hne, {
    basics := h.basics.grows hg hn
    basic := fun i b hi => ?_
    plain := fun hlate i d hi => ?_
    named := fun key type hkey => ?_
    var := fun key type hkey => (h.var key type hkey).mono hg hq
    overload := fun key o ho => (h.overload key o ho).mono hg hq
    param := fun key o ho type ht => (h.param key o ho type ht).imp fun d hd => hg _ _ hd
    signature := fun i signature hi => ?_
    field := fun i name fields hi field hmem => ?_ }⟩
  · rcases hkind hi with he | hi
    · exact absurd he.symm (hk b)
    · exact h.basic i b hi
  · rcases hall i d hi with ⟨rfl, -⟩ | hi
    · exact hp hlate
    · exact (h.plain hlate i d hi).mono hg hn
  · obtain ⟨hinv, d, hd, ht⟩ := h.named key type hkey
    exact ⟨hinv, d, hg _ _ hd, ht⟩
  · obtain ⟨hparams, hret⟩ := (hkind hi).elim (fun he => hs signature he.symm)
      (h.signature i signature)
    exact ⟨fun type ht => (hparams type ht).mono hg hn hq, hret.mono hg hn hq⟩
  · refine TypeTable.Knows.mono ?_ hg hn hq
    rcases hkind hi with he | hi
    · exact hf name fields he.symm field hmem
    · exact h.field i name fields hi field hmem

end Symbols.Furnished

/-! ### Looking up -/

theorem VarTable.get?_of_resolve {vars : VarTable} {name : Name} {depth i : Nat} {type : TypeId}
    (h : VarTable.resolve vars name depth = some (type, i)) :
    vars.get? ⟨name, i⟩ = some type := by
  induction depth with
  | zero =>
    obtain ⟨found, hfound, he⟩ := Option.map_eq_some_iff.1 h
    cases he
    exact hfound
  | succ depth ih =>
    unfold VarTable.resolve at h
    split at h
    next found hfound =>
      cases h
      exact hfound
    next => exact ih h

namespace Env

variable {env : Env} {name : Name} {type : TypeId} {types : TypeTable} {late quiet : Prop}
  {M : TypeId → Prop} {declared : Overload → Prop}

theorem get?_of_resolveVar (h : env.resolveVar name = some type) :
    ∃ key, env.symbols.vars.get? key = some type := by
  obtain ⟨candidate, -, hc⟩ := List.exists_of_findSome?_eq_some h
  obtain ⟨⟨found, depth⟩, hfound, rfl⟩ := Option.map_eq_some_iff.1 hc
  exact ⟨_, VarTable.get?_of_resolve hfound⟩

theorem get?_of_resolveType (h : env.resolveType name = some type) :
    ∃ key, key.name ∈ env.candidates name ∧ env.symbols.types.get? key = some type := by
  obtain ⟨key, hkey, hget⟩ := List.exists_of_findSome?_eq_some h
  obtain ⟨candidate, hc, hkey⟩ := List.mem_flatMap.1 hkey
  obtain ⟨depth, -, rfl⟩ := List.mem_map.1 hkey
  exact ⟨_, hc, hget⟩

/-- Inference comes to types in use only. -/
theorem Supplies.desc (hs : env.Supplies M type)
    (h : env.symbols.Furnished env.types env.names late quiet)
    (hM : ∀ type, M type → ∃ d, env.types.desc type = .ok d) :
    ∃ d, env.types.desc type = .ok d := by
  cases hs with
  | basic b =>
    obtain ⟨name, hd, -⟩ := h.basics b
    exact ⟨_, hd⟩
  | var hr =>
    obtain ⟨key, hkey⟩ := get?_of_resolveVar hr
    exact (h.var key _ hkey).1
  | named hr =>
    obtain ⟨key, -, hkey⟩ := get?_of_resolveType hr
    exact (h.named key _ hkey).2.imp fun d hd => hd.1
  | ret hr =>
    obtain ⟨key, o, ho, -, hret, -⟩ := resolveCall_ok hr
    rw [hret]
    exact (h.overload key o ho).1
  | field hk hf => exact (h.field _ _ _ hk _ hf).uses.1
  | lambda hm => exact hM _ hm
  | param ho ht => exact h.param _ _ ho _ ht

/-- While all is quiet, checking consults nothing invalid. -/
theorem sensible (h : env.symbols.Furnished env.types env.names late quiet) (hq : quiet)
    (hg : env.types.Grows types)
    (ho : ∀ key, ∀ o ∈ FuncTable.overloads env.symbols.funcs key, declared o) :
    env.Sensible types declared where
  grows := hg
  basic := h.basic
  var _ _ hr := by
    obtain ⟨key, hkey⟩ := get?_of_resolveVar hr
    exact (h.var key _ hkey).2 hq
  named _ _ hr := by
    obtain ⟨key, -, hkey⟩ := get?_of_resolveType hr
    exact (h.named key _ hkey).1
  field id name fields hk field hf := (h.field id name fields hk field hf).uses.2 hq
  overload key o hmem := ⟨ho key o hmem, (h.overload key o hmem).2 hq⟩

/-- A type found by a name. Where names are cut off it has none of a basic type. -/
theorem plain_resolveType (env : Env)
    (hnamed : ∀ key type, env.symbols.types.get? key = some type →
      ∃ d, env.types.desc type = .ok d ∧ d.text = key.name)
    (hplain : ¬late → ∀ id d, env.types.desc id = .ok d → env.types.Plain env.names id)
    (hn : env.names.Sound) (hlate : late → env.names.Has name "")
    (hr : env.resolveType name = some type) : env.types.Plain env.names type := by
  obtain ⟨key, hcandidate, hkey⟩ := get?_of_resolveType hr
  obtain ⟨d, hd, ht⟩ := hnamed key type hkey
  by_cases hl : late
  · have hnone {text : String} (hhas : env.names.Has key.name text)
        (htext : ∀ k : ValueKind, text ≠ k.basic.text) : env.types.Plain env.names type :=
      ⟨d, text, hd, ht ▸ hhas, fun k hk => absurd hk (htext k)⟩
    rcases List.mem_cons.1 hcandidate with he | hmem
    · exact hnone (he ▸ hlate hl) fun k => by cases k <;> decide
    · obtain ⟨outer, -, hfind⟩ := List.mem_filterMap.1 hmem
      exact hnone (Qualified.has_find? hn hfind) fun k => k.basic.text_ne_qualified _ _
  · exact hplain hl type d hd

theorem knows_resolveType (env : Env) (h : env.symbols.Furnished env.types env.names late quiet)
    (hn : env.names.Sound) (hlate : late → env.names.Has name "")
    (hr : env.resolveType name = some type) : env.types.Knows env.names quiet type := by
  obtain ⟨key, -, hkey⟩ := get?_of_resolveType hr
  obtain ⟨hne, hd⟩ := h.named key type hkey
  exact ⟨⟨hd.imp fun d hd => hd.1, fun _ => hne⟩,
    env.plain_resolveType (fun key type hk => (h.named key type hk).2) h.plain hn hlate hr⟩

end Env

end FrontEnd
