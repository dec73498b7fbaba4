import FrontEnd.Grammar.Declaration
import FrontEnd.Proofs.Name.ComposedTexts
import FrontEnd.Proofs.Grammar.SteadyParts

/-! Declarations stay in their block, and blocks leave the tables as they found them. -/

namespace FrontEnd

theorem Scope.depth_popNamespace (scope : Scope) : scope.popNamespace.2.depth = scope.depth := by
  unfold Scope.popNamespace
  split <;> rfl

namespace ParseState

variable {s t : ParseState} {k : Nat}

/-- Nothing is declared in a new block. -/
theorem Sound.enter (h : s.Sound) : Sound { s with scope := s.scope.enter } :=
  { h with
    shallow := h.shallow.mono (Nat.le_succ _)
    bindings := fun key hk => h.bindings key (Nat.lt_of_succ_lt hk) }

/-- Whatever changes at the current depth alone is a declaration. -/
theorem Sound.onto_symbols {symbols : Symbols} {folder : Folder} (h : s.Sound)
    (hs : symbols.Sound) (ha : s.symbols.AgreeOff s.scope.depth symbols)
    (hb : ∀ key, key.depth ≠ s.scope.depth → folder.bindingAt key = s.folder.bindingAt key) :
    s.Onto 0 { s with symbols, folder } :=
  { h.refl 0 with
    sound := { h with
      symbols := hs
      shallow := ha.shallow h.shallow
      bindings := fun key hk =>
        (hb key (Nat.ne_of_gt hk)).trans (h.bindings key hk) }
    symbols := ha.agree
    bindings := fun key hk => hb key (Nat.ne_of_lt hk) }

/-- At the end of a block all is as before, but for what is deeper. -/
theorem Onto.leave (ho : Onto 0 { s with scope := s.scope.enter } t) :
    s.Onto 1 (Parse.leaveScope t) := by
  have hdepth : t.scope.depth = s.scope.depth + 1 := ho.depth
  have hshallow := ho.sound.shallow
  rw [hdepth] at hshallow
  refine { ho with
    sound := { ho.sound with
      symbols := ho.sound.symbols.leaveDepth _
      shallow := ?_
      bindings := ?_ }
    depth := ?_
    scope := ?_
    symbols := ?_
    bindings := ?_ }
  · simpa [Parse.leaveScope, Scope.leave, hdepth] using
      ho.sound.symbols.shallow_leaveDepth hshallow
  · intro key hk
    simp only [Parse.leaveScope, Scope.leave, hdepth] at hk ⊢
    rw [Folder.bindingAt_leaveScope]
    split
    · rfl
    · exact ho.sound.bindings key (by omega)
  · simp [Parse.leaveScope, Scope.leave, hdepth]
  · intro hs
    have hsame : t.scope.leave = s.scope := (ho.scope hs.enter).leave hs
    rw [Parse.leaveScope, hsame]
    exact .refl 1 _
  · have hleft := ho.sound.symbols.agree_leaveDepth (s.scope.depth + 1)
    simp only [Parse.leaveScope, hdepth]
    exact Symbols.Agree.trans ho.symbols hleft
  · intro key hk
    simp only [Parse.leaveScope, hdepth, Folder.bindingAt_leaveScope,
      show key.depth ≠ s.scope.depth + 1 by omega, if_false]
    exact ho.bindings key hk

theorem Sound.returning (h : s.Sound) (ret : TypeId) :
    Sound { s with returns := ret :: s.returns } := { h with }

theorem Onto.popReturn {ret : TypeId} (ho : Onto k { s with returns := ret :: s.returns } t) :
    s.Onto k { t with returns := t.returns.tail } :=
  { ho with
    sound := { ho.sound with }
    returns := by simp [ho.returns] }

theorem Sound.within (h : s.Sound) (name : Name) :
    Sound { s with scope := s.scope.pushNamespace name } := { h with }

theorem Onto.popNamespace {name : Name}
    (ho : Onto k { s with scope := s.scope.pushNamespace name } t) :
    s.Onto k { t with scope := t.scope.popNamespace.2 } :=
  { ho with
    sound := { ho.sound with
      shallow := t.scope.depth_popNamespace.symm ▸ ho.sound.shallow
      bindings := fun key hk => ho.sound.bindings key (t.scope.depth_popNamespace ▸ hk) }
    depth := t.scope.depth_popNamespace.trans ho.depth
    scope := fun hs => by
      have hsame : t.scope.popNamespace.2 = s.scope :=
        (ho.scope (hs.pushNamespace name)).popNamespace
      rw [hsame]
      exact .refl k _ }

end ParseState

namespace Parse

variable {α : Type} {k : Nat} {p : Parse α} {s t : ParseState}

/-! ### Declarations -/

/-- A declared variable has its type, and its value if it is a constant of that type. -/
theorem meets_declareVariable (stored : Name) (type : TypeId) (isConst : Bool)
    (value : Option Value) (s : ParseState) : Meets (declareVariable stored type isConst value) s
      (fun _ u => ∃ f bound,
        u = { s with
          symbols := { s.symbols with
            vars := (s.symbols.vars.insert ⟨stored, s.scope.depth⟩ type).2 }
          folder := f } ∧
        (∀ key, f.bindingAt key =
          if key = ⟨stored, s.scope.depth⟩ then bound else s.folder.bindingAt key) ∧
        ∀ v, bound = some v →
          value = some v ∧ isConst = true ∧ s.types.equal v.kind.type type = .ok true)
      fun e u => u = s ∧
        ∃ (v : Value) (fault : Fault), e = .fault fault ∧
          s.types.equal v.kind.type type = .error fault := by
  have hunbound := s.folder.bindingAt_unbind ⟨stored, s.scope.depth⟩
  refine meets_bind_of_ok (get_eq s) (meets_bind_of_ok (a := ⟨stored, s.scope.depth⟩) rfl ?_)
  cases value with
  | none => exact meets_bind_of_ok rfl (meets_set ⟨_, none, rfl, hunbound, by simp⟩)
  | some v =>
    cases isConst with
    | false => exact meets_bind_of_ok rfl (meets_set ⟨_, none, rfl, hunbound, by simp⟩)
    | true =>
      refine Meets.bind (R := fun equal u => u = s ∧ s.types.equal v.kind.type type = .ok equal)
        (meets_ofFault (fun _ he => ⟨rfl, he⟩) fun fault he => ⟨rfl, v, fault, rfl, he⟩) ?_
      rintro equal u ⟨rfl, he⟩
      cases equal with
      | false => exact meets_set ⟨_, none, rfl, hunbound, by simp⟩
      | true =>
        refine meets_set ⟨_, some v, rfl, fun key => Folder.bindingAt_bind _ _ key v, ?_⟩
        rintro _ ⟨⟩
        exact ⟨rfl, rfl, he⟩

theorem steady_declareVariable (name : Name) (type : TypeId) (isConst : Bool)
    (value : Option Value) : Steady 0 (declareVariable name type isConst value) := by
  refine ⟨fun s => (meets_declareVariable name type isConst value s).imp ?_ ?_⟩
  · rintro _ _ ⟨f, bound, rfl, hf, -⟩ h
    obtain ⟨hs, ha⟩ := h.symbols.insert_var name s.scope.depth type
    -- Only the binding of the name itself may change.
    refine h.onto_symbols hs ha fun key hk => (hf key).trans (if_neg ?_)
    rintro rfl
    exact hk rfl
  · rintro _ _ ⟨rfl, v, fault, rfl, -⟩ h
    exact ⟨h.refl 0, nofun⟩

theorem steady_declareParams (signature : Signature) : Steady 0 (declareParams signature) := by
  refine keeps_modify fun s h => ?_
  obtain ⟨hs, ha⟩ :=
    h.symbols.withParams s.scope.depth (signature.params.zip signature.paramNames)
  exact h.onto_symbols hs ha fun _ _ => rfl

theorem steady_declareParams? (signature : Option Signature) :
    Steady 0 (signature.forM declareParams) := by
  cases signature with
  | none => exact keeps_pure _
  | some signature => exact steady_declareParams signature

theorem sound_linkName {types : TypeTable} {names names' : Interner} {scratch : Nat} {name n : Name}
    {params : List TypeId} {variadic : Bool} (h : names.Sound)
    (hm : LinkName.make types names scratch name params variadic = .ok (n, names')) :
    names'.Sound ∧ names.Grows names' := by
  obtain ⟨d, text, -, -, hi⟩ := LinkName.exists_of_make hm
  obtain ⟨hs, -, hg⟩ := h.intern hi
  exact ⟨hs, hg⟩

theorem steady_declareFunction (stored : Name) (type : TypeId) (signature : Signature)
    (isNative : Bool) : Steady 0 (declareFunction stored type signature isNative) := by
  refine keeps_get_bind fun s => ?_
  refine Meets.bind (R := fun r t => t = s ∧ LinkName.make s.types s.names s.scratch stored
    signature.params signature.variadic = .ok r) (meets_ofHalting (fun _ hr => ⟨rfl, hr⟩)
      fun e _ h => ⟨h.refl 0, by cases e <;> simp [Stop.ofHalt]⟩) ?_
  rintro ⟨mangled, names⟩ t ⟨rfl, hm⟩
  have hnames (h : t.Sound) : t.Onto 0 { t with names } :=
    h.onto_names (sound_linkName h.names hm).1 (sound_linkName h.names hm).2 0
  refine Meets.bind (R := fun _ u => u = { t with names }) (meets_set rfl) ?_
  rintro _ _ rfl
  refine Meets.bind (R := fun key u => u = { t with names } ∧ key = ⟨stored, t.scope.depth⟩)
    ⟨rfl, rfl⟩ ?_
  rintro _ _ ⟨rfl, rfl⟩
  refine Meets.bind (R := fun r u => u = { t with names } ∧ ∃ o, FuncTable.declare t.symbols.funcs
    t.types ⟨stored, t.scope.depth⟩ o = .ok r) (meets_ofFault (fun _ hr => ⟨rfl, _, hr⟩)
      fun _ _ h => ⟨hnames h, by simp⟩) ?_
  rintro ⟨replaced, funcs⟩ _ ⟨rfl, o, hd⟩
  refine Meets.bind (R := fun _ u => u = { t with names, symbols := { t.symbols with funcs } })
    (meets_modify rfl) ?_
  rintro _ _ rfl
  refine meets_pure fun h => ?_
  obtain ⟨hs, hother, -⟩ := FuncTable.declare_ok h.symbols.funcs hd
  have hsymbols : Symbols.Sound { t.symbols with funcs } := { h.symbols with funcs := hs }
  refine (hnames h).trans ((hnames h).sound.onto_symbols hsymbols
    ⟨fun _ _ => rfl, fun key hk => hother key ?_, fun _ _ => rfl⟩ fun _ _ => rfl)
  rintro rfl
  exact hk rfl

theorem steady_declareType (name : Name)
    {add : TypeTable → Name → Except StorageError (TypeId × TypeTable)}
    (hadd : ∀ types stored id types', types.Sound → add types stored = .ok (id, types') →
      types'.Sound ∧ types.Grows types') : Steady 0 (declareType name add) := by
  refine (steady_declaredName name).bind fun stored => keeps_get_bind fun s => ?_
  refine Meets.bind (R := fun r t => t = s ∧ add s.types stored = .ok r)
    (meets_ofStorage (fun _ hr => ⟨rfl, hr⟩) fun _ _ h => ⟨h.refl 0, by simp⟩) ?_
  rintro ⟨type, types⟩ t ⟨rfl, ha⟩
  refine Meets.bind (R := fun key u => u = t ∧ key = ⟨stored, t.scope.depth⟩) ⟨rfl, rfl⟩ ?_
  rintro _ t ⟨rfl, rfl⟩
  refine Meets.bind (meets_set rfl) (R := fun _ u => u = { t with
    types, symbols := { t.symbols with
      types := (t.symbols.types.insert ⟨stored, t.scope.depth⟩ type).2 } }) ?_
  rintro _ _ rfl
  refine meets_pure fun h => ?_
  obtain ⟨ht, hg⟩ := hadd _ _ _ _ h.types ha
  obtain ⟨hs, hagree⟩ := h.symbols.insert_type stored t.scope.depth type
  have h₁ := h.onto_types ht hg 0
  exact h₁.trans (h₁.sound.onto_symbols hs hagree fun _ _ => rfl)

/-! ### Blocks -/

theorem steady_inScope (hp : Steady 0 p) : Steady 1 (inScope p) := by
  refine ⟨fun s => ?_⟩
  refine Meets.bind (R := fun _ t => t = { s with scope := s.scope.enter }) (meets_modify rfl) ?_
  rintro _ _ rfl
  refine meets_ensuring ((hp.meets _).imp (fun _ _ ho h => (ho h.enter).leave) ?_)
  exact fun _ _ ho h => ⟨(ho h.enter).1.leave, (ho h.enter).2⟩

theorem steady_returning (ret : TypeId) (hp : Steady k p) : Steady k (returning ret p) := by
  refine ⟨fun s => ?_⟩
  refine Meets.bind (R := fun _ t => t = { s with returns := ret :: s.returns })
    (meets_modify rfl) ?_
  rintro _ _ rfl
  refine meets_ensuring ((hp.meets _).imp (fun _ _ ho h => (ho (h.returning ret)).popReturn) ?_)
  exact fun _ _ ho h => ⟨(ho (h.returning ret)).1.popReturn, (ho (h.returning ret)).2⟩

/-- An outcome that is caught leaves the state as steady. -/
theorem steady_attempt (hp : Steady k p) : Steady k (attempt p) :=
  ⟨fun s => meets_attempt ((hp.meets s).imp (fun _ _ ho => ho) fun _ _ ho h => (ho h).1)⟩

/-- What is used counts from here to the end of the block. -/
theorem steady_pushUsing (target : Name) :
    Steady 0 (modify fun s => { s with scope := s.scope.pushUsing target }) :=
  keeps_modify fun s h =>
    { h.refl 0 with
      sound := { h with }
      scope := fun _ => ⟨rfl, [⟨target, s.scope.depth, false⟩], rfl, by simp⟩ }

/-- A namespace opens and closes without a change of depth. -/
theorem steady_inNamespace (name : Name) (hp : Steady k p) : Steady k (do
    modify fun s => { s with scope := s.scope.pushNamespace name }
    ensuring p fun s => { s with scope := s.scope.popNamespace.2 }) := by
  refine ⟨fun s => ?_⟩
  refine Meets.bind (R := fun _ t => t = { s with scope := s.scope.pushNamespace name })
    (meets_modify rfl) ?_
  rintro _ _ rfl
  refine meets_ensuring ((hp.meets _).imp (fun _ _ ho h => (ho (h.within name)).popNamespace) ?_)
  exact fun _ _ ho h => ⟨(ho (h.within name)).1.popNamespace, (ho (h.within name)).2⟩

/-! ### Recovery -/

theorem steady_skipToBoundary (limit : Nat) : Steady k (skipToBoundary limit) := by
  induction limit with
  | zero => exact keeps_pure _
  | succ limit ih =>
    refine steady_current.bind fun token => ?_
    dsimp only
    split
    · exact steady_advance.bind fun _ => keeps_pure _
    · split
      · exact steady_advance.bind fun _ => ih
      · exact keeps_pure _

theorem steady_synchronize (start : Span) : Steady k (synchronize start) := by
  refine steady_currentSpan.bind fun span => steady_atEnd.bind fun atEnd => ?_
  dsimp only
  split
  · exact steady_advance.bind fun _ => keeps_get.bind fun _ => steady_skipToBoundary _
  · exact keeps_get.bind fun _ => steady_skipToBoundary _

end Parse

end FrontEnd
