import FrontEnd.Proofs.Grammar.Reading
import FrontEnd.Proofs.Reading.Course
import FrontEnd.Proofs.Token.Identifiers
import FrontEnd.Proofs.Typing.ConstantTypes
import FrontEnd.Proofs.Typing.Furnished

/-!
What holds in the course of reading: every value that is bound belongs to a variable of exactly its
type, because no type but the basic ones goes by their texts.
-/

namespace FrontEnd

/-! ### Looking up -/

namespace VarTable

variable {vars vars' : VarTable} {name : Name} {depth i : Nat} {type : TypeId}

theorem resolve_congr (h : ∀ d ≤ depth, vars'.get? ⟨name, d⟩ = vars.get? ⟨name, d⟩) :
    VarTable.resolve vars' name depth = VarTable.resolve vars name depth := by
  induction depth with
  | zero => simp [VarTable.resolve, h 0 (Nat.le_refl 0)]
  | succ depth ih =>
    rw [VarTable.resolve, VarTable.resolve, h _ (Nat.le_refl _),
      ih fun d hd => h d (Nat.le_succ_of_le hd)]

theorem le_of_resolve (h : VarTable.resolve vars name depth = some (type, i)) : i ≤ depth := by
  induction depth with
  | zero =>
    obtain ⟨_, _, he⟩ := Option.map_eq_some_iff.1 h
    cases he
    exact Nat.le_refl 0
  | succ depth ih =>
    unfold VarTable.resolve at h
    split at h
    · cases h
      exact Nat.le_refl _
    · exact Nat.le_succ_of_le (ih h)

/-- Where values belong to variables, the innermost declaration of a name hides the values of the
others. -/
theorem binding_of_resolve {f : Folder}
    (hf : ∀ key v, f.bindingAt key = some v → ∃ type, vars.get? key = some type) {v : Value}
    (h : VarTable.resolve vars name depth = some (type, i)) (hv : f.bindingAt ⟨name, i⟩ = some v) :
    f.binding name depth = some v := by
  induction depth with
  | zero =>
    obtain ⟨_, _, he⟩ := Option.map_eq_some_iff.1 h
    cases he
    exact hv
  | succ depth ih =>
    unfold VarTable.resolve at h
    unfold Folder.binding
    split at h
    next =>
      cases h
      rw [hv]
      rfl
    next hnone =>
      have hunbound : f.bindingAt ⟨name, depth + 1⟩ = none := by
        refine Option.eq_none_iff_forall_ne_some.2 fun w hw => ?_
        obtain ⟨type, ht⟩ := hf _ w hw
        cases hnone.symm.trans ht
      rw [hunbound]
      exact ih h

end VarTable

namespace ParseState

open Parse

variable {o s t : ParseState} {k : Nat} {name stored text : Name} {type id : TypeId}
  {kind : TypeKind} {types : TypeTable} {names : Interner} {signature : Signature}
  {isConst : Bool} {value : Option Value}

/-- What is declared in blocks of its own does not matter for the names of constants. -/
theorem Onto.constants_eq (h : s.Onto 1 t) : t.constants = s.constants := by
  funext name
  have hvars : VarTable.resolve t.symbols.vars name s.scope.depth =
      VarTable.resolve s.symbols.vars name s.scope.depth :=
    VarTable.resolve_congr fun d hd => h.symbols.vars _ (Nat.lt_succ_of_le hd)
  unfold constants
  rw [h.depth, hvars]
  cases hr : VarTable.resolve s.symbols.vars name s.scope.depth with
  | none => rfl
  | some found =>
    have hle := VarTable.le_of_resolve hr
    dsimp only
    rw [h.bindings _ (Nat.lt_succ_of_le hle)]

/-- A state of a reading that came past `o`. -/
structure Reading (o s : ParseState) : Prop where
  sound : s.Sound
  text : ∃ text, s.window.Reads text
  basics : s.types.HoldsBasics s.names
  anchored : s.types.Anchored
  /-- From where names are cut off, nothing is known of the names of new types. -/
  plain : ¬s.window.Late → ∀ id d, s.types.desc id = .ok d → s.types.Plain s.names id
  named : ∀ key type, s.symbols.types.get? key = some type →
    ∃ d, s.types.desc type = .ok d ∧ d.text = key.name
  tracked : ∀ key v, s.folder.bindingAt key = some v →
    s.symbols.vars.get? key = some v.kind.type
  course : ∃ log, o.Course log s

namespace Reading

theorem binding_of_constants (h : o.Reading s) (hn : s.constants name = true) : ∃ v depth,
    VarTable.resolve s.symbols.vars name s.scope.depth = some (v.kind.type, depth) ∧
      s.folder.bindingAt ⟨name, depth⟩ = some v ∧
      s.folder.binding name s.scope.depth = some v := by
  obtain ⟨type, depth, v, hr, hv⟩ := constants_eq_true hn
  obtain rfl : v.kind.type = type :=
    Option.some.inj ((h.tracked _ v hv).symm.trans (VarTable.get?_of_resolve hr))
  exact ⟨v, depth, hr, hv,
    VarTable.binding_of_resolve (fun key w hw => ⟨_, h.tracked key w hw⟩) hr hv⟩

/-! ### Steps -/

theorem pass (h : o.Reading s) (ht : t.Sound) (hw : ∃ n, t.window = s.window.drop n)
    (hn : s.names.Grows t.names) (hq : s.SameTables t) : o.Reading t where
  sound := ht
  text := by
    obtain ⟨n, hn⟩ := hw
    exact h.text.imp fun text hr => hn ▸ hr.drop n
  basics := hq.types ▸ h.basics.grows (.refl _) hn
  anchored := hq.types ▸ h.anchored
  plain hlate id d hd := by
    obtain ⟨n, hw⟩ := hw
    obtain ⟨text, hr⟩ := h.text
    rw [hq.types] at hd ⊢
    exact (h.plain (fun hl => hlate (hw ▸ hl.drop hr n)) id d hd).mono (.refl _) hn
  named key type hk := by
    rw [hq.typeNames] at hk
    rw [hq.types]
    exact h.named key type hk
  tracked key v hv := by
    rw [hq.folder] at hv
    rw [hq.vars]
    exact h.tracked key v hv
  course := h.course.imp fun _ hc => hc.pass (hq.sameVariables hw)

theorem onto (h : o.Reading s) (ho : s.Onto k t) (hq : s.SameTables t) : o.Reading t :=
  h.pass ho.sound ho.window ho.names hq

/-- In another place of the program. -/
theorem move {scope : Scope} {returns : List TypeId} (h : o.Reading s)
    (hs : Sound { s with scope, returns }) : o.Reading { s with scope, returns } :=
  h.pass hs ⟨0, rfl⟩ (.refl _) ⟨rfl, rfl, rfl, rfl⟩

/-- A new type, with a name that is none of a basic type. -/
theorem addType (h : o.Reading s) (hs : Sound { s with types, names }) (hn : s.names.Grows names)
    (hg : s.types.Grows types) (hall : ∀ i d, types.desc i = .ok d →
      i = id ∧ d.kind = kind ∨ s.types.desc i = .ok d)
    (hk : ∀ b, kind ≠ .basic b) (hp : ¬s.window.Late → types.Plain names id) :
    o.Reading { s with types, names } where
  sound := hs
  text := h.text
  basics := h.basics.grows hg hn
  anchored i b hi := by
    obtain ⟨d, hd, hkind⟩ := TypeTable.desc_of_kind hi
    rcases hall i d hd with ⟨-, he⟩ | hd
    · exact absurd (he.symm.trans hkind) (hk b)
    · exact h.anchored i b (hkind ▸ TypeTable.kind_of_desc hd)
  plain hlate i d hd := by
    rcases hall i d hd with ⟨rfl, -⟩ | hd
    · exact hp hlate
    · exact (h.plain hlate i d hd).mono hg hn
  named key type hkey := (h.named key type hkey).imp fun d hd => ⟨hg _ _ hd.1, hd.2⟩
  tracked := h.tracked
  course := h.course.imp fun _ hc => hc.pass ⟨⟨0, rfl⟩, fun _ => rfl, fun _ => rfl⟩

/-- The name of a type is declared. -/
theorem insertType (h : o.Reading s) (hs : Sound { s with
      symbols := { s.symbols with types := (s.symbols.types.insert ⟨text, k⟩ type).2 } })
    (hd : s.types.desc type = .ok ⟨kind, text⟩) : o.Reading { s with
      symbols := { s.symbols with types := (s.symbols.types.insert ⟨text, k⟩ type).2 } } :=
  { h with
    sound := hs
    named := fun key found hkey => by
      rw [h.sound.symbols.types.get?_insert] at hkey
      split at hkey
      next he =>
        obtain rfl := Option.some.inj hkey
        exact ⟨_, hd, he ▸ rfl⟩
      next => exact h.named key found hkey
    course := h.course.imp fun _ hc => hc.pass ⟨⟨0, rfl⟩, fun _ => rfl, fun _ => rfl⟩ }

/-- A variable is declared, and bound to a value of its type if to any. -/
theorem declareVariable (h : o.Reading s)
    (hrun : Parse.declareVariable stored type isConst value s = .ok () t) (ht : t.Sound)
    (hp : ∀ v, value = some v → s.types.Plain s.names type) (hc : ∃ log, o.Course log t) :
    o.Reading t := by
  obtain ⟨f, bound, rfl, hf, hbound⟩ := (meets_declareVariable ..).of_ok hrun
  refine { h with sound := ht, tracked := fun key v hv => ?_, course := hc }
  change f.bindingAt key = some v at hv
  rw [hf] at hv
  rw [h.sound.symbols.vars.get?_insert]
  split at hv
  next hkey =>
    obtain ⟨hvalue, -, he⟩ := hbound v hv
    rw [if_pos hkey, (hp v hvalue).eq_type h.basics he]
  next hkey =>
    rw [if_neg hkey]
    exact h.tracked key v hv

theorem declareParams (h : o.Reading s)
    (hfresh : ∀ key, key.depth = s.scope.depth → s.folder.bindingAt key = none)
    (hrun : Parse.declareParams signature s = .ok () t) (ht : t.Sound) : o.Reading t := by
  have hcourse := h.course.imp fun log hc => hc.params hfresh hrun
  cases hrun
  refine { h with sound := ht, tracked := fun key v hv => ?_, course := ?_ }
  · have hdepth : key.depth ≠ s.scope.depth := fun hd => by
      cases (hfresh key hd).symm.trans hv
    refine ((h.sound.symbols.withParams s.scope.depth _).2.vars key hdepth).trans ?_
    exact h.tracked key v hv
  · obtain ⟨log, hc⟩ := hcourse
    exact ⟨_, hc⟩

/-- At the end of a block its declarations are dropped. -/
theorem leave (h : o.Reading s) (hs : (leaveScope s).Sound) : o.Reading (leaveScope s) := by
  have hleft := h.sound.symbols.get?_leaveDepth s.scope.depth
  refine { h with
    sound := hs
    named := fun key type hk => ?_
    tracked := fun key v hv => ?_
    course := h.course.imp fun _ hc => hc.leave }
  · change (s.symbols.leaveDepth s.scope.depth).types.get? key = some type at hk
    rw [(hleft key).2.2] at hk
    split at hk
    · cases hk
    · exact h.named key type hk
  · change (Folder.leaveScope _ _).bindingAt key = some v at hv
    rw [Folder.bindingAt_leaveScope] at hv
    change (s.symbols.leaveDepth s.scope.depth).vars.get? key = _
    rw [(hleft key).1]
    split at hv
    · cases hv
    · rename_i hdepth
      rw [if_neg hdepth]
      exact h.tracked key v hv

end Reading

end ParseState

end FrontEnd
