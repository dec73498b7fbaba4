import FrontEnd.Proofs.Grammar.Idle

/-!
The variables that are declared in the course of reading. A constant that is bound to a value is the
last one that was declared under its key, and its initializer folded to that value.
-/

namespace FrontEnd

/-- The declaration of a variable or a parameter. -/
structure Declared where
  key : ScopedKey
  isConst : Bool
  /-- What the initializer folded to. -/
  value : Option Value

/-- The named parameters of a function, the last one first. -/
def Signature.declared (signature : Signature) (depth : Nat) : List Declared :=
  ((signature.params.zip signature.paramNames).filter (·.2 ≠ .empty)).reverse.map
    fun (_, name) => ⟨⟨name, depth⟩, false, none⟩

namespace Parse

/-- The initializer of a variable, if there is one, is folded. -/
def foldInitializer : Option ExprId → Parse (Option Value)
  | some init => fold init
  | none => return none

/-- Behind the initializer of a variable and the semicolon, its stored name is known. -/
def finishInitializer (name : Name) (init : Option ExprId) (start : Span) :
    Parse (Name × Option Value × Span) := do
  let value ← foldInitializer init
  let _ ← expect .semicolon
  let span ← spanFrom start
  return (← declaredName name, value, span)

def storeVariable (name : Name) (type : TypeId) (init : Option ExprId) (isConst : Bool)
    (start : Span) : Parse (Name × Option Value × Span) := do
  let (stored, value, span) ← finishInitializer name init start
  declareVariable stored type isConst value
  return (stored, value, span)

theorem variableDecl_eq (name : Name) (declared : Option TypeId) (init : Option ExprId)
    (isConst : Bool) (start : Span) : variableDecl name declared init isConst start = (do
      let type ← variableType name (declared.getD .invalid) init isConst start
      let (stored, _, span) ← storeVariable name type init isConst start
      addStmt (.varDecl stored type init isConst) span) := by
  cases init <;> simp [variableDecl, storeVariable, finishInitializer, foldInitializer]

end Parse

namespace ParseState

open Parse

variable {s t u : ParseState} {log : List Declared} {key : ScopedKey} {v : Value}

/-- Further on in the text, with the same variables and the same values of constants. -/
structure SameVariables (s t : ParseState) : Prop where
  window : ∃ n, t.window = s.window.drop n
  vars : ∀ key, t.symbols.vars.get? key = s.symbols.vars.get? key
  bindings : ∀ key, t.folder.bindingAt key = s.folder.bindingAt key

theorem SameTables.sameVariables (h : s.SameTables t) (hw : ∃ n, t.window = s.window.drop n) :
    s.SameVariables t :=
  ⟨hw, fun _ => by rw [h.vars], fun _ => by rw [h.folder]⟩

/-- What was declared on the way from `s`, the last declaration first. -/
inductive Course (s : ParseState) : List Declared → ParseState → Prop
  | start : Course s [] s
  | pass {t u : ParseState} {log : List Declared} : Course s log t → t.SameVariables u →
    Course s log u
  | store {t u : ParseState} {log : List Declared} {name : Name} {type : TypeId}
    {init : Option ExprId} {isConst : Bool} {start : Span} {stored : Name} {value : Option Value}
    {span : Span} : Course s log t →
    storeVariable name type init isConst start t = .ok (stored, value, span) u →
    Course s (⟨⟨stored, u.scope.depth⟩, isConst, value⟩ :: log) u
  /-- Parameters are declared where nothing is bound yet in the current block. -/
  | params {t u : ParseState} {log : List Declared} {signature : Signature} : Course s log t →
    (∀ key, key.depth = t.scope.depth → t.folder.bindingAt key = none) →
    declareParams signature t = .ok () u → Course s (signature.declared t.scope.depth ++ log) u
  | leave {t : ParseState} {log : List Declared} : Course s log t → Course s log (leaveScope t)

/-- Folding changes the tree alone. -/
theorem fold_ok {id : ExprId} {value : Option Value} (h : fold id s = .ok value t) :
    t = { s with tree := t.tree } := by
  unfold fold at h
  split at h
  · split at h
    · cases h
      rfl
    · cases h
  · cases h
    rfl

theorem foldInitializer_ok {init : Option ExprId} {value : Option Value}
    (h : foldInitializer init s = .ok value t) : t = { s with tree := t.tree } := by
  cases init with
  | some id => exact fold_ok h
  | none =>
    cases h
    rfl

theorem finishInitializer_ok {name : Name} {init : Option ExprId} {start : Span}
    {r : Name × Option Value × Span} (h : finishInitializer name init start s = .ok r t) :
    t.folder = s.folder := by
  obtain ⟨_, u, hfold, h⟩ := bind_eq_ok h
  rw [foldInitializer_ok hfold] at h
  obtain ⟨_, v, hexpect, h⟩ := bind_eq_ok h
  obtain ⟨_, w, hspan, h⟩ := bind_eq_ok h
  obtain ⟨_, x, hname, h⟩ := bind_eq_ok h
  cases h
  exact ((((idle_expect _).still.ok hexpect).trans ((idle_spanFrom _).still.ok hspan)).trans
    ((idle_declaredName _).still.ok hname)).folder

/-- A declaration binds its own key at most, and only to the value of a constant. -/
theorem bindingAt_storeVariable {name stored : Name} {type : TypeId} {init : Option ExprId}
    {isConst : Bool} {start span : Span} {value : Option Value}
    (h : storeVariable name type init isConst start s = .ok (stored, value, span) u)
    (hv : u.folder.bindingAt key = some v) :
    if key = ⟨stored, u.scope.depth⟩ then isConst = true ∧ value = some v
    else s.folder.bindingAt key = some v := by
  obtain ⟨⟨_, _, _⟩, t, hfinish, h⟩ := bind_eq_ok h
  obtain ⟨_, _, hdeclare, h⟩ := bind_eq_ok h
  cases h
  have hsame := finishInitializer_ok hfinish
  obtain ⟨f, bound, rfl, hf, hbound⟩ := (meets_declareVariable ..).of_ok hdeclare
  rw [hf] at hv
  split at hv
  next hkey =>
    rw [if_pos hkey]
    exact ⟨(hbound v hv).2.1, (hbound v hv).1⟩
  next hkey =>
    rw [if_neg hkey]
    rw [hsame] at hv
    exact hv

/-- What a key is bound to is the value of the constant that was declared last under it. -/
theorem Course.latest (h : s.Course log t) (hs : ∀ key, s.folder.bindingAt key = none)
    (hv : t.folder.bindingAt key = some v) :
    ∃ d, log.find? (·.key = key) = some d ∧ d.isConst = true ∧ d.value = some v := by
  induction h with
  | start => simp [hs] at hv
  | pass _ hsame ih => exact ih ((hsame.bindings key).symm.trans hv)
  | store _ hrun ih =>
    have hbinding := bindingAt_storeVariable hrun hv
    rw [List.find?_cons]
    split at hbinding
    next hkey =>
      simp only [hkey, decide_true]
      exact ⟨_, rfl, hbinding⟩
    next hkey =>
      simp only [Ne.symm hkey, decide_false]
      exact ih hbinding
  | @params t _ _ signature _ hfresh hrun ih =>
    cases hrun
    have hdepth : key.depth ≠ t.scope.depth := fun hdepth => by
      cases (hfresh key hdepth).symm.trans hv
    have hnone : (signature.declared t.scope.depth).find? (·.key = key) = none := by
      refine List.find?_eq_none.2 fun d hd => ?_
      obtain ⟨⟨type, name⟩, -, rfl⟩ := List.mem_map.1 hd
      simp only [decide_eq_true_eq]
      rintro rfl
      exact hdepth rfl
    obtain ⟨d, hfind, hd⟩ := ih hv
    exact ⟨d, by rw [List.find?_append, hnone]; exact hfind, hd⟩
  | leave _ ih =>
    change (Folder.leaveScope _ _).bindingAt key = some v at hv
    rw [Folder.bindingAt_leaveScope] at hv
    split at hv
    next => cases hv
    next => exact ih hv

end ParseState

end FrontEnd
