import FrontEnd.Proofs.Constant.FoldSteps
import FrontEnd.Proofs.Symbol.Declarations
import FrontEnd.Proofs.Types.BasicTypes

/-!
The variables in sight at some place of a program, block by block, and how the tables of a run
agree with them.
-/

namespace FrontEnd

/-- A declared variable, and its value if it is a constant that has one. -/
structure Decl where
  name : Name
  type : TypeId
  value : Option Value
  fits : ∀ v, value = some v → v.kind.type = type

/-- The variables declared in each open block: the innermost block first, and in every block the
last declaration first. -/
abbrev Sight := List (List Decl)

namespace Sight

variable {Γ : Sight} {vars vars' : VarTable} {f f' : Folder} {name : Name} {depth : Nat}
  {ds block : List Decl} {outer : Sight} {d : Decl} {v : Value}

/-- The last declaration of a name in the innermost block that has one. A name that is declared
so comes before all qualified ones. -/
def find? (Γ : Sight) (name : Name) : Option Decl :=
  Γ.findSome? fun block => block.find? (·.name == name)

/-- The value of the constant that a name stands for. -/
def constant? (Γ : Sight) (name : Name) : Option Value := (Γ.find? name).bind Decl.value

/-- More declarations in the innermost block, the last one first. -/
def extend (ds : List Decl) : Sight → Sight
  | block :: outer => (ds ++ block) :: outer
  | [] => [ds]

/-- Declarations of the named parameters of a function. -/
def parameters (signature : Signature) : List Decl :=
  (signature.params.zip signature.paramNames).foldl
    (fun ds (type, name) => if name = .empty then ds else ⟨name, type, none, nofun⟩ :: ds) []

theorem eq_extend_nil (h : Γ ≠ []) : Γ = extend [] Γ := by
  obtain ⟨block, outer, rfl⟩ := List.exists_cons_of_ne_nil h
  rfl

theorem extend_append (ds' : List Decl) (h : Γ ≠ []) :
    extend (ds' ++ ds) Γ = extend ds' (extend ds Γ) := by
  cases Γ with
  | nil => exact absurd rfl h
  | cons block outer => simp [extend]

theorem extend_ne_nil : extend ds Γ ≠ [] := by cases Γ <;> exact List.cons_ne_nil _ _

theorem find?_cons : find? (block :: outer) name =
    (block.find? (·.name == name)).or (outer.find? name) := by
  simp only [find?, List.findSome?_cons]
  cases block.find? (·.name == name) <;> rfl

/-- The tables hold what is declared in these blocks, and folding knows its values. -/
def Agrees (vars : VarTable) (f : Folder) : Sight → Prop
  | [] => True
  | block :: outer =>
    (∀ name, vars.get? ⟨name, outer.length⟩ = (block.find? (·.name == name)).map Decl.type ∧
      f.bindingAt ⟨name, outer.length⟩ = (block.find? (·.name == name)).bind Decl.value) ∧
    Agrees vars f outer

theorem Agrees.congr (h : Agrees vars f Γ)
    (hv : ∀ key : ScopedKey, key.depth < Γ.length → vars'.get? key = vars.get? key)
    (hf : ∀ key : ScopedKey, key.depth < Γ.length → f'.bindingAt key = f.bindingAt key) :
    Agrees vars' f' Γ := by
  induction Γ with
  | nil => trivial
  | cons block outer ih =>
    refine ⟨fun name => ?_, ih h.2 (fun key hk => hv key (Nat.lt_succ_of_lt hk))
      fun key hk => hf key (Nat.lt_succ_of_lt hk)⟩
    rw [hv _ (Nat.lt_succ_self _), hf _ (Nat.lt_succ_self _)]
    exact h.1 name

/-- A block in which nothing is declared yet. -/
theorem Agrees.enter (h : Agrees vars f Γ)
    (hv : ∀ name, vars.get? ⟨name, Γ.length⟩ = none)
    (hf : ∀ name, f.bindingAt ⟨name, Γ.length⟩ = none) : Agrees vars f ([] :: Γ) :=
  ⟨fun name => ⟨hv name, hf name⟩, h⟩

/-- One more declaration in the innermost block. -/
theorem Agrees.declare (h : Agrees vars f (block :: outer)) (d : Decl)
    (hv : ∀ key, vars'.get? key =
      if key = ⟨d.name, outer.length⟩ then some d.type else vars.get? key)
    (hf : ∀ key, f'.bindingAt key =
      if key = ⟨d.name, outer.length⟩ then d.value else f.bindingAt key) :
    Agrees vars' f' ((d :: block) :: outer) := by
  refine ⟨fun name => ?_, h.2.congr (fun key hk => ?_) fun key hk => ?_⟩
  · rw [hv, hf, List.find?_cons]
    by_cases he : name = d.name
    · subst he
      simp
    · have hkey : (⟨name, outer.length⟩ : ScopedKey) ≠ ⟨d.name, outer.length⟩ := by simp [he]
      have hname : (d.name == name) = false := by simpa using fun he' => he he'.symm
      simp only [hkey, if_false, hname]
      exact h.1 name
  · rw [hv, if_neg]
    rintro rfl
    exact Nat.lt_irrefl _ hk
  · rw [hf, if_neg]
    rintro rfl
    exact Nat.lt_irrefl _ hk

/-- The parameters of a function are declared where no name has a value. -/
theorem Agrees.parameters (params : List (TypeId × Name)) (h : Agrees vars f (block :: outer))
    (hs : vars.Sound) (hf : ∀ name, f.bindingAt ⟨name, outer.length⟩ = none) :
    Agrees (vars.withParams outer.length params) f
      (params.foldl (fun ds (type, name) =>
        if name = .empty then ds else ⟨name, type, none, nofun⟩ :: ds) block :: outer) := by
  induction params generalizing vars block with
  | nil => exact h
  | cons param params ih =>
    obtain ⟨type, name⟩ := param
    rw [VarTable.withParams_cons, List.foldl_cons]
    by_cases hname : name = .empty
    · simp only [hname, if_true]
      exact ih h hs
    · simp only [hname, if_false]
      refine ih (h.declare ⟨name, type, none, nofun⟩ (hs.get?_insert _ _) fun key => ?_)
        (hs.insert _ _).1
      split
      next he => rw [he, hf]
      next => rfl

/-- Looking a variable up finds its declaration. -/
theorem Agrees.resolve (h : Agrees vars f Γ) (hd : Γ.length = depth + 1) (name : Name) :
    match VarTable.resolve vars name depth with
    | some (type, i) => ∃ d, Γ.find? name = some d ∧ d.type = type ∧
        f.bindingAt ⟨name, i⟩ = d.value
    | none => Γ.find? name = none := by
  induction Γ generalizing depth with
  | nil => cases hd
  | cons block outer ih =>
    obtain rfl : outer.length = depth := by simpa using hd
    obtain ⟨hvar, hvalue⟩ := h.1 name
    rw [find?_cons]
    cases hb : block.find? (·.name == name) with
    | some d =>
      rw [hb, Option.map_some] at hvar
      rw [hb, Option.bind_some] at hvalue
      have hres : VarTable.resolve vars name outer.length = some (d.type, outer.length) := by
        cases hl : outer.length with
        | zero =>
          rw [hl] at hvar
          simp [VarTable.resolve, hvar]
        | succ n =>
          rw [hl] at hvar
          simp [VarTable.resolve, hvar]
      rw [hres]
      exact ⟨d, rfl, rfl, hvalue⟩
    | none =>
      rw [hb, Option.map_none] at hvar
      rw [Option.none_or]
      cases hl : outer.length with
      | zero =>
        rw [hl] at hvar
        obtain rfl := List.eq_nil_of_length_eq_zero hl
        simp [VarTable.resolve, hvar, find?]
      | succ n =>
        rw [hl] at hvar
        simp only [VarTable.resolve, hvar]
        exact ih h.2 hl

/-- Folding finds the value of every constant in sight. -/
theorem Agrees.binding (h : Agrees vars f Γ) (hd : Γ.length = depth + 1)
    (hc : Γ.constant? name = some v) : f.binding name depth = some v := by
  induction Γ generalizing depth with
  | nil => cases hd
  | cons block outer ih =>
    obtain rfl : outer.length = depth := by simpa using hd
    obtain ⟨-, hvalue⟩ := h.1 name
    rw [constant?, find?_cons] at hc
    cases hb : block.find? (·.name == name) with
    | some d =>
      rw [hb] at hc hvalue
      rw [Option.some_or] at hc
      cases hl : outer.length with
      | zero =>
        rw [hl] at hvalue
        exact hvalue.trans hc
      | succ n =>
        rw [hl] at hvalue
        rw [Folder.binding, hvalue.trans hc]
        rfl
    | none =>
      rw [hb] at hc hvalue
      rw [Option.none_or] at hc
      cases hl : outer.length with
      | zero =>
        obtain rfl := List.eq_nil_of_length_eq_zero hl
        cases hc
      | succ n =>
        rw [hl] at hvalue
        rw [Folder.binding, hvalue]
        exact ih h.2 hl hc

end Sight

end FrontEnd
