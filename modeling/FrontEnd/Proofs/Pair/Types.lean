import FrontEnd.Proofs.Pair.Names
import FrontEnd.Proofs.Pair.Pools
import FrontEnd.Proofs.Typing.TypingGrowth
import FrontEnd.Typing.Check

/-!
What is looked up about names and types in two runs that are in step: the same, whatever room is
left.
-/

namespace FrontEnd

open Tie

variable {D : Prop} {t u : TypeTable} {a b : Interner} {scratch scratch' : Nat}

/-! ### Types -/

namespace TypeTable

/-- The tables hold the same types, and give the next one the same handle if both have room. -/
abbrev Matches (D : Prop) (t u : TypeTable) : Prop := t.types.Matches D u.types

theorem Matches.eq (h : t.Matches D u) (hD : D) : t = u := congrArg mk (Pool.Matches.eq h hD)

theorem Matches.desc_eq (h : t.Matches D u) : t.desc = u.desc :=
  funext fun id => Pool.Matches.read_eq h id.slot

section

variable (h : t.desc = u.desc)

include h

theorem kind_eq : t.kind = u.kind := by
  funext id
  rw [kind, kind, h]

theorem equal_eq : t.equal = u.equal := by
  funext a b
  rw [equal, equal, h]

theorem rank?_eq : t.rank? = u.rank? := by
  funext id
  rw [rank?, rank?, kind_eq h]

theorem isNumeric_eq : t.isNumeric = u.isNumeric := by
  funext id
  rw [isNumeric, isNumeric, rank?_eq h]

theorem isIntegral_eq : t.isIntegral = u.isIntegral := by
  funext id
  rw [isIntegral, isIntegral, rank?_eq h]

theorem compatible_eq : t.compatible = u.compatible := by
  funext a b
  rw [compatible, compatible, equal_eq h, rank?_eq h]

theorem wider_eq_of_desc : t.wider = u.wider := by
  funext a b
  rw [wider, wider, rank?_eq h]

theorem function?_eq : t.function? = u.function? := by
  funext id
  rw [function?, function?, kind_eq h]

theorem text_eq (hn : ∀ n, a.lookup n = b.lookup n) : t.text a = u.text b := by
  funext id
  simp only [text, h, hn]

theorem describe_eq (hn : ∀ n, a.lookup n = b.lookup n) : t.describe a = u.describe b := by
  funext id
  simp only [describe, h, hn]

end

theorem Matches.add (h : t.Matches D u) (kind : TypeKind) (text : Name) :
    Answers D (fun x y => x.1 = y.1 ∧ x.2.Matches D y.2) (t.add kind text) (u.add kind text) := by
  refine (Pool.Matches.alloc h ⟨kind, text⟩).bind ?_
  rintro ⟨i, p⟩ ⟨j, q⟩ ⟨hij, hpq⟩
  exact .ok ⟨congrArg TypeId.mk hij, hpq⟩

theorem Matches.functionText (h : t.Matches D u) (hn : a.Matches D scratch b scratch')
    (signature : Signature) :
    Answers D Eq (t.functionText a scratch signature) (u.functionText b scratch' signature) := by
  unfold TypeTable.functionText
  rw [text_eq h.desc_eq hn.lookup_eq]
  refine (Answers.same _).bind ?_
  rintro params _ rfl
  refine (Answers.same _).bind ?_
  rintro ret _ rfl
  refine (Answers.of (fun hD => by rw [hn.scratch_eq hD]) fun text text' hx hy _ => ?_).liftCause
  exact ((Draft.agree_withReserve _ _).foldl _).finish hx hy

end TypeTable

/-! ### Link names -/

namespace LinkName

/-- Drafts to which the same pieces are added in turn. -/
theorem agree_foldlM {f : Draft → TypeId → Except Fault Draft} {params : List TypeId}
    {d e d' e' : Draft} (hf : ∀ param d e d' e', d.Agree e → f d param = .ok d' →
      f e param = .ok e' → d'.Agree e') (h : d.Agree e) (hd : params.foldlM f d = .ok d')
    (he : params.foldlM f e = .ok e') : d'.Agree e' := by
  induction params generalizing d e with
  | nil =>
    cases hd
    cases he
    exact h
  | cons param rest ih =>
    rw [List.foldlM_cons] at hd he
    obtain ⟨d₁, hd₁, hd⟩ := bind_ok hd
    obtain ⟨e₁, he₁, he⟩ := bind_ok he
    exact ih (hf param d e d₁ e₁ h hd₁ he₁) hd he

/-- Pieces of a link name that is composed twice. -/
theorem agree_draft {name : Name} {params : List TypeId} {variadic : Bool} {d e : Draft}
    (hd : draft t a scratch name params variadic = .ok d)
    (he : draft t a scratch' name params variadic = .ok e) : d.Agree e := by
  obtain ⟨d₁, hd₁, hd⟩ := bind_ok hd
  obtain ⟨e₁, he₁, he⟩ := bind_ok he
  have hparams : d₁.Agree e₁ := by
    refine agree_foldlM (fun param d e d' e' h hd he => ?_)
      ((Draft.agree_withReserve scratch scratch').puts _) hd₁ he₁
    intro hc hc'
    split at hd
    · split at he
      · obtain ⟨text, htext, hd⟩ := bind_ok hd
        obtain ⟨text', htext', he⟩ := bind_ok he
        rw [htext] at htext'
        cases htext'
        cases hd
        cases he
        exact h.put text hc hc'
      next hfalse =>
        cases he
        exact absurd hc' hfalse
    next hfalse =>
      cases hd
      exact absurd hc hfalse
  intro hc hc'
  cases hd
  cases he
  cases variadic with
  | false => exact hparams hc hc'
  | true =>
    cases hd₁ : d₁.complete with
    | false => simp [hd₁] at hc
    | true =>
      cases he₁ : e₁.complete with
      | false => simp [he₁] at hc'
      | true =>
        simp only [hd₁, he₁, Bool.and_self, if_true] at hc hc' ⊢
        exact hparams.put "_va" hc hc'

theorem make_answers (h : t.Matches D u) (hn : a.Matches D scratch b scratch') (name : Name)
    (params : List TypeId) (variadic : Bool) :
    Answers D (fun x y => x.1 = y.1 ∧ x.2.Matches D scratch y.2 scratch')
      (make t a scratch name params variadic) (make u b scratch' name params variadic) := by
  have hdraft :
      draft u b scratch' name params variadic = draft t a scratch' name params variadic := by
    unfold draft
    rw [TypeTable.text_eq h.desc_eq hn.lookup_eq, hn.lookup_eq]
  have hlift {x : Except Fault Draft} {d : Draft}
      (hx : Halt.liftFault (ε := StorageError) x = .ok d) :
      x = .ok d := by
    cases x <;> cases hx
    rfl
  unfold make
  rw [hdraft]
  refine Answers.bind (R := fun d e => d.Agree e ∧ (D → d = e)) ?_ fun d e hde =>
    (hn.finish_intern hde.1 hde.2).liftCause
  exact .of (fun hD => by rw [hn.scratch_eq hD]) fun d e hd he heq =>
    ⟨agree_draft (hlift hd) (hlift he), heq⟩

end LinkName

/-! ### Scopes -/

/-- Lookups in both environments give the same. -/
structure Env.Matches (v w : Env) : Prop where
  desc : v.types.desc = w.types.desc
  lookup : ∀ n, v.names.lookup n = w.names.lookup n
  find? : ∀ outer name, Qualified.find? v.names v.scratch outer name =
    Qualified.find? w.names w.scratch outer name
  symbols : v.symbols = w.symbols
  scope : v.scope = w.scope
  lines : v.lines = w.lines

namespace Env.Matches

variable {v w : Env} (h : v.Matches w)

include h

theorem candidates_eq (name : Name) : v.candidates name = w.candidates name := by
  simp only [candidates, h.scope, h.find?]

theorem keys_eq (name : Name) : v.keys name = w.keys name := by
  rw [keys, keys, h.candidates_eq, h.scope]

theorem resolveVar_eq : v.resolveVar = w.resolveVar := by
  funext name
  rw [resolveVar, resolveVar, h.candidates_eq, h.symbols, h.scope]

theorem resolveType_eq : v.resolveType = w.resolveType := by
  funext name
  rw [resolveType, resolveType, h.keys_eq, h.symbols]

theorem functionDeclared_eq : v.functionDeclared = w.functionDeclared := by
  funext name
  rw [functionDeclared, functionDeclared, h.keys_eq, h.symbols]

theorem accepts_eq (strict : Bool) (o : Overload) (args : List TypeId) :
    o.accepts v.types strict args = o.accepts w.types strict args := by
  rw [Overload.accepts, Overload.accepts, TypeTable.equal_eq h.desc, TypeTable.compatible_eq h.desc]

theorem resolveCall_eq : v.resolveCall = w.resolveCall := by
  funext name args
  have hbest (strict : Bool) (visible : List (Overload × Nat)) :
      v.best args strict visible = w.best args strict visible := by
    simp only [best, h.accepts_eq]
  have hvisible : v.visible name = w.visible name := by rw [visible, visible, h.keys_eq, h.symbols]
  simp only [resolveCall, hbest, hvisible]

end Env.Matches

end FrontEnd
