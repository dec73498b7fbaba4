import FrontEnd.Proofs.Program.Runs
import FrontEnd.Proofs.Program.Statements

/-!
Steps of two runs that find types and add them, and that declare types, functions and variables.
-/

namespace FrontEnd

namespace Pass

open Parse Link

variable {P : Pass} {s₁ s₂ : ParseState} {es : List Entry} {types : TypeTable} {names : Interner}
  {symbols : Symbols} {signature : Signature} {type : TypeId} {name : Name}

theorem Base.knows_invalid (h : P.Base s₁ s₂) (hpos : 0 < s₁.reports.reports.size) :
    P.link.knows .invalid s₁ := by
  obtain ⟨name, hd, -⟩ := h.furnished.basics .invalid
  exact ⟨⟨⟨_, hd⟩, fun hq => absurd hq (not_quiet hpos)⟩, h.furnished.basics.plain .invalid⟩

/-- More types and names, and other symbols with the same variables and functions. -/
theorem rel_tables (h : P.link.rel es s₁ s₂) (ht : s₁.types.Grows types)
    (hn : s₁.names.Grows names)
    (hfur : symbols.Furnished types names s₁.window.Late (P.Quiet { s₁ with types }))
    (hv : symbols.vars = s₁.symbols.vars) (hf : symbols.funcs = s₁.symbols.funcs) :
    P.link.rel es { s₁ with types, names, symbols } { s₂ with types, names, symbols } := by
  obtain ⟨hb, Γ, os, bs, cs, hst⟩ := h
  have hquiet (hq : P.Quiet { s₁ with types }) : P.Quiet s₁ := hq.of_later ht (Nat.le_refl _)
  have hleads : (P.view s₁ os).Leads (P.view { s₁ with types, names, symbols } os) :=
    ⟨ht, hn, hquiet, List.Subset.refl _⟩
  refine ⟨⟨{ hb.same with types := rfl, names := rfl, symbols := rfl }, hb.first, hb.second,
    hb.window, hb.named₁.grows hn fun _ _ => id,
    hb.named₂.grows (hb.same.names ▸ hn) fun _ _ => id, hfur,
    fun type hmem => (hb.returns type hmem).imp fun _ hd => ht _ _ hd⟩, Γ, os, bs, cs, hst.left,
    hst.right, hleads.pieces hst.pieces, fun hq => ?_, fun hq => ?_,
    fun hq => hst.accounted (hquiet hq), fun hq => hst.counts (hquiet hq),
    fun hq => hst.returns (hquiet hq)⟩
  · show Sight.Agrees symbols.vars s₂.folder Γ ∧ _
    rw [hv, hb.same.symbols]
    exact hst.sight (hquiet hq)
  · show ∀ key, ∀ o ∈ FuncTable.overloads symbols.funcs key, o ∈ os
    rw [hf]
    exact hst.known (hquiet hq)

/-! ### Types by name -/

theorem firm_namedType (h : P.link.Rel es s₁ s₂) :
    P.link.Firm es namedType namedType s₁ s₂ fun a b t₁ t₂ =>
      a = b ∧ P.link.rel es t₁ t₂ ∧ P.link.knows a t₁ := by
  obtain ⟨hbase, -⟩ := h.rel
  refine (firm_expectName h).bind ?_
  rintro ⟨name, span⟩ _ t₁ t₂ ⟨rfl, ht, -, hhas⟩
  refine firm_get_bind ?_
  rw [← ht.rel.same.env]
  cases hr : t₁.env.resolveType name with
  | some type =>
    refine firm_pure ⟨rfl, ht.rel.rel, ?_⟩
    obtain ⟨_, _, ho, window, names, reports, rfl⟩ := ht
    have hfur : s₁.symbols.Furnished s₁.types names s₁.window.Late
        (P.Quiet (s₁.glide window names reports)) :=
      hbase.furnished.mono ho.names id fun hq => hq.of_onto ho
    refine Env.knows_resolveType (s₁.glide window names reports).env hfur ho.sound.names
      (fun hlate => ?_) hr
    rw [← hlate.lexeme]
    exact hhas
  | none =>
    refine (firm_quote ht.rel.same name).bind ?_
    rintro quoted _ _ _ ⟨rfl, rfl, rfl⟩
    refine (firm_report ht.rel (by decide) ..).bind ?_
    rintro _ _ u₁ u₂ ⟨hu, hpos⟩
    exact firm_pure ⟨rfl, hu.rel.rel, hu.rel.rel.1.knows_invalid hpos⟩

/-! ### Function types -/

theorem knows_signature (h : P.link.Rel es s₁ s₂)
    (hs : s₁.types.function? type = .ok (some signature)) : P.link.Knows signature s₁ :=
  h.rel.1.furnished.signature type signature (TypeTable.kind_of_function? hs)

theorem firm_addFunction (h : P.link.Rel es s₁ s₂) (hk : P.link.Knows signature s₁) :
    P.link.Firm es (addFunction signature) (addFunction signature) s₁ s₂ fun a b t₁ t₂ =>
      a = b ∧ P.link.rel es t₁ t₂ ∧ P.link.knows a t₁ := by
  have hfur := h.rel.1.furnished
  have hsame : TypeTable.addFunction s₂.scratch signature (s₂.types, s₂.names) =
      TypeTable.addFunction s₁.scratch signature (s₁.types, s₁.names) := by
    rw [h.same.scratch, h.same.types, h.same.names]
  have hout := addFunction_outcome h.sound₁.types h.sound₁.names s₁.scratch signature
  cases hr : TypeTable.addFunction s₁.scratch signature (s₁.types, s₁.names) with
  | ok id t =>
    obtain ⟨types, names⟩ := t
    obtain ⟨-, ht, -, hn, ⟨text, full, hd, hhas, hfull⟩, hall⟩ := hout.of_ok hr
    have hplain : types.Plain names id := ⟨_, full, hd, hhas, fun k he =>
      absurd he (TypeTable.functionText_ne hfull k.basic)⟩
    have hquiet (hq : P.Quiet { s₁ with types }) : P.Quiet s₁ := hq.of_later ht (Nat.le_refl _)
    obtain ⟨hne, hfur'⟩ := hfur.add hn ht hd hall nofun (fun _ => hplain) hquiet
      (fun _ he => TypeKind.function.inj he ▸ hk) nofun
    have h₁ : addFunction signature s₁ = .ok id { s₁ with types, names } := by
      simp only [addFunction, hr]
    have h₂ : addFunction signature s₂ = .ok id { s₂ with types, names } := by
      simp only [addFunction, hsame, hr]
    refine .ok h₁ h₂ ⟨rfl, ?_, ⟨⟨_, hd⟩, fun _ => hne⟩, hplain⟩
    have hrel := rel_tables h.rel ht hn hfur' rfl rfl
    simpa only [h.same.symbols] using hrel
  | error e t =>
    obtain ⟨types, names⟩ := t
    obtain ⟨-, -, -, hfault⟩ := hout.of_error hr
    have h₁ : addFunction signature s₁ = .error (.ofHalt e) { s₁ with types, names } := by
      simp only [addFunction, hr]
    have h₂ : addFunction signature s₂ = .error (.ofHalt e) { s₂ with types, names } := by
      simp only [addFunction, hsame, hr]
    cases e with
    | cause error => exact .first h₁ (Moves.owns h.rel).1
    | fault fault =>
      refine .fault h₁ h₂ (faults_functionText (fun type hmem => ?_) ?_ (hfault fault rfl))
      · exact Moves.known (hk.1 type hmem)
      · exact Moves.known hk.2

end Pass

namespace Pass

open Parse Link Entry

variable {P : Pass} {s₁ s₂ : ParseState} {es : List Entry} {Γ : Sight} {os : List Overload}
  {bs cs : List Branch} {stored name : Name} {type : TypeId} {signature : Signature}
  {isConst isNative : Bool} {w : Window}

theorem in_of_sees (h : P.link.Sees w) : w.In P.text := by
  obtain ⟨es, s₁, s₂, h, rfl⟩ := h
  exact h.rel.1.window

/-! ### Types -/

/-- A new type that goes by the name of a declaration. -/
theorem firm_declareType (kind : Name → TypeKind)
    {add : TypeTable → Name → Except StorageError (TypeId × TypeTable)}
    (h : P.link.Rel es s₁ s₂) (hn : P.link.Called false name s₁)
    (hadd : ∀ types stored, add types stored = types.add (kind stored) stored)
    (hbasic : ∀ stored b, kind stored ≠ .basic b)
    (hfunction : ∀ stored signature, kind stored ≠ .function signature)
    (hfields : ∀ stored name fields, kind stored = .struct name fields →
      ∀ field ∈ fields, P.link.knows field.type s₁) :
    P.link.Firm es (declareType name add) (declareType name add) s₁ s₂ fun a b t₁ t₂ =>
      a = b ∧ P.link.rel es t₁ t₂ := by
  obtain ⟨a, ⟨hsees, hident, -, n, hw⟩, hhas⟩ := hn
  have hreads := (in_of_sees hsees).reads
  refine (firm_declaredName h hhas).bind ?_
  rintro stored _ t₁ t₂ ⟨rfl, ht, text, hstored, htext⟩
  refine firm_get_bind ?_
  rw [← ht.rel.same.types, hadd]
  refine (firm_ofStorage ht.rel _).bind ?_
  rintro ⟨type, types⟩ _ _ _ ⟨hnew, rfl, rfl, rfl⟩
  obtain ⟨-, hd, hg, hall⟩ := ht.rel.sound₁.types.add hnew
  -- A text of an identifier is none of a basic type, unless it was cut off.
  have hplain (hlate : ¬t₁.window.Late) : types.Plain t₁.names type := by
    refine ⟨_, text, hd, hstored, fun k he => ?_⟩
    rcases htext with rfl | ⟨outer, rfl⟩
    · refine absurd ?_ hlate
      rw [ht.window, hw]
      exact (hreads.not_typeName hident k he).drop hreads.bump n
    · exact absurd he (BasicType.text_ne_qualified _ _ _)
  have hfur := ht.rel.rel.1.furnished
  have hquiet (hq : P.Quiet { t₁ with types }) : P.Quiet t₁ := hq.of_later hg (Nat.le_refl _)
  obtain ⟨hne, hfur'⟩ := hfur.add (.refl _) hg hd
    (fun i d hi => (hall i d hi).imp_left fun ⟨he, hd⟩ => ⟨he, hd ▸ rfl⟩) (hbasic stored) hplain
    hquiet (fun signature he => absurd he (hfunction stored signature))
    fun name fields he field hmem => Moves.knows (hfields stored name fields he field hmem)
      ht.onto.types ht.onto.names ht.onto.reports
  have hrel := rel_tables ht.rel.rel hg (.refl _)
    (hfur'.insert_type ht.rel.sound₁.symbols hne hd t₁.scope.depth) rfl rfl
  refine .ok rfl rfl ⟨rfl, ?_⟩
  simpa only [ht.rel.same.symbols, ht.rel.same.names, ht.rel.same.scope] using hrel

/-! ### Variables -/

/-- A variable is declared, and its name is bound to its value or to none. -/
theorem declareVariable_eq (stored : Name) (isConst : Bool) (value : Option Value) {s : ParseState}
    (hlive : ∃ d, s.types.desc type = .ok d) (hb : s.types.HoldsBasics s.names) : ∃ f bound,
      declareVariable stored type isConst value s = .ok () { s with
        symbols := { s.symbols with
          vars := (s.symbols.vars.insert ⟨stored, s.scope.depth⟩ type).2 }
        folder := f } ∧
      (∀ key, f.bindingAt key =
        if key = ⟨stored, s.scope.depth⟩ then bound else s.folder.bindingAt key) ∧
      ∀ v, bound = some v →
        value = some v ∧ isConst = true ∧ s.types.equal v.kind.type type = .ok true := by
  have hmeets := meets_declareVariable stored type isConst value s
  cases hrun : declareVariable stored type isConst value s with
  | ok _ t =>
    obtain ⟨f, bound, rfl, hf, hbound⟩ := hmeets.of_ok hrun
    exact ⟨f, bound, rfl, hf, hbound⟩
  | error e t =>
    obtain ⟨-, v, fault, -, he⟩ := hmeets.of_error hrun
    obtain ⟨d, hd⟩ := hlive
    obtain ⟨name, hk, -⟩ := hb v.kind.basic
    rw [v.kind.id_basic] at hk
    have hnone : False :=
      faults_equal (E := fun _ => False) (faults_of_ok hk) (faults_of_ok hd) _ he
    exact hnone.elim

/-- What is bound to a value is declared after `const` or qualified. -/
theorem Named.declare {s : ParseState} {f : Folder} {bound : Option Value}
    (h : P.Named s) (ho : P.link.Origin isConst stored s)
    (hc : ∀ v, bound = some v → isConst = true)
    (hf : ∀ key, f.bindingAt key =
      if key = ⟨stored, s.scope.depth⟩ then bound else s.folder.bindingAt key) (symbols : Symbols) :
    P.Named { s with symbols, folder := f } := by
  intro key v hv
  rw [show _ = f.bindingAt key from rfl, hf] at hv
  split at hv
  next he =>
    obtain ⟨a, ⟨-, hident, hconst, -⟩, text, hhas, htext⟩ := ho
    obtain ⟨w, hw, hk, rfl⟩ := hconst (hc v hv)
    refine ⟨text, he ▸ hhas, htext.imp (fun he => ?_) fun ⟨outer, he⟩ => ⟨outer, _, he⟩⟩
    exact ⟨w, in_of_sees hw, hk, hident, he.symm⟩
  next => exact h key v hv

theorem firm_declareVariable {v w : Option Value} (h : P.link.Rel es s₁ s₂)
    (hu : s₁.types.Uses (P.Quiet s₁) type) (ho : P.link.Origin isConst stored s₁)
    (htype : P.Quiet s₁ → ∀ x, w = some x → x.kind.type = type ∨ s₁.types.Plain s₁.names type) :
    P.link.Firm es (declareVariable stored type isConst v) (declareVariable stored type isConst w)
      s₁ s₂ fun _ _ t₁ t₂ => P.link.rel (.declared stored type isConst w :: es) t₁ t₂ := by
  obtain ⟨hb, Γ, os, bs, cs, hst⟩ := h.rel
  have hbasics := hb.furnished.basics
  obtain ⟨f, bound, h₁, hf, hbound⟩ := declareVariable_eq stored isConst v hu.1 hbasics
  obtain ⟨g, value, h₂, hg, hvalue⟩ := declareVariable_eq stored isConst w (s := s₂)
    (h.same.types ▸ hu.1) (h.same.types ▸ h.same.names ▸ hbasics)
  have ho₂ : P.link.Origin isConst stored s₂ := by
    obtain ⟨a, ⟨hsees, hident, hc, n, hw⟩, text, hhas, htext⟩ := ho
    exact ⟨a, ⟨hsees, hident, hc, n, h.same.window ▸ hw⟩, text, h.same.names ▸ hhas, htext⟩
  -- The value of a declaration is the one bound by the second run.
  have hdecl : ∃ d : Decl, d.name = stored ∧ d.type = type ∧ (P.Quiet s₁ → d.value = value) ∧
      ∀ x, d.value = some x → value = some x := by
    by_cases hq : P.Quiet s₁
    · refine ⟨⟨stored, type, value, fun x hx => ?_⟩, rfl, rfl, fun _ => rfl, fun _ => id⟩
      obtain ⟨hw, -, he⟩ := hvalue x hx
      rw [← h.same.types] at he
      exact (htype hq x hw).elim id fun hplain => hplain.eq_type hbasics he
    · exact ⟨⟨stored, type, none, by simp⟩, rfl, rfl, fun hq' => absurd hq' hq, by simp⟩
  obtain ⟨d, rfl, rfl, hd, hdvalue⟩ := hdecl
  have hpiece : Piece P (P.view s₁ os) (P.returns es).head? Γ
      (.declared d.name d.type isConst w) [] [] (Γ.extend [d]) :=
    .declared fun x hx => ⟨(hvalue x (hdvalue x hx)).2.1, (hvalue x (hdvalue x hx)).1⟩
  refine .ok h₁ h₂ ⟨⟨{ h.same with symbols := ?_ }, hb.first, hb.second, hb.window,
    hb.named₁.declare ho (fun x hx => (hbound x hx).2.1) hf _,
    hb.named₂.declare ho₂ (fun x hx => (hvalue x hx).2.1) hg _,
    hb.furnished.insert_var h.sound₁.symbols hu _, hb.returns⟩, Γ.extend [d], os, bs, cs, hst.left,
    hst.right, hst.pieces.cons hpiece, fun hq => ?_, hst.known, fun hq o hmem => ?_, hst.counts,
    hst.returns⟩
  · simp only [h.same.symbols, h.same.scope]
  · obtain ⟨hagrees, hlen⟩ := hst.sight hq
    obtain ⟨block, outer, rfl⟩ := List.exists_cons_of_ne_nil hst.pieces.ne_nil
    have hdepth : outer.length = s₂.scope.depth := Nat.succ.inj hlen
    refine ⟨hagrees.declare d (fun key => ?_) fun key => ?_, hlen⟩
    · rw [hdepth]
      exact h.sound₂.symbols.vars.get?_insert _ _ _
    · rw [hdepth, hd hq]
      exact hg key
  · obtain ⟨hsigned, hacc⟩ := hst.accounted hq o hmem
    exact ⟨hsigned, hacc.imp_left (List.mem_cons_of_mem _)⟩

theorem firm_bare (h : P.link.Rel es s₁ s₂) (hk : P.link.knows type s₁)
    (ho : P.link.Origin isConst stored s₁) :
    P.link.Firm es (declareVariable stored type isConst none)
      (declareVariable stored type isConst none) s₁ s₂ fun _ _ t₁ t₂ =>
      P.link.rel (.declared stored type isConst none :: es) t₁ t₂ :=
  firm_declareVariable h hk.uses ho fun _ _ => nofun

theorem firm_var {i j : ExprId} {v w : Option Value}
    (h : P.link.Rel (.folded i j v w (.stored type) :: es) s₁ s₂)
    (ho : P.link.Origin isConst stored s₁) :
    P.link.Firm (.folded i j v w (.stored type) :: es) (declareVariable stored type isConst v)
      (declareVariable stored type isConst w) s₁ s₂ fun _ _ t₁ t₂ =>
      P.link.rel (.declared stored type isConst w :: .folded i j v w (.stored type) :: es)
        t₁ t₂ := by
  obtain ⟨hb, Γ, os, bs, cs, hst⟩ := h.rel
  obtain ⟨b, c, bs, cs, rfl, rfl, -, hf⟩ := hst.pieces.folded
  exact firm_declareVariable h (hf.uses type rfl) ho fun hq x hx => hf.type_eq hq x type hx rfl

/-! ### Functions -/

/-- The parameters of a function are declared, and values of its type are to be returned. -/
theorem firm_params {signature : Option Signature} (h : P.link.Rel (.enter :: es) s₁ s₂)
    (hs : s₁.types.function? type = .ok signature) :
    P.link.Firm (.enter :: es) (signature.forM declareParams) (signature.forM declareParams) s₁ s₂
      fun _ _ t₁ t₂ => P.link.rel (.params type :: .enter :: es)
        (t₁.shift id ((signature.map Signature.ret).getD .invalid :: ·))
        (t₂.shift id ((signature.map Signature.ret).getD .invalid :: ·)) := by
  obtain ⟨hb, Γ, os, bs, cs, hst⟩ := h.rel
  have hpieces := hst.pieces.cons (.params : Piece P _ _ _ (.params type) [] [] _)
  have hparameters (hq : P.Quiet s₁) : P.types.function? type = .ok signature :=
    TypeTable.Grows.function? hq.2 hs
  have haccounted (hq : P.Quiet s₁) (o : Overload) (hmem : o ∈ os) : o.Signed P.types ∧
      Accounted (.params type :: .enter :: es) cs o := by
    obtain ⟨hsigned, hacc⟩ := hst.accounted hq o hmem
    exact ⟨hsigned, hacc.imp_left (List.mem_cons_of_mem _)⟩
  have hreturns (hq : P.Quiet s₁) : (signature.map Signature.ret).getD .invalid :: s₁.returns =
      P.returns (.params type :: .enter :: es) := by
    rw [hst.returns hq, ← TypeTable.result_eq (hparameters hq)]
    rfl
  have hlive (ret : TypeId) (hret : ∃ d, s₁.types.desc ret = .ok d) (t : TypeId)
      (hmem : t ∈ ret :: s₁.returns) : ∃ d, s₁.types.desc t = .ok d := by
    rcases List.mem_cons.1 hmem with rfl | hmem
    · exact hret
    · exact hb.returns t hmem
  cases signature with
  | none =>
    obtain ⟨name, hd, -⟩ := hb.furnished.basics .invalid
    refine .ok rfl rfl ⟨⟨{ h.same with returns := congrArg (_ :: ·) h.same.returns }, hb.first,
      hb.second, hb.window, hb.named₁, hb.named₂, hb.furnished, hlive _ ⟨_, hd⟩⟩, _, os, bs, cs,
      hst.left, hst.right, hpieces, fun hq => ?_, hst.known, haccounted, hst.counts, hreturns⟩
    rw [TypeTable.parameters, hparameters hq, ← Sight.eq_extend_nil hst.pieces.ne_nil]
    exact hst.sight hq
  | some signature =>
    have hsignature := knows_signature h hs
    have hfur := hb.furnished.withParams h.sound₁.symbols s₁.scope.depth
      (signature.params.zip signature.paramNames) fun p hp =>
        (hsignature.1 p.1 (List.of_mem_zip hp).1).uses
    refine .ok rfl rfl ⟨⟨{ h.same with symbols := ?_, returns := ?_ }, hb.first, hb.second,
      hb.window, hb.named₁, hb.named₂, hfur, hlive _ hsignature.2.uses.1⟩, _, os, bs, cs, hst.left,
      hst.right, hpieces, fun hq => ?_, hst.known, haccounted, hst.counts, hreturns⟩
    · simp only [ParseState.shift, h.same.symbols, h.same.scope]
    · exact congrArg (signature.ret :: ·) h.same.returns
    · obtain ⟨hagrees, hlen⟩ := hst.sight hq
      have hp := hst.pieces
      cases hp with
      | @cons outer Γ' x es xs ys bs cs hp hx =>
        cases hx
        have hdepth : outer.length = s₂.scope.depth := Nat.succ.inj hlen
        rw [TypeTable.parameters, hparameters hq, Sight.extend, List.append_nil]
        have hunbound (name : Name) : s₂.folder.bindingAt ⟨name, outer.length⟩ = none :=
          (hagrees.1 name).2
        refine ⟨?_, hlen⟩
        have hwith := hagrees.parameters (signature.params.zip signature.paramNames)
          h.sound₂.symbols.vars hunbound
        rw [hdepth] at hwith
        exact hwith

theorem firm_ofHalting {α : Type} {r : Except (Halt StorageError) α} (h : P.link.Rel es s₁ s₂)
    (hr : ∀ fault, r = .error (.fault fault) → P.link.fails fault) :
    P.link.Firm es (ofHalting r) (ofHalting r) s₁ s₂ fun a b t₁ t₂ =>
      r = .ok a ∧ a = b ∧ s₁ = t₁ ∧ s₂ = t₂ := by
  cases r with
  | ok a => exact .ok rfl rfl ⟨rfl, rfl, rfl, rfl⟩
  | error e =>
    cases e with
    | cause error => exact .first rfl (Moves.owns h.rel).1
    | fault fault => exact .fault rfl rfl (hr fault rfl)

/-- One more overload in the tables, which has no statement yet. -/
theorem rel_function {o : Overload} {replaced : Bool} {funcs : FuncTable} {key : ScopedKey}
    (h : P.link.Rel es s₁ s₂) (hs : s₁.types.function? o.type = .ok (some signature))
    (hparams : o.params = signature.params) (hvariadic : o.variadic = signature.variadic)
    (hret : o.ret = signature.ret)
    (hd : FuncTable.declare s₁.symbols.funcs s₁.types key o = .ok (replaced, funcs)) :
    P.link.rel (.function o.mangled o.type :: es)
      { s₁ with symbols := { s₁.symbols with funcs } }
      { s₂ with symbols := { s₂.symbols with funcs } } := by
  obtain ⟨hb, Γ, os, bs, cs, hst⟩ := h.rel
  have hsignature := knows_signature h hs
  have hleads : (P.view s₁ os).Leads
      (P.view { s₁ with symbols := { s₁.symbols with funcs } } (o :: os)) :=
    ⟨.refl _, .refl _, id, List.subset_cons_self _ _⟩
  refine ⟨⟨{ h.same with symbols := ?_ }, hb.first, hb.second, hb.window, hb.named₁, hb.named₂,
    hb.furnished.declare_func h.sound₁.symbols ?_ (fun type hmem => ?_) hd, hb.returns⟩, Γ, o :: os,
    bs, cs, hst.left, hst.right, (hleads.pieces hst.pieces).cons .function, hst.sight,
    fun hq k p hmem => ?_, fun hq p hmem => ?_, hst.counts, hst.returns⟩
  · simp only [h.same.symbols]
  · exact hret ▸ hsignature.2.uses
  · exact (hsignature.1 type (hparams ▸ hmem)).uses.1
  · rcases (FuncTable.declare_ok h.sound₁.symbols.funcs hd).2.2 k p hmem with ⟨-, rfl⟩ | hmem
    · exact List.mem_cons_self
    · exact List.mem_cons_of_mem _ (hst.known hq k p hmem)
  · rcases List.mem_cons.1 hmem with rfl | hmem
    · exact ⟨⟨signature, TypeTable.Grows.function? hq.2 hs, hparams, hvariadic⟩,
        .inl List.mem_cons_self⟩
    · obtain ⟨hsigned, hacc⟩ := hst.accounted hq p hmem
      exact ⟨hsigned, hacc.imp_left (List.mem_cons_of_mem _)⟩

theorem firm_declareFunction (h : P.link.Rel es s₁ s₂)
    (hs : s₁.types.function? type = .ok (some signature)) :
    P.link.Firm es (declareFunction stored type signature isNative)
      (declareFunction stored type signature isNative) s₁ s₂ fun a b t₁ t₂ =>
      a = b ∧ P.link.rel (.function a type :: es) t₁ t₂ := by
  have hparam (type : TypeId) (hmem : type ∈ signature.params) :
      Faults (s₁.types.desc type) P.link.fails :=
    Moves.known ((knows_signature h hs).1 type hmem)
  refine firm_get_bind ?_
  have hsame : LinkName.make s₂.types s₂.names s₂.scratch stored signature.params
      signature.variadic = LinkName.make s₁.types s₁.names s₁.scratch stored signature.params
      signature.variadic := by
    rw [h.same.types, h.same.names, h.same.scratch]
  rw [hsame]
  refine (firm_ofHalting h fun _ hf => faults_linkName hparam hf).bind ?_
  rintro ⟨mangled, names⟩ _ _ _ ⟨hm, rfl, rfl, rfl⟩
  obtain ⟨hn, hg⟩ := sound_linkName h.sound₁.names hm
  have ht := (h.names hn hg).rel
  have hset (s : ParseState) : (set { s with names } : Parse PUnit) s = .ok ⟨⟩ { s with names } :=
    rfl
  dsimp only
  refine (firm_of_ok (R := fun _ _ t₁ t₂ => { s₁ with names } = t₁ ∧ { s₂ with names } = t₂)
    (hset s₁) (hset s₂) ⟨rfl, rfl⟩).bind ?_
  rintro _ _ _ _ ⟨rfl, rfl⟩
  have hkey (s : ParseState) (hs : s.scope = s₁.scope) :
      key stored s = .ok ⟨stored, s₁.scope.depth⟩ s := by
    rw [← hs]
    rfl
  refine (firm_read (hkey { s₁ with names } rfl) (hkey { s₂ with names } h.same.scope.symm)).bind ?_
  rintro _ _ _ _ ⟨rfl, rfl, rfl, rfl⟩
  have hdeclare (o : Overload) :
      FuncTable.declare s₂.symbols.funcs s₂.types ⟨stored, s₁.scope.depth⟩ o =
        FuncTable.declare s₁.symbols.funcs s₁.types ⟨stored, s₁.scope.depth⟩ o := by
    rw [h.same.symbols, h.same.types]
  rw [hdeclare]
  refine (firm_ofFault (faults_declare hparam fun p hp type hmem => faults_of_ok
    (h.rel.1.furnished.param _ p hp type hmem).choose_spec)).bind ?_
  rintro ⟨replaced, funcs⟩ _ _ _ ⟨hd, rfl, rfl, rfl⟩
  exact .ok rfl rfl ⟨rfl, rel_function ht hs rfl rfl rfl hd⟩

end Pass

end FrontEnd
