import FrontEnd.Proofs.Grammar.Outcome
import FrontEnd.Proofs.Report.QueueGrowth
import FrontEnd.Proofs.Typing.TypingFaults
import FrontEnd.Typing.Check

/-! Steps of the checker that do not look at the tree, and what holds if they report nothing. -/

namespace FrontEnd

namespace Queue

variable {p q r : Queue} {P Q : Prop}

/-- No report is taken back on the way from `q` to `r`; and if `r` is empty still, then `P`. -/
structure Leads (q r : Queue) (P : Prop) : Prop where
  sound : r.Sound
  quiet : r.reports = #[] → q.reports = #[] ∧ P

theorem Sound.leads (h : q.Sound) (hP : P) : q.Leads q P := ⟨h, fun he => ⟨he, hP⟩⟩

theorem Leads.trans (h : p.Leads q P) (h' : q.Leads r Q) : p.Leads r (P ∧ Q) :=
  ⟨h'.sound, fun he => ⟨(h.quiet (h'.quiet he).1).1, (h.quiet (h'.quiet he).1).2, (h'.quiet he).2⟩⟩

theorem Leads.imp (h : q.Leads r P) (hPQ : P → Q) : q.Leads r Q :=
  ⟨h.sound, fun he => (h.quiet he).imp id hPQ⟩

theorem Leads.and (h : q.Leads r P) (h' : q.Leads r Q) : q.Leads r (P ∧ Q) :=
  ⟨h.sound, fun he => ⟨(h.quiet he).1, (h.quiet he).2, (h'.quiet he).2⟩⟩

theorem Sound.leads_add (h : q.Sound) (report : Report) : q.Leads (q.add report) False := by
  refine ⟨h.add report, fun he => ?_⟩
  have hq : q.reports = #[] := by
    have := size_le_add q report
    rw [he] at this
    exact Array.size_eq_zero_iff.1 (Nat.le_zero.1 this)
  have := h.heeds hq report
  simp [he] at this

end Queue

/-- The types that inference can come to, given those of function literals. -/
inductive Env.Supplies (env : Env) (M : TypeId → Prop) : TypeId → Prop
  | basic (b : BasicType) : Supplies env M b.id
  | var {name type} : env.resolveVar name = some type → Supplies env M type
  | named {name type} : env.resolveType name = some type → Supplies env M type
  | ret {callee args resolved} : env.resolveCall callee args = .ok (some resolved) →
    Supplies env M resolved.ret
  | field {id name fields field} : env.types.kind id = .ok (.struct name fields) →
    field ∈ fields → Supplies env M field.type
  | lambda {type} : M type → Supplies env M type
  | param {key type} {o : Overload} : o ∈ FuncTable.overloads env.symbols.funcs key →
    type ∈ o.params → Supplies env M type

/-- How checking can fail: a column is too great, or a type that it comes to is not there. -/
inductive Env.Fails (env : Env) (M : TypeId → Prop) : Fault → Prop
  | overflow (verb : String) : Fails env M (.overflow verb)
  | missing {type fault} : env.Supplies M type → env.types.desc type = .error fault →
    Fails env M fault

theorem Env.Supplies.faults {env : Env} {M : TypeId → Prop} {type : TypeId}
    (h : env.Supplies M type) : Faults (env.types.desc type) (env.Fails M) :=
  fun _ hf => .missing h hf

/-- The type of an application is that of an operand or a basic one. -/
theorem type_of_checkUnary {types : TypeTable} {op : UnaryOp} {operand : TypeId}
    {result : Application} (h : checkUnary types op operand = .ok result) :
    result.type = operand ∨ ∃ b : BasicType, result.type = b.id := by
  have hnominal : ∃ b : BasicType, op.nominal = b.id := by
    cases op <;> first | exact ⟨.bool, rfl⟩ | exact ⟨.integer, rfl⟩
  unfold checkUnary at h
  split at h
  · obtain rfl := Except.ok.inj h
    exact .inr hnominal
  · cases ha : op.accepts types operand with
    | error f => simp [ha, Bind.bind, Except.bind] at h
    | ok fits =>
      cases fits <;> simp only [ha, Bind.bind, Except.bind, Pure.pure, Except.pure, if_true,
        Bool.false_eq_true, if_false, Except.ok.injEq] at h <;> subst h
      · exact .inr hnominal
      · exact .inl rfl

theorem wider_eq {types : TypeTable} {left right type : TypeId}
    (h : types.wider left right = .ok type) : type = left ∨ type = right := by
  unfold TypeTable.wider at h
  cases hl : types.rank? left with
  | error f => simp [hl, Bind.bind, Except.bind] at h
  | ok l =>
    cases hr : types.rank? right with
    | error f => simp [hl, hr, Bind.bind, Except.bind] at h
    | ok r =>
      simp only [hl, hr, Bind.bind, Except.bind, Pure.pure, Except.pure] at h
      split at h
      · obtain rfl := Except.ok.inj h
        split
        · exact .inr rfl
        · exact .inl rfl
      · exact .inl (Except.ok.inj h).symm

theorem OperatorGroup.type_of_accepts {types : TypeTable} {left right type : TypeId}
    {group : OperatorGroup} (h : group.accepts types left right = .ok (some type)) :
    (type = left ∨ type = right) ∨ type = .bool := by
  have hwide {p : TypeId → Except Fault Bool} (h : (do
      if ← both p left right then return some (← types.wider left right)
      return none) = Except.ok (some type)) : type = left ∨ type = right := by
    cases hp : both p left right with
    | error f => simp [hp, Bind.bind, Except.bind] at h
    | ok fits =>
      cases fits with
      | false => simp [hp, Bind.bind, Except.bind, Pure.pure, Except.pure] at h
      | true =>
        cases hw : types.wider left right with
        | error f => simp [hp, hw, Bind.bind, Except.bind] at h
        | ok wide =>
          simp only [hp, hw, Bind.bind, Except.bind, Pure.pure, Except.pure, if_true,
            Except.ok.injEq, Option.some.injEq] at h
          subst h
          exact wider_eq hw
  cases group with
  | term | factor | bitwise => exact .inl (hwide h)
  | equality =>
    refine .inr ?_
    simp only [accepts] at h
    cases hp : both types.isNumeric left right with
    | error f => simp [hp, Bind.bind, Except.bind] at h
    | ok numeric =>
      cases numeric with
      | true => simpa [hp, Bind.bind, Except.bind, Pure.pure, Except.pure, eq_comm] using h
      | false =>
        cases he : types.equal left right with
        | error f => simp [hp, he, Bind.bind, Except.bind] at h
        | ok equal =>
          cases equal with
          | false => simp [hp, he, Bind.bind, Except.bind, Pure.pure, Except.pure] at h
          | true =>
            simp only [hp, he, Bind.bind, Except.bind, Pure.pure, Except.pure, if_true,
              Bool.false_eq_true, if_false, Except.ok.injEq] at h
            split at h <;> simp_all
  | comparison =>
    refine .inr ?_
    simp only [accepts] at h
    cases hp : both types.isNumeric left right with
    | error f => simp [hp, Bind.bind, Except.bind] at h
    | ok numeric =>
      cases numeric <;>
        simp_all [Bind.bind, Except.bind, Pure.pure, Except.pure]
  | logical =>
    refine .inr ?_
    simp only [accepts, Pure.pure, Except.pure, Except.ok.injEq] at h
    split at h <;> simp_all

theorem type_of_checkBinary {types : TypeTable} {op : BinaryOp} {left right : TypeId}
    {result : Application} (h : checkBinary types op left right = .ok result) :
    (result.type = left ∨ result.type = right) ∨ ∃ b : BasicType, result.type = b.id := by
  have hnominal : ∃ b : BasicType, (OperatorGroup.of op).nominal = b.id := by
    cases OperatorGroup.of op <;> first | exact ⟨.bool, rfl⟩ | exact ⟨.integer, rfl⟩
  unfold checkBinary at h
  dsimp only at h
  split at h
  · obtain rfl := Except.ok.inj h
    exact .inr hnominal
  · cases ha : (OperatorGroup.of op).accepts types left right with
    | error f => simp [ha, Bind.bind, Except.bind] at h
    | ok found =>
      cases found <;> simp only [ha, Bind.bind, Except.bind, Pure.pure, Except.pure,
        Except.ok.injEq] at h <;> subst h
      · exact .inr hnominal
      · exact (OperatorGroup.type_of_accepts ha).imp id fun hb => ⟨.bool, hb⟩

/-- What an assignment stores has this type, if its operands are accepted. -/
def AssignOp.Stores (types : TypeTable) (op : AssignOp) (target value stored : TypeId) : Prop :=
  match op with
  | .assign => stored = value
  | .compound binary => checkBinary types binary target value = .ok (.accepted stored)
  | .complement => checkUnary types .bitNot value = .ok (.accepted stored)

namespace Check

variable {env : Env} {M : TypeId → Prop} {K : TypeId → Prop} {E : Fault → Prop} {α β : Type}
  {p : Check α} {f : α → Check β} {q r : Queue} {R R' : α → Queue → Prop} {S : β → Queue → Prop}

/-- Whatever the tree is, `p` yields one result, as `R` tells, or stops with one fault, as `E`
tells. -/
inductive Blind (E : Fault → Prop) (p : Check α) (q : Queue) (R : α → Queue → Prop) : Prop
  | ok {a r} : (∀ t, p ⟨t, q⟩ = .ok a ⟨t, r⟩) → R a r → Blind E p q R
  | fault {e} : E e → (∀ t, ∃ s, p ⟨t, q⟩ = .error e s) → Blind E p q R

theorem blind_pure {a : α} (h : R a q) : Blind E (pure a) q R := .ok (fun _ => rfl) h

/-- A result without a report. -/
theorem blind_value {type : TypeId} (hq : q.Sound) (hk : K type) :
    Blind E (pure type) q fun found r => q.Leads r (found = type) ∧ K found :=
  blind_pure ⟨hq.leads rfl, hk⟩

theorem Blind.imp (h : Blind E p q R) (hR : ∀ a r, R a r → R' a r) : Blind E p q R' := by
  cases h with
  | ok hp h => exact .ok hp (hR _ _ h)
  | fault he hp => exact .fault he hp

theorem Blind.bind (h : Blind E p q R) (hf : ∀ a r, R a r → Blind E (f a) r S) :
    Blind E (p >>= f) q S := by
  cases h with
  | ok hp h =>
    cases hf _ _ h with
    | ok hq hs => exact .ok (fun t => (bind_of_ok (hp t)).trans (hq t)) hs
    | fault he hq =>
      refine .fault he fun t => ?_
      obtain ⟨s, hs⟩ := hq t
      exact ⟨s, (bind_of_ok (hp t)).trans hs⟩
  | fault he hp =>
    refine .fault he fun t => ?_
    obtain ⟨s, hs⟩ := hp t
    exact ⟨s, bind_of_error hs⟩

theorem blind_ofExcept {x : Except Fault α} (hf : Faults x E) (h : ∀ a, x = .ok a → R a q) :
    Blind E (ofExcept x) q R := by
  cases x with
  | ok a => exact .ok (fun _ => rfl) (h a rfl)
  | error f => exact .fault (hf f rfl) fun t => ⟨⟨t, q⟩, rfl⟩

theorem blind_report (hq : q.Sound) (code : ErrorCode) (span : Span) (message label : String) :
    Blind (env.Fails M) (report env code span message label) q fun _ r => q.Leads r False := by
  cases hr : q.emitSpanned (Report.on code message span label) env.lines with
  | ok r =>
    refine .ok (a := ()) (r := r) (fun t => ?_) ?_
    · simp only [report, Bind.bind, EStateM.bind, get_eq, hr]
      rfl
    · obtain ⟨report, rfl⟩ := Queue.emitSpanned_ok hr
      exact hq.leads_add report
  | error f =>
    refine .fault (q.faults_emitSpanned .overflow _ _ f hr) fun t => ⟨⟨t, q⟩, ?_⟩
    simp only [report, Bind.bind, EStateM.bind, get_eq, hr]
    rfl

/-- A report and then a result. -/
theorem blind_reported {type : TypeId} {P : TypeId → Prop} (hq : q.Sound) (hk : K type)
    (code : ErrorCode) (span : Span) (message label : String) : Blind (env.Fails M) (do
      report env code span message label
      return type) q fun found r => q.Leads r (P found) ∧ K found :=
  (blind_report hq code span message label).bind fun _ _ h => blind_pure ⟨h.imp False.elim, hk⟩

theorem blind_quote {type : TypeId} (hk : env.Supplies M type) :
    Blind (env.Fails M) (quote env type) q fun _ r => r = q :=
  (blind_ofExcept (R := fun _ r => r = q) (faults_describe hk.faults _) fun _ _ => rfl).bind
    fun _ _ h => blind_pure h

theorem blind_quotes {types : List TypeId} (hk : ∀ type ∈ types, env.Supplies M type) :
    Blind (env.Fails M) (types.mapM (quote env)) q fun _ r => r = q := by
  induction types with
  | nil => exact blind_pure rfl
  | cons type types ih =>
    rw [List.mapM_cons]
    refine (blind_quote (hk type (by simp))).bind fun _ r hr => ?_
    subst hr
    exact (ih fun type ht => hk type (by simp [ht])).bind fun _ _ hr => blind_pure hr

theorem blind_inferVar (hq : q.Sound) (name : Name) (span : Span) :
    Blind (env.Fails M) (inferVar env name span) q fun type r =>
      q.Leads r (env.resolveVar name = some type) ∧ env.Supplies M type := by
  unfold inferVar
  cases hv : env.resolveVar name with
  | some type => exact blind_pure ⟨hq.leads rfl, .var hv⟩
  | none => exact blind_reported hq (.basic .invalid) ..

theorem blind_settle {result : Application} {span : Span} {message : Check String}
    {label : String} (hq : q.Sound) (hm : Blind (env.Fails M) message q fun _ r => r = q)
    (hk : K result.type) :
    Blind (env.Fails M) (settle env result span message label) q fun type r =>
      q.Leads r (result = .accepted type) ∧ K type := by
  unfold settle
  cases result with
  | accepted type => exact blind_pure ⟨hq.leads rfl, hk⟩
  | mismatch nominal =>
    refine hm.bind fun text r hr => ?_
    subst hr
    exact blind_reported hq hk ..

theorem blind_applyUnary {operand : TypeId} (hq : q.Sound) (hk : env.Supplies M operand)
    (op : UnaryOp) (span : Span) :
    Blind (env.Fails M) (applyUnary env op operand span) q fun type r =>
      q.Leads r (checkUnary env.types op operand = .ok (.accepted type)) ∧
        env.Supplies M type := by
  refine (blind_ofExcept (R := fun result r => r = q ∧ checkUnary env.types op operand = .ok result)
    (faults_checkUnary hk.faults op) fun result h => ⟨rfl, h⟩).bind ?_
  rintro result _ ⟨rfl, h⟩
  have hresult : env.Supplies M result.type := by
    rcases type_of_checkUnary h with ht | ⟨b, ht⟩
    · exact ht ▸ hk
    · exact ht ▸ .basic b
  refine (blind_settle hq ?_ hresult).imp fun type r hr =>
    hr.imp_left fun hr => hr.imp fun he => he ▸ h
  exact (blind_quote hk).bind fun _ _ hr => blind_pure hr

theorem blind_operandsMessage {left right : TypeId} (hl : env.Supplies M left)
    (hr : env.Supplies M right) (symbol : String) :
    Blind (env.Fails M) (operandsMessage env symbol left right) q fun _ r => r = q := by
  refine (blind_quote hl).bind fun _ r hq => ?_
  subst hq
  exact (blind_quote hr).bind fun _ _ hq => blind_pure hq

theorem blind_applyBinary {left right : TypeId} (hq : q.Sound) (hl : env.Supplies M left)
    (hr : env.Supplies M right) (symbol : String) (op : BinaryOp) (span : Span) :
    Blind (env.Fails M) (applyBinary env symbol op left right span) q fun type r =>
      q.Leads r (checkBinary env.types op left right = .ok (.accepted type)) ∧
        env.Supplies M type := by
  refine (blind_ofExcept (R := fun result r =>
    r = q ∧ checkBinary env.types op left right = .ok result)
    (faults_checkBinary hl.faults hr.faults op) fun result h => ⟨rfl, h⟩).bind ?_
  rintro result _ ⟨rfl, h⟩
  have hresult : env.Supplies M result.type := by
    rcases type_of_checkBinary h with (ht | ht) | ⟨b, ht⟩
    · exact ht ▸ hl
    · exact ht ▸ hr
    · exact ht ▸ .basic b
  exact (blind_settle hq (blind_operandsMessage hl hr symbol) hresult).imp fun type r hr =>
    hr.imp_left fun hr => hr.imp fun he => he ▸ h

theorem blind_storedType {target value : TypeId} (hq : q.Sound) (ht : env.Supplies M target)
    (hv : env.Supplies M value) (op : AssignOp) (span : Span) :
    Blind (env.Fails M) (storedType env op target value span) q fun stored r =>
      q.Leads r (op.Stores env.types target value stored) ∧ env.Supplies M stored := by
  cases op with
  | assign => exact blind_pure ⟨hq.leads rfl, hv⟩
  | compound binary => exact blind_applyBinary hq ht hv ..
  | complement =>
    refine (blind_ofExcept (R := fun result r =>
      r = q ∧ checkUnary env.types .bitNot value = .ok result)
      (faults_checkUnary hv.faults .bitNot) fun result h => ⟨rfl, h⟩).bind ?_
    rintro result _ ⟨rfl, h⟩
    have hresult : env.Supplies M result.type := by
      rcases type_of_checkUnary h with ht | ⟨b, ht⟩
      · exact ht ▸ hv
      · exact ht ▸ .basic b
    exact (blind_settle hq (blind_operandsMessage ht hv _) hresult).imp
      fun _ _ hr => hr.imp_left fun hr => hr.imp fun he => h.trans (congrArg Except.ok he)

theorem blind_unknownMember {type : TypeId} {P : TypeId → Prop} (hq : q.Sound)
    (hk : env.Supplies M type) (field : Name) (span : Span) :
    Blind (env.Fails M) (unknownMember env type field span) q fun found r =>
      q.Leads r (P found) ∧ env.Supplies M found := by
  refine (blind_quote hk).bind fun _ r hr => ?_
  subst hr
  exact blind_reported hq (.basic .invalid) ..

theorem blind_variantType {type : TypeId} (hq : q.Sound) (hk : env.Supplies M type)
    (variant : Name) (span : Span) :
    Blind (env.Fails M) (variantType env type variant span) q fun found r =>
      q.Leads r (found = type) ∧ env.Supplies M found := by
  refine (blind_ofExcept (R := fun _ r => r = q) (faults_kind hk.faults) fun _ _ => rfl).bind
    fun kind r hr => ?_
  subst hr
  cases kind with
  | enum name variants =>
    dsimp only
    split
    · exact blind_pure ⟨hq.leads rfl, hk⟩
    · exact blind_unknownMember hq hk ..
  | _ => exact blind_unknownMember hq hk ..

/-- How the type of a member goes with that of its object. -/
inductive Member (env : Env) (object : TypeId) : TypeId → Prop
  | invalid : env.types.kind object = .ok (.basic .invalid) → Member env object .invalid
  | field {name fields field} : env.types.kind object = .ok (.struct name fields) →
    field ∈ fields → Member env object field.type
  | variant : Member env object object

theorem blind_memberType {type : TypeId} (hq : q.Sound) (hk : env.Supplies M type)
    (field : Name) (span : Span) :
    Blind (env.Fails M) (memberType env type field span) q fun found r =>
      q.Leads r (Member env type found) ∧ env.Supplies M found := by
  refine (blind_ofExcept (R := fun kind r => r = q ∧ env.types.kind type = .ok kind)
    (faults_kind hk.faults) fun kind h => ⟨rfl, h⟩).bind ?_
  rintro kind _ ⟨rfl, hkind⟩
  split
  · exact blind_pure ⟨hq.leads (.invalid hkind), .basic .invalid⟩
  · split
    next found hfound =>
      have hmem := List.mem_of_find?_eq_some hfound
      exact blind_pure ⟨hq.leads (.field hkind hmem), .field hkind hmem⟩
    · exact blind_unknownMember hq hk ..
  · refine (blind_variantType hq hk ..).imp fun found r h => h.imp_left fun h => h.imp ?_
    rintro rfl
    exact .variant

end Check

end FrontEnd
