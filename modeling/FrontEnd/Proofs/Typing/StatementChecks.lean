import FrontEnd.Proofs.Typing.CheckSteps
import FrontEnd.Proofs.Typing.Flows

/-!
What the checks of statements do to the expressions in them, for two trees at once that hold
expressions which are alike.
-/

namespace FrontEnd

namespace Env

variable {env : Env} {M N : TypeId → Prop} {type : TypeId} {fault : Fault}

theorem Supplies.mono (h : env.Supplies M type) (hM : ∀ type, M type → N type) :
    env.Supplies N type := by
  cases h with
  | basic b => exact .basic b
  | var hr => exact .var hr
  | named hr => exact .named hr
  | ret hr => exact .ret hr
  | field hk hf => exact .field hk hf
  | lambda hm => exact .lambda (hM _ hm)
  | param ho ht => exact .param ho ht

theorem Fails.mono (h : env.Fails M fault) (hM : ∀ type, M type → N type) : env.Fails N fault := by
  cases h with
  | overflow verb => exact .overflow verb
  | missing hs hd => exact .missing (hs.mono hM) hd

end Env

namespace Check

variable {E F : Fault → Prop} {α β : Type}

theorem Together.weaken {p₁ : Check α} {p₂ : Check β} {s₁ s₂ : CheckState}
    {R : α → β → CheckState → CheckState → Prop} (h : Together E p₁ p₂ s₁ s₂ R)
    (hE : ∀ fault, E fault → F fault) : Together F p₁ p₂ s₁ s₂ R := by
  cases h with
  | ok h₁ h₂ h => exact .ok h₁ h₂ h
  | fault he h₁ h₂ => exact .fault (hE _ he) h₁ h₂

variable {env : Env} {L : TypeId → Branch → Branch → Prop} {M : TypeId → Prop} {hole₁ hole₂ : Hole}
  {t₁ t₂ : Tree} {q r : Queue} {b c : Branch} {i j : ExprId} {type declared : TypeId}
  {s₁ s₂ : CheckState} {P : α → Prop}

/-- Two expressions of this type went through a check. -/
def Passed (env : Env) (L : TypeId → Branch → Branch → Prop) (hole₁ hole₂ : Hole) (b c : Branch)
    (q : Queue) (type : TypeId) : CheckState → CheckState → Prop :=
  Inferred env L hole₁ hole₂ b c q type type

/-- What holds anyway holds without reports. -/
theorem Passed.leads {Q : Prop} (h : Passed env L hole₁ hole₂ b c q type s₁ s₂) (hQ : Q) :
    q.Leads s₁.reports Q := by
  obtain ⟨-, -, -, b', c', -, -, -, -, -, -, hleads⟩ := h
  exact hleads.imp fun _ => hQ

/-- A step that does not look at the trees leaves the expressions alone. -/
theorem Passed.blind {p : Check α} {Q : Prop} (h : Passed env L hole₁ hole₂ b c q type s₁ s₂)
    (hp : ∀ r : Queue, r.Sound → Blind E p r fun a r' => r.Leads r' Q ∧ P a) :
    Together E p p s₁ s₂ fun a a' u₁ u₂ =>
      a = a' ∧ P a ∧ Passed env L hole₁ hole₂ b c q type u₁ u₂ ∧ q.Leads u₁.reports Q := by
  obtain ⟨t, q₁⟩ := s₁
  obtain ⟨u, q₂⟩ := s₂
  obtain ⟨-, hs, rfl, b', c', hb, hc, hlike, hrb, hrc, htype, hleads⟩ := h
  refine ((hp q₁ hleads.sound).together t u).imp ?_
  rintro a _ _ _ ⟨rfl, r, rfl, rfl, hr, ha⟩
  exact ⟨rfl, ha, ⟨rfl, hs, rfl, b', c', hb, hc, hlike, hrb, hrc, htype,
    (hleads.trans hr).imp And.left⟩, (hleads.trans hr).imp And.right⟩

theorem Passed.span (h : Passed env L hole₁ hole₂ b c q type s₁ s₂) (hb : b.root = .expr i)
    (hc : c.root = .expr j) :
    Together E (Check.span i) (Check.span j) s₁ s₂ fun a a' u₁ u₂ =>
      a = a' ∧ Passed env L hole₁ hole₂ b c q type u₁ u₂ := by
  obtain ⟨t, q₁⟩ := s₁
  obtain ⟨u, q₂⟩ := s₂
  have hpassed := h
  obtain ⟨-, -, rfl, b', c', hb', hc', hlike, hrb, hrc, -⟩ := h
  obtain ⟨place, h₁, h₂⟩ := spans_plugged hole₁ hole₂ hb' hc' hlike (hrb.root_eq.trans hb)
    (hrc.root_eq.trans hc) q₁
  exact .ok h₁ h₂ ⟨rfl, hpassed⟩

theorem Passed.report (h : Passed env L hole₁ hole₂ b c q type s₁ s₂) (code : ErrorCode)
    (place : Span) (message label : String) :
    Together (env.Fails M) (Check.report env code place message label)
      (Check.report env code place message label) s₁ s₂ fun _ _ u₁ u₂ =>
      Passed env L hole₁ hole₂ b c q type u₁ u₂ ∧ q.Leads u₁.reports False :=
  (h.blind (P := fun _ => True) fun _ hr => (blind_report hr ..).imp fun _ _ hl =>
    ⟨hl, trivial⟩).imp fun _ _ _ _ hu => hu.2.2

theorem Passed.quote (h : Passed env L hole₁ hole₂ b c q type s₁ s₂)
    (hk : env.Supplies M declared) :
    Together (env.Fails M) (Check.quote env declared) (Check.quote env declared) s₁ s₂
      fun a a' u₁ u₂ => a = a' ∧ Passed env L hole₁ hole₂ b c q type u₁ u₂ :=
  (h.blind (P := fun _ => True) (Q := True) fun _ hr => (blind_quote hk).imp fun _ _ hl =>
    ⟨hl ▸ hr.leads trivial, trivial⟩).imp fun _ _ _ _ hu => ⟨hu.1, hu.2.2.1⟩

/-- The message about an operand quotes its type, and is reported where the operand stands. -/
theorem Passed.complain (h : Passed env L hole₁ hole₂ b c q type s₁ s₂)
    (hk : env.Supplies M type) (hb : b.root = .expr i) (hc : c.root = .expr j) (code : ErrorCode)
    (message : String → String) (label : String) :
    Together (env.Fails M)
      (do let found ← Check.quote env type
          Check.report env code (← Check.span i) (message found) label)
      (do let found ← Check.quote env type
          Check.report env code (← Check.span j) (message found) label) s₁ s₂ fun _ _ u₁ u₂ =>
      Passed env L hole₁ hole₂ b c q type u₁ u₂ ∧ q.Leads u₁.reports False := by
  refine (h.quote hk).bind ?_
  rintro _ _ _ _ ⟨rfl, h⟩
  refine (h.span hb hc).bind ?_
  rintro _ _ _ _ ⟨rfl, h⟩
  exact h.report ..

theorem Passed.ofExcept {x : Except Fault α} (h : Passed env L hole₁ hole₂ b c q type s₁ s₂)
    (hf : Faults x E) :
    Together E (ofExcept x) (ofExcept x) s₁ s₂ fun a a' u₁ u₂ =>
      x = .ok a ∧ a = a' ∧ Passed env L hole₁ hole₂ b c q type u₁ u₂ :=
  (h.blind (P := fun a => x = .ok a) (Q := True) fun _ hr => blind_ofExcept hf fun _ hx =>
    ⟨hr.leads trivial, hx⟩).imp fun _ _ _ _ hu => ⟨hu.2.1, hu.1, hu.2.2.1⟩

section

variable (hM : ∀ type b c, L type b c → M type) (h₁ : t₁.Holds (hole₁.plug b))
  (h₂ : t₂.Holds (hole₂.plug c)) (hbc : b.Alike L c) (hb : b.root = .expr i)
  (hc : c.root = .expr j) (hq : q.Sound)
include hM h₁ h₂ hbc hb hc hq

/-- Inference comes first in every check. -/
theorem together_inferred :
    Together (env.Fails M) (infer env i) (infer env j) ⟨t₁, q⟩ ⟨t₂, q⟩ fun type type' u₁ u₂ =>
      type = type' ∧ env.Supplies M type ∧ Passed env L hole₁ hole₂ b c q type u₁ u₂ := by
  have hmono : ∀ type, Bodied L type → M type := fun type ⟨b, c, h⟩ => hM type b c h
  refine ((together_infer env h₁ h₂ hbc hb hc hq).weaken fun _ h => h.mono hmono).imp ?_
  rintro type _ _ _ hi
  obtain ⟨rfl, hs, -⟩ := id hi
  exact ⟨rfl, hs.mono hmono, hi⟩

theorem together_checkPrint :
    Together (env.Fails M) (checkPrint env i) (checkPrint env j) ⟨t₁, q⟩ ⟨t₂, q⟩ fun _ _ u₁ u₂ =>
      ∃ type, Passed env L hole₁ hole₂ b c q type u₁ u₂ := by
  refine (together_inferred hM h₁ h₂ hbc hb hc hq).bind ?_
  rintro type _ _ _ ⟨rfl, hs, hp⟩
  have hfaults : Faults (isPrintable env type) (env.Fails M) := by
    refine faults_ite (faults_pure _) ((faults_isNumeric hs.faults).bind fun _ _ => ?_)
    refine faults_ite (faults_pure _) ((faults_kind hs.faults).bind fun kind _ => ?_)
    cases kind <;> exact faults_pure _
  refine (hp.ofExcept hfaults).bind ?_
  rintro printable _ _ _ ⟨-, rfl, hp⟩
  cases printable with
  | true => exact together_pure ⟨type, hp⟩
  | false => exact (hp.complain hs hb hc ..).imp fun _ _ _ _ hp => ⟨type, hp.1⟩

theorem together_checkCondition :
    Together (env.Fails M) (checkCondition env i) (checkCondition env j) ⟨t₁, q⟩ ⟨t₂, q⟩
      fun _ _ u₁ u₂ => ∃ type, Passed env L hole₁ hole₂ b c q type u₁ u₂ := by
  refine (together_inferred hM h₁ h₂ hbc hb hc hq).bind ?_
  rintro type _ _ _ ⟨rfl, hs, hp⟩
  have hfits (u₁ u₂ : CheckState) (fits : Bool) (hp : Passed env L hole₁ hole₂ b c q type u₁ u₂) :
      Together (env.Fails M)
        (if fits = true then pure () else do
          let message := "condition must be `Bool` or numeric, found " ++ (← quote env type)
          report env .condition (← span i) message "condition")
        (if fits = true then pure () else do
          let message := "condition must be `Bool` or numeric, found " ++ (← quote env type)
          report env .condition (← span j) message "condition") u₁ u₂
        fun _ _ v₁ v₂ => ∃ type, Passed env L hole₁ hole₂ b c q type v₁ v₂ := by
    cases fits with
    | true => exact together_pure ⟨type, hp⟩
    | false => exact (hp.complain hs hb hc ..).imp fun _ _ _ _ hp => ⟨type, hp.1⟩
  dsimp only
  split
  · exact (together_pure (R := fun a a' u₁ u₂ =>
      a = a' ∧ Passed env L hole₁ hole₂ b c q type u₁ u₂) ⟨rfl, hp⟩).bind
      fun _ _ _ _ ⟨he, hp⟩ => he ▸ hfits _ _ _ hp
  · exact (hp.ofExcept (faults_isNumeric hs.faults)).bind
      fun _ _ _ _ ⟨_, he, hp⟩ => he ▸ hfits _ _ _ hp

theorem together_checkInitializer (name : Name)
    (hd : declared ≠ .invalid → env.Supplies M declared) :
    Together (env.Fails M) (checkInitializer env name declared i)
      (checkInitializer env name declared j) ⟨t₁, q⟩ ⟨t₂, q⟩ fun stored stored' u₁ u₂ =>
      stored = stored' ∧ env.Supplies M stored ∧ ∃ type,
        (stored = type ∨ declared ≠ .invalid ∧ stored = declared) ∧
        Passed env L hole₁ hole₂ b c q type u₁ u₂ ∧
        q.Leads u₁.reports (env.types.compatible type stored = .ok true) := by
  refine (together_inferred hM h₁ h₂ hbc hb hc hq).bind ?_
  rintro type _ _ _ ⟨rfl, hs, hp⟩
  dsimp only
  split
  · exact together_pure ⟨rfl, hs, type, .inl rfl, hp, hp.leads (env.types.compatible_self type)⟩
  · rename_i hne
    refine (hp.ofExcept (faults_compatible hs.faults (hd hne).faults)).bind ?_
    rintro fits _ _ _ ⟨hfits, rfl, hp⟩
    cases fits with
    | true => exact together_pure ⟨rfl, hd hne, type, .inr ⟨hne, rfl⟩, hp, hp.leads hfits⟩
    | false =>
      refine (hp.quote (hd hne)).bind ?_
      rintro _ _ _ _ ⟨rfl, hp⟩
      refine (hp.quote hs).bind ?_
      rintro _ _ _ _ ⟨rfl, hp⟩
      refine (hp.span hb hc).bind ?_
      rintro _ _ _ _ ⟨rfl, hp⟩
      refine (hp.report ..).bind ?_
      rintro _ _ _ _ ⟨hp, hleads⟩
      exact together_pure ⟨rfl, hd hne, type, .inr ⟨hne, rfl⟩, hp, hleads.imp False.elim⟩

theorem together_checkReturn {expected : Option TypeId} (statement : Span)
    (he : ∀ type, expected = some type → env.Supplies M type) :
    Together (env.Fails M) (checkReturn env (some i) expected statement)
      (checkReturn env (some j) expected statement) ⟨t₁, q⟩ ⟨t₂, q⟩ fun _ _ u₁ u₂ =>
      ∃ type, Passed env L hole₁ hole₂ b c q type u₁ u₂ ∧
        q.Leads u₁.reports (type ≠ .invalid → env.types.Takes expected type) := by
  unfold checkReturn
  refine Together.bind (R := fun a a' u₁ u₂ => ∃ type, a = some (i, type) ∧ a' = some (j, type) ∧
    env.Supplies M type ∧ Passed env L hole₁ hole₂ b c q type u₁ u₂) ?_ ?_
  · refine Together.bind (R := fun a a' u₁ u₂ => ∃ type, a = (i, type) ∧ a' = (j, type) ∧
      env.Supplies M type ∧ Passed env L hole₁ hole₂ b c q type u₁ u₂) ?_ ?_
    · refine (together_inferred hM h₁ h₂ hbc hb hc hq).bind ?_
      rintro type _ _ _ ⟨rfl, hs, hp⟩
      exact together_pure ⟨type, rfl, rfl, hs, hp⟩
    · rintro _ _ _ _ ⟨type, rfl, rfl, hs, hp⟩
      exact together_pure ⟨type, rfl, rfl, hs, hp⟩
  rintro _ _ v₁ v₂ ⟨type, rfl, rfl, hs, hp⟩
  cases hx : expected.filter (· ≠ .invalid) with
  | none =>
    refine together_pure ⟨type, hp, hp.leads fun _ t ht hne => ?_⟩
    simp [ht, hne] at hx
  | some wanted =>
    obtain ⟨rfl, -⟩ := Option.filter_eq_some_iff.1 hx
    have hwanted : env.Supplies M wanted := he _ rfl
    have htakes (h : env.types.compatible type wanted = .ok true) :
        type ≠ .invalid → env.types.Takes (some wanted) type := by
      rintro - _ ⟨⟩ -
      exact h
    dsimp only
    split
    · rename_i hinvalid
      exact together_pure ⟨type, hp, hp.leads fun hne => absurd hinvalid hne⟩
    · split
      · split
        · exact (hp.complain hs hb hc ..).imp fun _ _ _ _ hp =>
            ⟨type, hp.1, hp.2.imp False.elim⟩
        · rename_i hvoid hsame
          obtain rfl := hvoid.trans (not_not.1 hsame).symm
          exact together_pure ⟨_, hp, hp.leads (htakes (env.types.compatible_self _))⟩
      · have hfits (u₁ u₂ : CheckState) (fits : Bool)
            (hfits : fits = true → env.types.compatible type wanted = .ok true)
            (hp : Passed env L hole₁ hole₂ b c q type u₁ u₂) : Together (env.Fails M)
              (if fits = true then pure () else do
                let message := "expected return type " ++ (← quote env wanted) ++ ", found " ++
                  (← quote env type)
                Check.report env .returnType (← span i) message "returned here")
              (if fits = true then pure () else do
                let message := "expected return type " ++ (← quote env wanted) ++ ", found " ++
                  (← quote env type)
                Check.report env .returnType (← span j) message "returned here") u₁ u₂
              fun _ _ v₁ v₂ => ∃ found, Passed env L hole₁ hole₂ b c q found v₁ v₂ ∧
                q.Leads v₁.reports (found ≠ .invalid → env.types.Takes (some wanted) found) := by
          cases fits with
          | true => exact together_pure ⟨type, hp, hp.leads (htakes (hfits rfl))⟩
          | false =>
            refine (hp.quote hwanted).bind ?_
            rintro _ _ _ _ ⟨rfl, hp⟩
            exact (hp.complain hs hb hc ..).imp fun _ _ _ _ hp =>
              ⟨type, hp.1, hp.2.imp False.elim⟩
        split
        · exact (together_pure (R := fun a a' u₁ u₂ =>
            a = false ∧ a = a' ∧ Passed env L hole₁ hole₂ b c q type u₁ u₂) ⟨rfl, rfl, hp⟩).bind
            fun _ _ _ _ ⟨hno, he, hp⟩ => he ▸ hfits _ _ _ (fun h => nomatch hno.symm.trans h) hp
        · exact (hp.ofExcept (faults_compatible hs.faults hwanted.faults)).bind
            fun _ _ _ _ ⟨hc, he, hp⟩ => he ▸ hfits _ _ _ (fun h => h ▸ hc) hp

end

/-- A return without a value has nothing to look at. -/
theorem blind_checkReturn {expected : Option TypeId} (hq : q.Sound) (statement : Span)
    (he : ∀ type, expected = some type → env.Supplies M type) :
    Blind (env.Fails M) (checkReturn env none expected statement) q fun _ r => q.Leads r True := by
  refine (blind_pure (a := none) (R := fun a r => a = none ∧ r = q) ⟨rfl, rfl⟩).bind ?_
  rintro _ _ ⟨rfl, rfl⟩
  cases hx : expected.filter (· ≠ .invalid) with
  | none => exact blind_pure (hq.leads trivial)
  | some expected =>
    dsimp only
    split
    · refine (blind_quote (he _ (Option.mem_filter_iff.1 hx).1)).bind ?_
      rintro _ _ rfl
      exact (blind_report hq ..).imp fun _ _ h => h.imp False.elim
    · exact blind_pure (hq.leads trivial)

end Check

end FrontEnd
