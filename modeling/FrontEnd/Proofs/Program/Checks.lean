import FrontEnd.Proofs.Program.Expressions
import FrontEnd.Proofs.Typing.StatementChecks

/-! Steps of two runs that check a complete expression, and fold it, each as it is told to. -/

namespace FrontEnd

theorem Branch.Retyped.roots_eq {b c : Branch} (h : b.Retyped c) :
    Branch.roots [c] = Branch.roots [b] := by
  induction b using induct generalizing c with
  | mk root node parts ih =>
    cases h with
    | @mk i x y _ cs _ _ _ _ hsame hparts =>
      rw [Tree.roots_mk, Tree.roots_mk]
      cases hl : x.kind.isLambda with
      | true => rw [hsame hl]
      | false =>
        refine congrArg _ ?_
        have hall := hparts hl
        clear hparts hsame hl
        induction hall with
        | nil => rfl
        | cons hb _ ih' =>
          rw [Tree.roots_cons, ih _ (by simp) hb, ih' fun p hp => ih p (by simp [hp]),
            ← Tree.roots_cons]

/-- Constants in sight have their types also where names are looked up. -/
theorem Sight.Agrees.resolveVar {env : Env} {f : Folder} {Γ : Sight} {name : Name} {v : Value}
    (h : Sight.Agrees env.symbols.vars f Γ) (hd : Γ.length = env.scope.depth + 1)
    (hc : Γ.constant? name = some v) : env.resolveVar name = some v.kind.type := by
  have hresolve := h.resolve hd name
  obtain ⟨d, hfind, hvalue⟩ := Option.bind_eq_some_iff.1 hc
  cases hr : VarTable.resolve env.symbols.vars name env.scope.depth with
  | none => simp [hr, hfind] at hresolve
  | some r =>
    obtain ⟨type, depth⟩ := r
    rw [hr] at hresolve
    obtain ⟨d', hfind', rfl, -⟩ := hresolve
    obtain rfl := Option.some.inj (hfind.symm.trans hfind')
    exact (env.resolveVar_of_resolve hr).trans (congrArg some (d.fits v hvalue).symm)

/-- Folding an expression on top of a forest: where it is off, nothing happens. -/
theorem Parse.fold_eq {s : ParseState} {b : Branch} {bs : List Branch} {i : ExprId}
    (h : s.tree.Holds (b :: bs)) (hb : b.root = .expr i) : ∃ v t b',
      Parse.fold i s = .ok v { s with tree := t } ∧ s.tree.Turns (b :: bs) t (b' :: bs) ∧
      Branch.Folds (s.folder.binding · s.scope.depth) b b' ∧ (s.folds = false → b' = b) ∧
      ∀ w, v = some w → b'.literal? = some w := by
  by_cases hf : s.folds = true
  · cases hrun : s.folder.fold s.scope.depth i s.tree with
    | error f t => exact ((Folder.meets_fold (.top [] bs) h hb).of_error hrun).elim
    | ok v t =>
      obtain ⟨b', hturns, hfolds, rfl⟩ := (Folder.meets_fold (.top [] bs) h hb).of_ok hrun
      refine ⟨_, t, b', ?_, hturns, hfolds, fun hoff => ?_, fun _ hw => hw⟩
      · simp only [Parse.fold, hf, if_true, hrun]
      · simp [hf] at hoff
  · exact ⟨none, s.tree, b, if_neg hf, h.turns, .same, fun _ => rfl, by simp⟩

namespace Pass

open Parse Link

variable {P : Pass} {s₁ s₂ : ParseState} {es : List Entry} {Γ : Sight} {os : List Overload}
  {b c : Branch} {bs cs : List Branch} {i j : ExprId} {a w : Window} {purpose : Purpose}
  {found : TypeId} {u₁ u₂ : CheckState} {α : Type}

/-- The types that there are. -/
abbrev Live (s : ParseState) (type : TypeId) : Prop := ∃ d, s.types.desc type = .ok d

theorem Base.fails {fault : Fault} (h : P.Base s₁ s₂) (hf : s₁.env.Fails (Live s₁) fault) :
    P.link.fails fault := by
  cases hf with
  | overflow verb => exact ⟨verb, rfl⟩
  | missing hs hd =>
    obtain ⟨d, hlive⟩ := hs.desc h.furnished fun _ hd => hd
    rw [hlive] at hd
    cases hd

/-- The states in which a check ends. -/
def checked (s : ParseState) (u : CheckState) : ParseState :=
  { s with tree := u.tree, reports := u.reports }

/-- A check that goes the same way in both runs. -/
theorem firm_check {p₁ p₂ : Env → Check α} {R : α → α → CheckState → CheckState → Prop}
    (h : P.link.Rel es s₁ s₂) (hs : Check.Steady s₁.env (p₁ s₁.env))
    (hp : Check.Together (s₁.env.Fails (Live s₁)) (p₁ s₁.env) (p₂ s₁.env) ⟨s₁.tree, s₁.reports⟩
      ⟨s₂.tree, s₁.reports⟩ R) (es' : List Entry) :
    P.link.Firm es' (check p₁) (check p₂) s₁ s₂ fun a b t₁ t₂ => ∃ u₁ u₂, R a b u₁ u₂ ∧
      checked s₁ u₁ = t₁ ∧ checked s₂ u₂ = t₂ ∧
      ∀ ids, s₁.tree.Comprises ids → u₁.tree.Comprises ids := by
  have hsame := h.same
  have henv : s₂.env = s₁.env := by
    simp only [ParseState.env, hsame.types, hsame.names, hsame.symbols, hsame.scope, hsame.lines,
      hsame.scratch]
  cases hp with
  | ok h₁ h₂ hr =>
    rename_i x y u₁ u₂
    have hrun₁ : check p₁ s₁ = .ok x (checked s₁ u₁) := by simp only [check, h₁, checked]
    have hrun₂ : check p₂ s₂ = .ok y (checked s₂ u₂) := by
      simp only [check, henv, ← hsame.reports, h₂, checked]
    exact .ok hrun₁ hrun₂
      ⟨u₁, u₂, hr, rfl, rfl, (hs.ok h₁ h.sound₁.tree h.sound₁.reports).comprises⟩
  | fault he h₁ h₂ =>
    rename_i fault u₁ u₂
    have hrun₁ : check p₁ s₁ = .error (.fault fault) (checked s₁ u₁) := by
      simp only [check, h₁, checked]
    have hrun₂ : check p₂ s₂ = .error (.fault fault) (checked s₂ u₂) := by
      simp only [check, henv, ← hsame.reports, h₂, checked]
    exact .fault hrun₁ hrun₂ (h.rel.1.fails he)

/-- Where nothing was reported, nothing was before. -/
theorem Quiet.of_leads {Q : Prop} {s : ParseState} {u : CheckState} (hq : P.Quiet (checked s u))
    (h : s.reports.Leads u.reports Q) : P.Quiet s ∧ Q :=
  ⟨⟨(h.quiet hq.1).1, hq.2⟩, (h.quiet hq.1).2⟩

theorem Base.checked (h : P.Base s₁ s₂) {Q : Prop} (hl : s₁.reports.Leads u₁.reports Q)
    (hr : u₁.reports = u₂.reports) : P.Base (checked s₁ u₁) (checked s₂ u₂) where
  same := { h.same with reports := hr }
  first := h.first
  second := h.second
  window := h.window
  named₁ := h.named₁
  named₂ := h.named₂
  furnished := h.furnished.mono (.refl _) id fun hq => (hq.of_leads hl).1
  returns := h.returns

theorem leads_checked {Q : Prop} {s : ParseState} {u : CheckState}
    (hl : s.reports.Leads u.reports Q) : (P.view s os).Leads (P.view (Pass.checked s u) os) :=
  ⟨.refl _, .refl _, fun hq => (Quiet.of_leads hq hl).1, List.Subset.refl _⟩

/-- Where nothing was reported, an expression that passed a check can be folded. -/
theorem Stands.verified (hst : P.Stands es Γ os bs cs s₁ s₂) (hb : P.Base s₁ s₂)
    (hq : P.Quiet s₁) (halike : b.Alike (P.Body (P.view s₁ os) Γ) c) (hchecked : b.Checked s₁.env)
    (hproper : c.Proper Γ) (hfound : b.type? = some found)
    (htype : ∀ t, purpose = .stored t → t = found ∨ P.link.knows t s₁)
    (htakes : found ≠ .invalid → s₁.env.types.Takes purpose.wanted found) :
    P.Verified (P.view s₁ os) Γ s₁.env purpose b c := by
  obtain ⟨hagrees, hlen⟩ := hst.sight hq
  have hsensible : s₁.env.Sensible P.types (· ∈ os) :=
    Env.sensible hb.furnished hq hq.2 (hst.known hq)
  have hcopy := halike.checked hchecked
  have hsettled (wanted : Option TypeId) : P.Settled (P.view s₁ os) wanted c := {
    fits := halike.settled hsensible hcopy hproper
      fun t b c hl => ⟨hl.uses.2 hq, (hl.settled hq).fits⟩
    guarded := halike.guarded hq.2 hcopy fun t b c hl => (hl.settled hq).guarded }
  have hcopied : c.type? = some found := halike.type_eq ▸ hfound
  exact {
    basics := hb.furnished.basics.basics
    checked := hcopy
    constants := fun name v hc => Sight.Agrees.resolveVar (by
      rw [ParseState.env, hb.same.symbols]
      exact hagrees) (by rw [ParseState.env, hb.same.scope]; exact hlen) hc
    proper := hproper
    settled := hsettled
    alike := halike
    type_eq := fun t ht => (htype t ht).imp (fun he : t = found => he ▸ hcopied) (·.plain)
    takes := fun t ht => by
      obtain rfl := Option.some.inj (ht.symm.trans hcopied)
      exact (htakes ((hsettled none).fits.type_ne_invalid ht)).mono hq.2 }

/-- What a check leaves of the last expression that was read. -/
theorem rel_checked (hb : P.Base s₁ s₂)
    (hst : P.Stands (.raw i j a w :: es) Γ os (b :: bs) (c :: cs) s₁ s₂)
    (hp : Pieces P (P.view s₁ os) Γ es bs cs) (hread : P.Read (P.view s₁ os) Γ i j a w b c)
    (hpassed : Check.Passed s₁.env (P.Body (P.view s₁ os) Γ) (.top [] bs) (.top [] cs) b c
      s₁.reports found u₁ u₂)
    (hcounts : ∀ ids, s₁.tree.Comprises ids → u₁.tree.Comprises ids)
    (htype : ∀ t, purpose = .stored t →
      s₁.env.Supplies (Live s₁) t ∧ (t = found ∨ P.link.knows t s₁))
    (htakes : s₁.reports.Leads u₁.reports
      (found ≠ .invalid → s₁.env.types.Takes purpose.wanted found)) :
    P.link.rel (.checked i j purpose :: es) (checked s₁ u₁) (checked s₂ u₂) := by
  obtain ⟨-, -, hreports, b', c', hleft, hright, halike, hrb, hrc, hfound, hleads⟩ := hpassed
  have hquiet (hq : P.Quiet (checked s₁ u₁)) : P.Quiet s₁ ∧ b'.Checked s₁.env :=
    hq.of_leads hleads
  have hverified (hq : P.Quiet (checked s₁ u₁)) :
      P.Verified (P.view s₁ os) Γ s₁.env purpose b' c' :=
    hst.verified hb (hquiet hq).1 halike (hquiet hq).2
      (hrc.proper (hread.proper (hquiet hq).1)) hfound (fun t ht => (htype t ht).2)
      (hq.of_leads htakes).2
  refine ⟨hb.checked hleads hreports, Γ, os, b' :: bs, c' :: cs, hleft, hright,
    ((leads_checked hleads).pieces hp).cons (.checked {
      left := hrb.root_eq.trans hread.left
      right := hrc.root_eq.trans hread.right
      span := halike.span_eq
      uses := fun t ht => ⟨(htype t ht).1.desc hb.furnished fun _ hd => hd, fun hq => ?_⟩
      verified := fun hq => ⟨s₁.env, (leads_checked hleads).verified (hverified hq)⟩ }),
    fun hq => hst.sight (hquiet hq).1, fun hq => hst.known (hquiet hq).1, fun hq o ho => ?_,
    fun hq => ?_, fun hq => hst.returns (hquiet hq).1⟩
  · rcases (htype t ht).2 with rfl | hk
    · exact ((hverified hq).settled none).fits.type_ne_invalid (halike.type_eq ▸ hfound)
    · exact hk.uses.2 (hquiet hq).1
  · obtain ⟨hsigned, hacc⟩ := hst.accounted (hquiet hq).1 o ho
    refine ⟨hsigned, hacc.imp (fun hmem => by simpa using hmem) fun ⟨s, hs, hd⟩ => ⟨s, ?_, hd⟩⟩
    rwa [Branch.stmts_cons, hrc.stmts_eq, ← Branch.stmts_cons]
  · have hcount := hcounts _ (hst.counts (hquiet hq).1)
    rwa [Tree.roots_cons, ← hrb.roots_eq, ← Tree.roots_cons] at hcount

/-- An expression that was read, and nothing above it. -/
theorem firm_checked {p₁ p₂ : Env → Check α} (purpose : α → Purpose)
    (h : P.link.Rel (.raw i j a w :: es) s₁ s₂) (hs : ∀ env, Check.Steady env (p₁ env))
    (hp : ∀ L hole₁ hole₂ b c, (∀ type b c, L type b c → Live s₁ type) →
      s₁.tree.Holds (hole₁.plug b) → s₂.tree.Holds (hole₂.plug c) → b.Alike L c →
      b.root = .expr i → c.root = .expr j → s₁.reports.Sound →
      Check.Together (s₁.env.Fails (Live s₁)) (p₁ s₁.env) (p₂ s₁.env) ⟨s₁.tree, s₁.reports⟩
        ⟨s₂.tree, s₁.reports⟩ fun x y u₁ u₂ => x = y ∧ ∃ found,
          (∀ t, purpose x = .stored t →
            s₁.env.Supplies (Live s₁) t ∧ (t = found ∨ P.link.knows t s₁)) ∧
          Check.Passed s₁.env L hole₁ hole₂ b c s₁.reports found u₁ u₂ ∧
          s₁.reports.Leads u₁.reports
            (found ≠ .invalid → s₁.env.types.Takes (purpose x).wanted found)) :
    P.link.Firm es (check p₁) (check p₂) s₁ s₂ fun x y t₁ t₂ =>
      x = y ∧ P.link.rel (.checked i j (purpose x) :: es) t₁ t₂ := by
  obtain ⟨hb, Γ, os, bs, cs, hst⟩ := h.rel
  obtain ⟨x, y, xs, ys, bs, cs, rfl, rfl, hpieces, -, hread⟩ := raw_on_top hst.pieces
  have htogether := hp (P.Body (P.view s₁ os) Γ) (.top [] bs) (.top [] cs) _ _
    (fun type b c hl => hl.uses.1) hst.left hst.right hread.alike hread.left hread.right
    h.sound₁.reports
  refine (firm_check h (hs _) htogether es).imp ?_
  rintro x _ _ _ ⟨u₁, u₂, ⟨rfl, found, hstored, hpassed, htakes⟩, rfl, rfl, hcounts⟩
  exact ⟨rfl, rel_checked hb hst hpieces hread hpassed hcounts hstored htakes⟩

/-- Nothing is wanted of an expression that may have any type. -/
theorem leads_free {L : TypeId → Branch → Branch → Prop} {hole₁ hole₂ : Hole} {q : Queue}
    {env : Env} (h : Check.Passed env L hole₁ hole₂ b c q found u₁ u₂) :
    q.Leads u₁.reports (found ≠ .invalid → env.types.Takes Purpose.free.wanted found) :=
  h.leads fun _ _ => nofun

theorem firm_infer (h : P.link.Rel (.raw i j a w :: es) s₁ s₂) :
    P.link.Firm es (check fun env => Check.infer env i) (check fun env => Check.infer env j) s₁ s₂
      fun _ _ t₁ t₂ => P.link.rel (.checked i j .free :: es) t₁ t₂ := by
  refine (firm_checked (fun _ => .free) h (fun _ => Check.steady_infer i)
    fun _ _ _ _ _ hM h₁ h₂ hbc hb hc hq => ?_).imp fun _ _ _ _ h => h.2
  exact (Check.together_inferred hM h₁ h₂ hbc hb hc hq).imp
    fun type _ _ _ ⟨he, _, hp⟩ => ⟨he, type, nofun, hp, leads_free hp⟩

theorem firm_print (h : P.link.Rel (.raw i j a w :: es) s₁ s₂) :
    P.link.Firm es (check fun env => Check.checkPrint env i)
      (check fun env => Check.checkPrint env j) s₁ s₂
      fun _ _ t₁ t₂ => P.link.rel (.checked i j .free :: es) t₁ t₂ := by
  refine (firm_checked (fun _ => .free) h (fun _ => Check.steady_checkPrint i)
    fun _ _ _ _ _ hM h₁ h₂ hbc hb hc hq => ?_).imp fun _ _ _ _ h => h.2
  exact (Check.together_checkPrint hM h₁ h₂ hbc hb hc hq).imp
    fun _ _ _ _ ⟨type, hp⟩ => ⟨rfl, type, nofun, hp, leads_free hp⟩

theorem firm_condition (h : P.link.Rel (.raw i j a w :: es) s₁ s₂) :
    P.link.Firm es (check fun env => Check.checkCondition env i)
      (check fun env => Check.checkCondition env j) s₁ s₂
      fun _ _ t₁ t₂ => P.link.rel (.checked i j .free :: es) t₁ t₂ := by
  refine (firm_checked (fun _ => .free) h (fun _ => Check.steady_checkCondition i)
    fun _ _ _ _ _ hM h₁ h₂ hbc hb hc hq => ?_).imp fun _ _ _ _ h => h.2
  exact (Check.together_checkCondition hM h₁ h₂ hbc hb hc hq).imp
    fun _ _ _ _ ⟨type, hp⟩ => ⟨rfl, type, nofun, hp, leads_free hp⟩

/-- The types that a return must fit are there. -/
theorem Base.supplies_return (h : P.Base s₁ s₂) :
    ∀ type, s₁.returns.head? = some type → s₁.env.Supplies (Live s₁) type :=
  fun type ht => .lambda (h.returns type (List.mem_of_mem_head? ht))

theorem firm_returnValue (span : Span) (h : P.link.Rel (.raw i j a w :: es) s₁ s₂) :
    P.link.Firm es (check fun env => Check.checkReturn env (some i) s₁.returns.head? span)
      (check fun env => Check.checkReturn env (some j) s₁.returns.head? span) s₁ s₂
      fun _ _ t₁ t₂ => P.link.rel (.checked i j (.returned s₁.returns.head?) :: es) t₁ t₂ := by
  refine (firm_checked (fun _ => .returned s₁.returns.head?) h
    (fun _ => Check.steady_checkReturn ..) fun _ _ _ _ _ hM h₁ h₂ hbc hb hc hq => ?_).imp
    fun _ _ _ _ h => h.2
  exact (Check.together_checkReturn hM h₁ h₂ hbc hb hc hq span h.rel.1.supplies_return).imp
    fun _ _ _ _ ⟨type, hp, htakes⟩ => ⟨rfl, type, nofun, hp, htakes⟩

theorem firm_initializer {declared : TypeId} (name : Name)
    (h : P.link.Rel (.raw i j a w :: es) s₁ s₂)
    (hd : declared = .invalid ∨ P.link.knows declared s₁) :
    P.link.Firm es (check fun env => Check.checkInitializer env name declared i)
      (check fun env => Check.checkInitializer env name declared j) s₁ s₂
      fun x y t₁ t₂ => x = y ∧ P.link.rel (.checked i j (.stored x) :: es) t₁ t₂ := by
  have hsupplies (hne : declared ≠ .invalid) : s₁.env.Supplies (Live s₁) declared :=
    .lambda (hd.resolve_left hne).uses.1
  refine firm_checked .stored h (fun _ => Check.steady_checkInitializer ..)
    fun _ _ _ _ _ hM h₁ h₂ hbc hb hc hq => ?_
  refine (Check.together_checkInitializer hM h₁ h₂ hbc hb hc hq name hsupplies).imp ?_
  rintro stored _ _ _ ⟨he, hs, type, hstored, hp, hfits⟩
  refine ⟨he, type, ?_, hp, hfits.imp fun hc _ t ht _ => ?_⟩
  · rintro _ ⟨⟩
    refine ⟨hs, hstored.imp_right ?_⟩
    rintro ⟨hne, rfl⟩
    exact hd.resolve_left hne
  · obtain rfl := Option.some.inj ht
    exact hc

theorem firm_bareReturn (span : Span) (h : P.link.Rel es s₁ s₂) :
    P.link.Firm es (check fun env => Check.checkReturn env none s₁.returns.head? span)
      (check fun env => Check.checkReturn env none s₁.returns.head? span) s₁ s₂
      fun _ _ t₁ t₂ => P.link.rel es t₁ t₂ := by
  obtain ⟨hb, Γ, os, bs, cs, hst⟩ := h.rel
  have hblind := Check.blind_checkReturn h.sound₁.reports span hb.supplies_return
  refine (firm_check h (Check.steady_checkReturn ..) (hblind.together s₁.tree s₂.tree) es).imp ?_
  rintro _ _ _ _ ⟨_, _, ⟨-, r, rfl, rfl, hleads⟩, rfl, rfl, -⟩
  have hquiet (hq : P.Quiet (checked s₁ ⟨s₁.tree, r⟩)) : P.Quiet s₁ := (hq.of_leads hleads).1
  exact ⟨hb.checked hleads rfl, Γ, os, bs, cs, hst.left, hst.right,
    (leads_checked hleads).pieces hst.pieces, fun hq => hst.sight (hquiet hq),
    fun hq => hst.known (hquiet hq), fun hq => hst.accounted (hquiet hq),
    fun hq => hst.counts (hquiet hq), fun hq => hst.returns (hquiet hq)⟩

/-! ### Folding -/

variable {b' c' : Branch} {v : View} {value : Option Value}
  {bindings bindings' : Name → Option Value}
  {t u : Tree}

/-- An expression that was checked and then folded. -/
theorem Checked.finished (h : P.Checked v Γ i j purpose b c) (hb : Branch.Folds bindings b b')
    (hc : Branch.Folds bindings' c c') (hsame : P.first = false → b' = b)
    (hbound : v.quiet → ∀ name w, Γ.constant? name = some w → bindings' name = some w)
    (hvalue : ∀ w, value = some w → c'.literal? = some w) (ht : t.Holds (b :: bs)) :
    P.Finished v Γ i j value purpose b' c' where
  left := hb.root_eq.trans h.left
  right := hc.root_eq.trans h.right
  span := hb.span_eq.trans (h.span.trans hc.span_eq.symm)
  uses := h.uses
  settled hq wanted := by
    obtain ⟨env, hv⟩ := h.verified hq
    have hconsults : Branch.Consults env Γ bindings' :=
      fun name w hw => ⟨hbound hq name w hw, hv.constants name w hw⟩
    exact ⟨hc.settled hv.basics hconsults hv.checked hv.proper (hv.settled wanted).fits,
      hc.guarded hv.basics hconsults hv.checked hv.proper (hv.settled wanted).guarded⟩
  folded hq hf := by
    obtain ⟨env, hv⟩ := h.verified hq
    rw [hsame hf]
    exact hc.folded hv.alike hv.basics
      (fun name w hw => ⟨hbound hq name w hw, hv.constants name w hw⟩) hv.checked hv.proper
      fun _ _ _ hl => hl.folded hq hf
  value_eq hq hf w hw := by
    obtain ⟨env, hv⟩ := h.verified hq
    rw [hsame hf]
    exact hc.literal_value hv.alike
      (fun name w hw => ⟨hbound hq name w hw, hv.constants name w hw⟩) hv.proper
      (ht.sublist (List.singleton_sublist.2 (by simp))) (hvalue w hw)
  type_eq hq w found hw hfound := by
    obtain ⟨env, hv⟩ := h.verified hq
    have hconsults : Branch.Consults env Γ bindings' :=
      fun name w hw => ⟨hbound hq name w hw, hv.constants name w hw⟩
    have htype := hc.type_eq hv.basics hconsults hv.checked hv.proper
    have hsettled := hc.settled hv.basics hconsults hv.checked hv.proper
      (hv.settled none).fits
    refine (hv.type_eq found hfound).imp_left fun he => ?_
    exact hsettled.type_of_literal (hvalue w hw) (htype.trans he)
  takes hq found hfound := by
    obtain ⟨env, hv⟩ := h.verified hq
    have htype := hc.type_eq hv.basics
      (fun name w hw => ⟨hbound hq name w hw, hv.constants name w hw⟩) hv.checked hv.proper
    exact hv.takes found (htype.symm.trans hfound)

theorem firm_fold (h : P.link.Rel (.checked i j purpose :: es) s₁ s₂) :
    P.link.Firm es (Parse.fold i) (Parse.fold j) s₁ s₂ fun v w t₁ t₂ =>
      P.link.rel (.folded i j v w purpose :: es) t₁ t₂ := by
  obtain ⟨hb, Γ, os, bs, cs, hst⟩ := h.rel
  obtain ⟨hleft, hright, hp, hsight, hknown, hacc, hcounts, hret⟩ := hst
  cases hp with
  | @cons Γ _ _ _ _ _ bs cs hp hx =>
    cases hx with
    | @checked _ _ _ b c hchecked =>
      obtain ⟨v, t, b', hrun₁, hturns, hfolds, hsame, -⟩ := fold_eq hleft hchecked.left
      obtain ⟨w, u, c', hrun₂, hturns', hfolds', -, hvalue⟩ := fold_eq hright hchecked.right
      have hfinished := hchecked.finished hfolds hfolds' (fun hf => hsame (hb.first.trans hf))
        (fun hq name w hw => (hsight hq).1.binding (hsight hq).2 hw) hvalue hleft
      refine .ok hrun₁ hrun₂ ⟨hb.trees, Γ, os, b' :: bs, c' :: cs, hturns.holds, hturns'.holds,
        hp.cons (.folded hfinished), hsight, hknown, fun hq o ho => ?_,
        fun hq => hturns.counts (hcounts hq), hret⟩
      obtain ⟨hsigned, hdone⟩ := hacc hq o ho
      refine ⟨hsigned, hdone.imp (fun hmem => by simpa using hmem) fun ⟨s, hs, hd⟩ => ⟨s, ?_, hd⟩⟩
      rwa [Branch.stmts_cons, hfolds'.stmts_eq, ← Branch.stmts_cons]

theorem firm_span {v w : Option Value} (h : P.link.Rel (.folded i j v w purpose :: es) s₁ s₂) :
    P.link.Firm es (Parse.expr i) (Parse.expr j) s₁ s₂ fun x y t₁ t₂ =>
      x.span = y.span ∧ s₁ = t₁ ∧ s₂ = t₂ := by
  obtain ⟨hb, Γ, os, bs, cs, hst⟩ := h.rel
  obtain ⟨hleft, hright, hp, -, -, -, -, -⟩ := hst
  cases hp with
  | cons hp hx =>
    cases hx with
    | folded hfinished =>
      obtain ⟨x, xs, rfl⟩ := hleft.exists_expr hfinished.left
      obtain ⟨y, ys, rfl⟩ := hright.exists_expr hfinished.right
      refine (firm_expr hleft hright).imp ?_
      rintro _ _ _ _ ⟨rfl, rfl, rfl, rfl⟩
      exact ⟨Option.some.inj hfinished.span, rfl, rfl⟩

end Pass

end FrontEnd
