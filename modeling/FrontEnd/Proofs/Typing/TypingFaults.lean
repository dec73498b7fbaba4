import FrontEnd.Proofs.Types.TableGrowth
import FrontEnd.Report.Queue
import FrontEnd.Typing.Lookup
import FrontEnd.Typing.Operators

/-! Looking something up about types fails only if one of those types is not there. -/

namespace FrontEnd

variable {α β : Type} {r : Except Fault α} {f : α → Except Fault β} {E F : Fault → Prop}
  {t : TypeTable} {a b id : TypeId}

/-- The faults of a computation are among these. -/
def Faults (r : Except Fault α) (E : Fault → Prop) : Prop := ∀ fault, r = .error fault → E fault

theorem faults_pure (a : α) : Faults (pure a) E := nofun

theorem faults_of_ok {a : α} (h : r = .ok a) : Faults r E := by
  subst h
  exact nofun

theorem Faults.bind (h : Faults r E) (hf : ∀ a, r = .ok a → Faults (f a) E) :
    Faults (r >>= f) E := by
  intro fault he
  cases r with
  | error e =>
    cases he
    exact h fault rfl
  | ok a => exact hf a rfl fault he

theorem faults_ite {p : Prop} [Decidable p] {s : Except Fault α} (h : Faults r E)
    (h' : Faults s E) : Faults (if p then r else s) E := by
  split
  · exact h
  · exact h'

theorem faults_allM {l : List α} {p : α → Except Fault Bool} (h : ∀ a ∈ l, Faults (p a) E) :
    Faults (l.allM p) E := by
  induction l with
  | nil => exact faults_pure _
  | cons a l ih =>
    simp only [List.allM]
    refine (h a (by simp)).bind fun found _ => ?_
    cases found with
    | true => exact ih fun a ha => h a (by simp [ha])
    | false => exact faults_pure _

theorem faults_mapM {l : List α} {p : α → Except Fault β} (h : ∀ a ∈ l, Faults (p a) E) :
    Faults (l.mapM p) E := by
  induction l with
  | nil => exact faults_pure _
  | cons a l ih =>
    rw [List.mapM_cons]
    refine (h a (by simp)).bind fun _ _ => ?_
    exact (ih fun a ha => h a (by simp [ha])).bind fun _ _ => faults_pure _

theorem faults_foldlM {l : List α} {g : β → α → Except Fault β} {init : β}
    (h : ∀ a ∈ l, ∀ b, Faults (g b a) E) : Faults (l.foldlM g init) E := by
  induction l generalizing init with
  | nil => exact faults_pure _
  | cons a l ih =>
    rw [List.foldlM_cons]
    exact (h a (by simp) init).bind fun _ _ => ih fun a ha => h a (by simp [ha])

/-! ### One type, and two -/

section

variable (ha : Faults (t.desc a) E) (hb : Faults (t.desc b) E)

include ha

theorem faults_kind : Faults (t.kind a) E := ha.bind fun _ _ => faults_pure _

theorem faults_rank? : Faults (t.rank? a) E := (faults_kind ha).bind fun _ _ => faults_pure _

theorem faults_isNumeric : Faults (t.isNumeric a) E :=
  (faults_rank? ha).bind fun _ _ => faults_pure _

theorem faults_isIntegral : Faults (t.isIntegral a) E :=
  (faults_rank? ha).bind fun _ _ => faults_pure _

theorem faults_function? : Faults (t.function? a) E :=
  (faults_kind ha).bind fun _ _ => faults_pure _

theorem faults_text (names : Interner) : Faults (t.text names a) E :=
  ha.bind fun _ _ => faults_pure _

theorem faults_describe (names : Interner) : Faults (t.describe names a) E := by
  refine ha.bind fun d _ => ?_
  cases d.kind.basic? <;> exact faults_pure _

theorem faults_checkUnary (op : UnaryOp) : Faults (checkUnary t op a) E := by
  refine faults_ite (faults_pure _) (Faults.bind ?_ fun _ _ =>
    faults_ite (faults_pure _) (faults_pure _))
  cases op with
  | neg | plus | preInc | preDec => exact faults_isNumeric ha
  | bitNot => exact faults_isIntegral ha
  | not => exact faults_pure _

include hb

theorem faults_equal : Faults (t.equal a b) E :=
  faults_ite (faults_pure _) (ha.bind fun _ _ => hb.bind fun _ _ => faults_pure _)

theorem faults_compatible : Faults (t.compatible a b) E := by
  refine (faults_equal ha hb).bind fun _ _ => faults_ite (faults_pure _) ?_
  refine faults_ite (faults_pure _) ((faults_rank? ha).bind fun _ _ => ?_)
  refine (faults_rank? hb).bind fun _ _ => ?_
  split <;> exact faults_pure _

theorem faults_wider : Faults (t.wider a b) E := by
  refine (faults_rank? ha).bind fun _ _ => (faults_rank? hb).bind fun _ _ => ?_
  split <;> exact faults_pure _

omit ha hb in
theorem faults_both {p : TypeId → Except Fault Bool} (ha : Faults (p a) E) (hb : Faults (p b) E) :
    Faults (OperatorGroup.both p a b) E :=
  ha.bind fun _ _ => faults_ite hb (faults_pure _)

theorem faults_group (group : OperatorGroup) : Faults (group.accepts t a b) E := by
  have hnumeric := faults_both (faults_isNumeric ha) (faults_isNumeric hb)
  have hintegral := faults_both (faults_isIntegral ha) (faults_isIntegral hb)
  cases group with
  | term | factor =>
    exact hnumeric.bind fun _ _ =>
      faults_ite ((faults_wider ha hb).bind fun _ _ => faults_pure _) (faults_pure _)
  | bitwise =>
    exact hintegral.bind fun _ _ =>
      faults_ite ((faults_wider ha hb).bind fun _ _ => faults_pure _) (faults_pure _)
  | equality =>
    refine hnumeric.bind fun _ _ => faults_ite (faults_pure _) ?_
    exact (faults_equal ha hb).bind fun _ _ => faults_ite (faults_pure _) (faults_pure _)
  | comparison => exact hnumeric.bind fun _ _ => faults_ite (faults_pure _) (faults_pure _)
  | logical => exact faults_pure _

theorem faults_checkBinary (op : BinaryOp) : Faults (checkBinary t op a b) E := by
  refine faults_ite (faults_pure _) ((faults_group ha hb _).bind fun found _ => ?_)
  cases found <;> exact faults_pure _

end

/-! ### Overloads -/

theorem faults_accepts {o : Overload} {args : List TypeId} (exact : Bool)
    (ho : ∀ type ∈ o.params, Faults (t.desc type) E) (ha : ∀ type ∈ args, Faults (t.desc type) E) :
    Faults (o.accepts t exact args) E := by
  refine faults_ite (faults_allM fun p hp => ?_) (faults_pure _)
  have hdeclared := ho _ (List.of_mem_zip hp).1
  have hactual := ha _ (List.of_mem_zip hp).2
  exact faults_ite (faults_equal hactual hdeclared) (faults_compatible hactual hdeclared)

theorem faults_sameParams {o p : Overload} (ho : ∀ type ∈ o.params, Faults (t.desc type) E)
    (hp : ∀ type ∈ p.params, Faults (t.desc type) E) : Faults (o.sameParams t p) E :=
  faults_ite (faults_allM fun _ hq => faults_equal (ho _ (List.of_mem_zip hq).1)
    (hp _ (List.of_mem_zip hq).2)) (faults_pure _)

theorem faults_extend {o : Overload} {chain : List Overload}
    (ho : ∀ type ∈ o.params, Faults (t.desc type) E)
    (hc : ∀ p ∈ chain, ∀ type ∈ p.params, Faults (t.desc type) E) :
    Faults (FuncTable.extend t o chain) E := by
  induction chain with
  | nil => exact faults_pure _
  | cons p chain ih =>
    refine (faults_sameParams (hc p (by simp)) ho).bind fun _ _ => faults_ite (faults_pure _) ?_
    exact (ih fun q hq => hc q (by simp [hq])).bind fun _ _ => faults_pure _

theorem faults_declare {funcs : FuncTable} {key : ScopedKey} {o : Overload}
    (ho : ∀ type ∈ o.params, Faults (t.desc type) E)
    (hf : ∀ p ∈ FuncTable.overloads funcs key, ∀ type ∈ p.params, Faults (t.desc type) E) :
    Faults (FuncTable.declare funcs t key o) E := by
  unfold FuncTable.declare
  unfold FuncTable.overloads at hf
  cases hc : funcs.get? key with
  | none => exact faults_pure _
  | some chain =>
    rw [hc] at hf
    exact (faults_extend ho hf).bind fun _ _ => faults_pure _

theorem faults_resolveCall_visible {env : Env} {name : Name} {args : List TypeId}
    (ho : ∀ v ∈ env.visible name, ∀ type ∈ v.1.params, Faults (env.types.desc type) E)
    (ha : ∀ type ∈ args, Faults (env.types.desc type) E) :
    Faults (env.resolveCall name args) E := by
  have hbest (exact : Bool) : Faults (env.best args exact (env.visible name)) E := by
    refine faults_foldlM fun v hv best => ?_
    refine (faults_accepts exact (ho v hv) ha).bind fun accepted _ => ?_
    cases accepted with
    | false => exact faults_pure _
    | true =>
      cases best with
      | none => exact faults_pure _
      | some r =>
        show Faults (if v.1.params.length ≤ r.matched then pure (some r) else pure _) E
        exact faults_ite (faults_pure _) (faults_pure _)
  refine (hbest true).bind fun found _ => ?_
  cases found with
  | some r => exact faults_pure _
  | none => exact hbest false

theorem faults_resolveCall {env : Env} {name : Name} {args : List TypeId}
    (ho : ∀ key, ∀ o ∈ FuncTable.overloads env.symbols.funcs key, ∀ type ∈ o.params,
      Faults (env.types.desc type) E)
    (ha : ∀ type ∈ args, Faults (env.types.desc type) E) :
    Faults (env.resolveCall name args) E := by
  refine faults_resolveCall_visible (fun v hv => ?_) ha
  obtain ⟨key, -, hv⟩ := List.mem_flatMap.1 hv
  obtain ⟨o, hmem, rfl⟩ := List.mem_map.1 hv
  exact ho key o hmem

/-! ### Composed texts -/

theorem Halt.ne_fault_of_liftCause {ε α : Type} {r : Except ε α} {e : Halt ε}
    (h : liftCause r = .error e) (fault : Fault) : e ≠ .fault fault := by
  cases r with
  | ok a => cases h
  | error cause =>
    obtain rfl := Except.error.inj h
    exact nofun

/-- Composing the text of a function type reads the types of its signature. -/
theorem faults_functionText {names : Interner} {scratch : Nat} {signature : Signature}
    (hp : ∀ type ∈ signature.params, Faults (t.desc type) E)
    (hr : Faults (t.desc signature.ret) E) {fault : Fault}
    (h : t.functionText names scratch signature = .error (.fault fault)) : E fault := by
  unfold TypeTable.functionText at h
  cases hm : signature.params.mapM (t.text names) with
  | error e =>
    rw [hm] at h
    cases h
    exact faults_mapM (fun type hmem => faults_text (hp type hmem) names) _ hm
  | ok params =>
    cases ht : t.text names signature.ret with
    | error e =>
      rw [hm, ht] at h
      cases h
      exact faults_text hr names _ ht
    | ok ret =>
      rw [hm, ht] at h
      simp only [Halt.liftFault, Bind.bind, Except.bind] at h
      exact absurd rfl (Halt.ne_fault_of_liftCause h fault)

/-- Composing a link name reads the types of the parameters. -/
theorem faults_linkName {names : Interner} {scratch : Nat} {name : Name} {params : List TypeId}
    {variadic : Bool} (hp : ∀ type ∈ params, Faults (t.desc type) E) {fault : Fault}
    (h : LinkName.make t names scratch name params variadic = .error (.fault fault)) : E fault := by
  have hdraft : Faults (LinkName.draft t names scratch name params variadic) E := by
    refine (faults_foldlM fun type hmem d => ?_).bind fun _ _ => faults_pure _
    exact faults_ite ((faults_text (hp type hmem) names).bind fun _ _ => faults_pure _)
      (faults_pure _)
  unfold LinkName.make at h
  cases hd : LinkName.draft t names scratch name params variadic with
  | error e =>
    rw [hd] at h
    cases h
    exact hdraft _ hd
  | ok draft =>
    rw [hd] at h
    exact absurd rfl (Halt.ne_fault_of_liftCause h fault)

/-! ### Reports -/

/-- A report fails only if its column is too great. -/
theorem Queue.faults_emitSpanned (hE : ∀ verb, E (.overflow verb)) (q : Queue)
    (r : Report) (lines : Lines) : Faults (q.emitSpanned r lines) E := by
  unfold Queue.emitSpanned
  cases r.labels.head? with
  | none => exact faults_pure _
  | some label =>
    refine Faults.bind ?_ fun _ _ => faults_pure _
    unfold Lines.locate
    dsimp only
    split
    · exact faults_pure _
    · rintro _ ⟨⟩
      exact hE _

end FrontEnd
