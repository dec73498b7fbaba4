import FrontEnd.Proofs.Constant.Evaluation
import FrontEnd.Proofs.Symbol.Sight
import FrontEnd.Proofs.Typing.Inference
import FrontEnd.Proofs.Typing.TypingGrowth

/-!
What checking makes of an expression, told of the types in its nodes alone. The table of types may
be a later one, and the overloads may be any that were declared.
-/

namespace FrontEnd

/-- What the type of an expression has to do with its kind, given the types of its parts. -/
def Expr.Suits (types : TypeTable) (declared : Overload → Prop) (e : Expr)
    (parts : List TypeId) : Prop :=
  match e.kind with
  | .error => False
  | .literal value => e.type = value.kind.type
  | .str _ => e.type = .cstring
  | .group _ => parts = [e.type]
  | .unary op _ => ∃ operand, parts = [operand] ∧
    checkUnary types op operand = .ok (.accepted e.type)
  | .binary op _ _ => ∃ left right, parts = [left, right] ∧
    checkBinary types op left right = .ok (.accepted e.type)
  | .assign .. => ∃ value, parts = [e.type, value]
  | .call _ _ mangled => ∃ o : Overload, mangled = some o.mangled ∧ declared o ∧
    ∃ exact, o.accepts types exact parts = .ok true
  | .var _ | .member .. | .lambda .. => True

theorem Expr.Suits.mono {types : TypeTable} {declared declared' : Overload → Prop} {e : Expr}
    {parts : List TypeId} (h : e.Suits types declared parts)
    (hd : ∀ o, declared o → declared' o) : e.Suits types declared' parts := by
  unfold Suits at h ⊢
  split at h <;> first | exact h | skip
  obtain ⟨o, hm, ho, haccepts⟩ := h
  exact ⟨o, hm, hd o ho, haccepts⟩

namespace Branch

variable {types : TypeTable} {declared declared' : Overload → Prop} {b c : Branch}
  {bs : List Branch}
  {root : NodeId} {e : Expr} {s : Stmt} {parts : List Branch}

/-- An expression with a type that suits its kind and its parts, or a statement that is no error. -/
def Fits (types : TypeTable) (declared : Overload → Prop) : Branch → Prop
  | ⟨_, .expr e, parts⟩ => e.type ≠ .invalid ∧ e.Suits types declared (parts.filterMap type?)
  | ⟨_, .stmt s, _⟩ => s.kind ≠ .error

/-- All nodes in a branch, also those in function bodies, fit. -/
def Settled (types : TypeTable) (declared : Overload → Prop) (b : Branch) : Prop :=
  ∀ c ∈ b.all, c.Fits types declared

theorem Settled.mono (h : b.Settled types declared) (hd : ∀ o, declared o → declared' o) :
    b.Settled types declared' := by
  intro c hc
  have hfits := h c hc
  obtain ⟨root, node, parts⟩ := c
  cases node with
  | stmt s => exact hfits
  | expr e => exact ⟨hfits.1, hfits.2.mono hd⟩

theorem settled_iff : b.Settled types declared ↔
    b.Fits types declared ∧ ∀ p ∈ b.parts, p.Settled types declared := by
  rw [Settled, all_eq b, List.forall_mem_cons]
  refine and_congr_right fun _ =>
    ⟨fun h p hp c hc => h c (mem_allIn.2 ⟨p, hp, hc⟩), fun h c hc => ?_⟩
  obtain ⟨p, hp, hc⟩ := mem_allIn.1 hc
  exact h p hp c hc

theorem Settled.type_ne_invalid {type : TypeId} (h : b.Settled types declared)
    (ht : b.type? = some type) : type ≠ .invalid := by
  obtain ⟨root, node, parts⟩ := b
  cases node with
  | stmt s => cases ht
  | expr e =>
    obtain rfl := Option.some.inj ht
    exact (h _ (mem_all_self _)).1

/-- A statement settles with its parts. -/
theorem settled_stmt (hs : s.kind ≠ .error) (h : ∀ p ∈ parts, p.Settled types declared) :
    Settled types declared ⟨root, .stmt s, parts⟩ :=
  settled_iff.2 ⟨hs, h⟩

/-! ### Declarations in a branch -/

def stmt? : Branch → Option Stmt
  | ⟨_, .stmt s, _⟩ => some s
  | _ => none

/-- All statements in a forest. -/
def stmts (bs : List Branch) : List Stmt := (allIn bs).filterMap stmt?

@[simp] theorem stmts_nil : stmts [] = [] := by simp [stmts]

theorem stmts_cons : stmts (b :: bs) = stmts [b] ++ stmts bs := by simp [stmts]

theorem stmts_append {xs ys : List Branch} : stmts (xs ++ ys) = stmts xs ++ stmts ys := by
  simp [stmts]

theorem stmts_expr : stmts [⟨root, .expr e, parts⟩] = stmts parts := by
  rw [stmts, allIn_cons, allIn_nil, List.append_nil, all_mk, List.filterMap_cons_none rfl, stmts]

theorem stmts_stmt : stmts [⟨root, .stmt s, parts⟩] = s :: stmts parts := by
  rw [stmts, allIn_cons, allIn_nil, List.append_nil, all_mk, List.filterMap_cons]
  rfl

theorem stmts_perm {xs ys : List Branch} (h : xs.Perm ys) : (stmts xs).Perm (stmts ys) :=
  (allIn_perm h).filterMap stmt?

theorem stmts_congr {R : Branch → Branch → Prop} (h : List.Forall₂ R bs parts)
    (hR : ∀ b c, b ∈ bs → R b c → stmts [c] = stmts [b]) : stmts parts = stmts bs := by
  induction h with
  | nil => rfl
  | cons hbc _ ih =>
    rw [stmts_cons, hR _ _ (by simp) hbc, ih fun b c hb => hR b c (by simp [hb]), ← stmts_cons]

/-- Checking leaves statements alone. -/
theorem Retyped.stmts_eq (h : Retyped b c) : stmts [c] = stmts [b] := by
  induction b using induct generalizing c with
  | mk root node parts ih =>
    cases h with
    | @mk i x y bs cs hk ha hc hs hl hp =>
      rw [stmts_expr, stmts_expr]
      cases hlam : x.kind.isLambda with
      | true => rw [hl hlam]
      | false => exact stmts_congr (hp hlam) fun b c hb hbc => ih b hb hbc

end Branch

/-- What calls go by is as the type of the function has it. -/
def Overload.Signed (types : TypeTable) (o : Overload) : Prop :=
  ∃ signature, types.function? o.type = .ok (some signature) ∧ o.params = signature.params ∧
    o.variadic = signature.variadic

/-- The statement with the link name and the type of an overload. -/
def Stmt.Declares (s : Stmt) (o : Overload) : Prop :=
  ∃ name body isNative, s.kind = .funcDecl name o.mangled o.type body isNative

/-! ### Calls -/

namespace Env

variable {env : Env} {args : List TypeId} {exact : Bool} {visible : List (Overload × Nat)}
  {r : Resolved} {name : Name}

/-- One more overload is tried. -/
def weigh (env : Env) (args : List TypeId) (exact : Bool) (best : Option Resolved) :
    Overload × Nat → Except Fault (Option Resolved)
  | (o, depth) => do
    if ← o.accepts env.types exact args then
      match best with
      | some r => if o.params.length ≤ r.matched then return best
      | none => pure ()
      return some ⟨o.mangled, o.ret, o.params.length, depth⟩
    return best

theorem weigh_ok {best : Option Resolved} {v : Overload × Nat}
    (h : env.weigh args exact best v = .ok (some r)) : best = some r ∨
      r.mangled = v.1.mangled ∧ r.ret = v.1.ret ∧ v.1.accepts env.types exact args = .ok true := by
  obtain ⟨o, depth⟩ := v
  unfold weigh at h
  cases ha : o.accepts env.types exact args with
  | error f => simp [ha, Bind.bind, Except.bind] at h
  | ok accepts =>
    cases accepts with
    | false =>
      simp only [ha, Bind.bind, Except.bind, Bool.false_eq_true, if_false] at h
      exact .inl (Except.ok.inj h)
    | true =>
      simp only [ha, Bind.bind, Except.bind, if_true] at h
      have hnew (h : Except.ok (ε := Fault) (some (Resolved.mk o.mangled o.ret o.params.length
          depth)) = .ok (some r)) : r.mangled = o.mangled ∧ r.ret = o.ret := by
        cases h
        exact ⟨rfl, rfl⟩
      cases best with
      | none => exact .inr ⟨(hnew h).1, (hnew h).2, rfl⟩
      | some best =>
        dsimp only at h
        split at h
        · exact .inl (Except.ok.inj h)
        · exact .inr ⟨(hnew h).1, (hnew h).2, rfl⟩

theorem best_ok (h : env.best args exact visible = .ok (some r)) : ∃ v ∈ visible,
    r.mangled = v.1.mangled ∧ r.ret = v.1.ret ∧ v.1.accepts env.types exact args = .ok true := by
  suffices hfold : ∀ init : Option Resolved, visible.foldlM (env.weigh args exact) init =
      .ok (some r) → init = some r ∨ ∃ v ∈ visible, r.mangled = v.1.mangled ∧ r.ret = v.1.ret ∧
        v.1.accepts env.types exact args = .ok true by
    exact (hfold none h).resolve_left nofun
  clear h
  induction visible with
  | nil =>
    intro init h
    exact .inl (Except.ok.inj h)
  | cons v visible ih =>
    intro init h
    rw [List.foldlM_cons] at h
    cases hv : env.weigh args exact init v with
    | error f => simp [hv, Bind.bind, Except.bind] at h
    | ok next =>
      rw [hv] at h
      rcases ih next h with rfl | ⟨u, hu, hr⟩
      · exact (weigh_ok hv).imp id fun hr => ⟨v, by simp, hr⟩
      · exact .inr ⟨u, by simp [hu], hr⟩

/-- The overload of a call is one of those in the tables, and accepts the arguments. -/
theorem resolveCall_ok (h : env.resolveCall name args = .ok (some r)) : ∃ key, ∃ o ∈
    FuncTable.overloads env.symbols.funcs key, r.mangled = o.mangled ∧ r.ret = o.ret ∧
      ∃ exact, o.accepts env.types exact args = .ok true := by
  have hvisible {exact : Bool} (h : env.best args exact (env.visible name) = .ok (some r)) :
      ∃ key, ∃ o ∈ FuncTable.overloads env.symbols.funcs key, r.mangled = o.mangled ∧
        r.ret = o.ret ∧ ∃ exact, o.accepts env.types exact args = .ok true := by
    obtain ⟨v, hmem, hm, hr, ha⟩ := best_ok h
    obtain ⟨key, -, hmem⟩ := List.mem_flatMap.1 hmem
    obtain ⟨o, ho, rfl⟩ := List.mem_map.1 hmem
    exact ⟨key, o, ho, hm, hr, exact, ha⟩
  unfold resolveCall at h
  cases he : env.best args true (env.visible name) with
  | error f => simp [he, Bind.bind, Except.bind] at h
  | ok found =>
    simp only [he, Bind.bind, Except.bind] at h
    cases found with
    | none => exact hvisible h
    | some r' =>
      obtain rfl := Option.some.inj (Except.ok.inj h)
      exact hvisible he

end Env

/-! ### From the checker's notes -/

/-- What checking consults holds nothing invalid. -/
structure Env.Sensible (env : Env) (types : TypeTable) (declared : Overload → Prop) : Prop where
  grows : env.types.Grows types
  basic : ∀ id b, env.types.kind id = .ok (.basic b) → id = b.id
  var : ∀ name type, env.resolveVar name = some type → type ≠ .invalid
  named : ∀ name type, env.resolveType name = some type → type ≠ .invalid
  field : ∀ id name fields, env.types.kind id = .ok (.struct name fields) →
    ∀ field ∈ fields, field.type ≠ .invalid
  overload : ∀ key, ∀ o ∈ FuncTable.overloads env.symbols.funcs key,
    declared o ∧ o.ret ≠ .invalid

section

variable {env : Env} {types : TypeTable} {declared : Overload → Prop} {e : Expr} {tys : List TypeId}

theorem unary_ne_invalid {op : UnaryOp} {operand type : TypeId} (h : operand ≠ .invalid)
    (hc : checkUnary types op operand = .ok (.accepted type)) : type ≠ .invalid := by
  unfold checkUnary at hc
  rw [if_neg h] at hc
  cases ha : op.accepts types operand with
  | error f => simp [ha, Bind.bind, Except.bind] at hc
  | ok fits =>
    cases fits <;> simp [ha, Bind.bind, Except.bind, Pure.pure, Except.pure] at hc
    exact hc ▸ h

theorem binary_ne_invalid {op : BinaryOp} {left right type : TypeId} (hl : left ≠ .invalid)
    (hr : right ≠ .invalid) (hc : checkBinary types op left right = .ok (.accepted type)) :
    type ≠ .invalid := by
  unfold checkBinary at hc
  dsimp only at hc
  rw [if_neg (not_or.2 ⟨hl, hr⟩)] at hc
  cases ha : (OperatorGroup.of op).accepts types left right with
  | error f => simp [ha, Bind.bind, Except.bind] at hc
  | ok found =>
    cases found <;> simp [ha, Bind.bind, Except.bind, Pure.pure, Except.pure] at hc
    subst hc
    rcases OperatorGroup.type_of_accepts ha with (rfl | rfl) | rfl
    · exact hl
    · exact hr
    · decide

/-- What was noted of a node while it was checked. -/
theorem Typed.suits (henv : env.Sensible types declared) (h : Typed env e tys)
    (ht : ∀ type ∈ tys, type ≠ .invalid) (he : e.kind ≠ .error) :
    e.type ≠ .invalid ∧ e.Suits types declared tys := by
  unfold Expr.Suits
  cases h with
  | error hk => exact absurd hk he
  | literal hk htype =>
    rw [hk]
    exact ⟨htype ▸ ValueKind.type_ne_invalid _, htype⟩
  | str hk htype =>
    rw [hk]
    exact ⟨htype ▸ by decide, htype⟩
  | var hk hr =>
    rw [hk]
    exact ⟨henv.var _ _ hr, trivial⟩
  | typeName hk _ hr =>
    rw [hk]
    exact ⟨henv.named _ _ hr, trivial⟩
  | group hk =>
    rw [hk]
    exact ⟨ht _ (by simp), rfl⟩
  | unary hk hc =>
    rw [hk]
    exact ⟨unary_ne_invalid (ht _ (by simp)) hc, _, rfl, henv.grows.stays_unary _ _ hc⟩
  | binary hk hc =>
    rw [hk]
    exact ⟨binary_ne_invalid (ht _ (by simp)) (ht _ (by simp)) hc, _, _, rfl,
      henv.grows.stays_binary _ _ hc⟩
  | assign hk =>
    rw [hk]
    exact ⟨ht _ (by simp), _, rfl⟩
  | call hk hr htype =>
    obtain ⟨key, o, ho, hm, hret, exact, ha⟩ := Env.resolveCall_ok hr
    obtain ⟨hdeclared, hne⟩ := henv.overload key o ho
    rw [hk]
    exact ⟨by rwa [htype, hret], o, by rw [hm], hdeclared, exact,
      henv.grows.stays_accepts _ _ _ _ ha⟩
  | @member i field object hk hm =>
    rw [hk]
    refine ⟨?_, trivial⟩
    generalize e.type = type at hm
    cases hm with
    | invalid hkind => exact absurd (henv.basic _ _ hkind) (ht _ (by simp))
    | field hkind hmem => exact henv.field _ _ _ hkind _ hmem
    | variant => exact ht _ (by simp)

end

/-- What was noted of a node does not depend on handles. -/
theorem Typed.matches {env : Env} {x y : Expr} {tys : List TypeId} (h : Typed env x tys)
    (hk : x.kind.Matches y.kind) (ht : x.type = y.type) : Typed env y tys := by
  obtain ⟨kind, type, _, _, _⟩ := y
  obtain rfl : x.type = type := ht
  cases h with
  | error hx => rw [hx] at hk; cases hk; exact .error rfl
  | literal hx htype => rw [hx] at hk; cases hk; exact .literal rfl htype
  | str hx htype => rw [hx] at hk; cases hk; exact .str rfl htype
  | var hx hr => rw [hx] at hk; cases hk; exact .var rfl hr
  | typeName hx hnone hr => rw [hx] at hk; cases hk; exact .typeName rfl hnone hr
  | group hx => rw [hx] at hk; cases hk; exact .group rfl
  | unary hx hc => rw [hx] at hk; cases hk; exact .unary rfl hc
  | binary hx hc => rw [hx] at hk; cases hk; exact .binary rfl hc
  | assign hx hs hc => rw [hx] at hk; cases hk; exact .assign rfl hs hc
  | call hx hr htype => rw [hx] at hk; cases hk; exact .call rfl hr htype
  | member hx hm => rw [hx] at hk; cases hk; exact .member rfl hm

namespace Branch

variable {L : TypeId → Branch → Branch → Prop} {env : Env} {types : TypeTable}
  {declared : Overload → Prop} {Γ : Sight} {b c p : Branch} {i : ExprId} {e : Expr}
  {parts : List Branch}

/-- Outside function bodies no expression is an error, and every name that is flagged as a constant
stands for one in sight. -/
inductive Proper (Γ : Sight) : Branch → Prop
  | mk {i : ExprId} {e : Expr} {parts : List Branch} : e.kind ≠ .error →
    (∀ name, e.kind = .var name → e.isConstant = true → ∃ v, Γ.constant? name = some v) →
    (e.kind.isLambda = false → ∀ p ∈ parts, Proper Γ p) → Proper Γ ⟨.expr i, .expr e, parts⟩

theorem Proper.part (h : Proper Γ ⟨.expr i, .expr e, parts⟩) (hl : e.kind.isLambda = false)
    (hp : p ∈ parts) : p.Proper Γ := by
  cases h with
  | mk _ _ hparts => exact hparts hl p hp

theorem exists_mem_of_forall₂ {R : Branch → Branch → Prop} {bs cs : List Branch}
    (h : List.Forall₂ R bs cs) (hc : c ∈ cs) : ∃ b ∈ bs, R b c := by
  induction h with
  | nil => cases hc
  | @cons b d bs cs hbd _ ih =>
    rcases List.mem_cons.1 hc with rfl | hc
    · exact ⟨b, by simp, hbd⟩
    · obtain ⟨x, hx, hr⟩ := ih hc
      exact ⟨x, by simp [hx], hr⟩

theorem unlinked_inj {k k' : ExprKind} (h : k'.unlinked = k.unlinked) :
    k'.isLambda = k.isLambda ∧ (k' = .error ↔ k = .error) ∧
      ∀ name, k' = .var name ↔ k = .var name := by
  cases k <;> cases k' <;> simp_all [ExprKind.unlinked, ExprKind.isLambda]

theorem Retyped.proper (h : Retyped b c) (hb : b.Proper Γ) : c.Proper Γ := by
  induction b using induct generalizing c with
  | mk root node parts ih =>
    cases h with
    | mk hk _ hc _ _ hp =>
      obtain ⟨hl, herror, hvar⟩ := unlinked_inj hk
      obtain ⟨he, hn, hparts⟩ := hb
      refine .mk (fun h => he (herror.1 h)) (fun name hk' hflag =>
        hn name ((hvar name).1 hk') (hc ▸ hflag)) fun hlam q hq => ?_
      rw [hl] at hlam
      obtain ⟨p, hp, hpq⟩ := exists_mem_of_forall₂ (hp hlam) hq
      exact ih p hp hpq (hparts hlam p hp)

/-- What was noted of one branch holds of one that is alike. -/
theorem Alike.checked (h : Alike L b c) (hb : b.Checked env) : c.Checked env := by
  induction b using induct generalizing c with
  | mk root node parts ih =>
    cases h with
    | @expr i j x y bs cs hk hl ht hs hp =>
      obtain ⟨tys, htypes, htyped, hparts⟩ := hb.of_node hl
      have htypes' : cs.map type? = tys.map some := by
        rw [← htypes]
        clear htypes htyped hparts ih hb
        induction hp with
        | nil => rfl
        | cons hpq _ ihp => rw [List.map_cons, List.map_cons, ihp, hpq.type_eq]
      refine .node (hk.isLambda ▸ hl) htypes' (htyped.matches hk ht) fun q hq => ?_
      obtain ⟨p, hpmem, hpq⟩ := exists_mem_of_forall₂ hp hq
      exact ih p hpmem hpq (hparts p hpmem)
    | lambda hx hy ht hs _ =>
      cases hb with
      | node hl => simp [hx, ExprKind.isLambda] at hl
      | lambda hk hty =>
        rw [hx] at hk
        cases hk
        exact .lambda hy (ht ▸ hty)

/-- A checked expression without an error fits, if the bodies of its lambdas do. -/
theorem Alike.settled (h : Alike L b c) (henv : env.Sensible types declared)
    (hc : c.Checked env) (hp : c.Proper Γ)
    (hL : ∀ type b c, L type b c → type ≠ .invalid ∧ c.Settled types declared) :
    c.Settled types declared := by
  suffices hall : c.Settled types declared ∧ ∀ type, c.type? = some type → type ≠ .invalid from
    hall.1
  induction b using induct generalizing c with
  | mk root node parts ih =>
    cases h with
    | @expr i j x y bs cs hk hl ht hs hparts =>
      have hly : y.kind.isLambda = false := hk.isLambda ▸ hl
      obtain ⟨tys, htypes, htyped, hchecked⟩ := hc.of_node hly
      have hih (q : Branch) (hq : q ∈ cs) : q.Settled types declared ∧
          ∀ type, q.type? = some type → type ≠ .invalid := by
        obtain ⟨p, hpmem, hpq⟩ := exists_mem_of_forall₂ hparts hq
        exact ih p hpmem hpq (hchecked q hq) (hp.part hly hq)
      have hvalid (type : TypeId) (hmem : type ∈ tys) : type ≠ .invalid := by
        have : some type ∈ cs.map type? := htypes ▸ List.mem_map_of_mem hmem
        obtain ⟨q, hq, htype⟩ := List.mem_map.1 this
        exact (hih q hq).2 type htype
      have herror : y.kind ≠ .error := by
        cases hp with
        | mk he => exact he
      have hsuits := htyped.suits henv hvalid herror
      refine ⟨settled_iff.2 ⟨?_, fun q hq => (hih q hq).1⟩, ?_⟩
      · rw [Fits, filterMap_type? htypes]
        exact hsuits
      · rintro _ ⟨⟩
        exact hsuits.1
    | @lambda i j x y type k m b c hx hy ht hs hl =>
      obtain ⟨hne, hsettled⟩ := hL _ _ _ hl
      have hty : y.type = type := by
        cases hc with
        | node hl => simp [hy, ExprKind.isLambda] at hl
        | lambda hk hty =>
          rw [hy] at hk
          cases hk
          exact hty
      refine ⟨settled_iff.2 ⟨⟨hty ▸ hne, by simp [Expr.Suits, hy]⟩, by simpa using hsettled⟩, ?_⟩
      rintro _ ⟨⟩
      exact hty ▸ hne

end Branch

end FrontEnd
