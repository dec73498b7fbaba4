import FrontEnd.Proofs.Constant.Evaluation
import FrontEnd.Proofs.Constant.FoldedBranch
import FrontEnd.Proofs.Symbol.Sight
import FrontEnd.Proofs.Syntax.Alike
import FrontEnd.Proofs.Typing.Flows

/-!
What folding makes of a program: the same nodes in the same places, but for parts that have a
value and give way to a literal. The sight at every place tells which constants have values there.
An expression that was checked keeps its type, what is left of it fits, and a literal in its place
has its value.
-/

namespace FrontEnd

/-! ### Folded trees -/

/-- Declarations that a function body starts with, given the type of the function. -/
def TypeTable.parameters (types : TypeTable) (type : TypeId) : List Decl :=
  match types.function? type with
  | .ok (some signature) => Sight.parameters signature
  | _ => []

mutual

/-- An expression and what folding makes of it, for the variables in sight. -/
inductive Folded (types : TypeTable) : Sight → Branch → Branch → Prop
  /-- A literal in the place of an expression with this value and of this type. -/
  | literal {Γ i j x y parts v} : Branch.value Γ.constant? ⟨.expr i, .expr x, parts⟩ = .ok v →
    y.kind = .literal v → y.type = x.type → y.span = x.span →
    Folded types Γ ⟨.expr i, .expr x, parts⟩ ⟨.expr j, .expr y, []⟩
  | node {Γ i j x y bs cs} : x.kind.Matches y.kind → x.kind.isLambda = false → y.type = x.type →
    y.span = x.span → FoldedParts types Γ bs cs →
    Folded types Γ ⟨.expr i, .expr x, bs⟩ ⟨.expr j, .expr y, cs⟩
  | lambda {Γ i j x y type k m b c} : x.kind = .lambda type k → y.kind = .lambda type m →
    y.type = x.type → y.span = x.span → FoldedBody types Γ type b c →
    Folded types Γ ⟨.expr i, .expr x, [b]⟩ ⟨.expr j, .expr y, [c]⟩

/-- The parts of an expression. -/
inductive FoldedParts (types : TypeTable) : Sight → List Branch → List Branch → Prop
  | nil {Γ} : FoldedParts types Γ [] []
  | cons {Γ b c bs cs} : Folded types Γ b c → FoldedParts types Γ bs cs →
    FoldedParts types Γ (b :: bs) (c :: cs)

/-- The body of a function of this type. Its parameters are declared in the block that it is. -/
inductive FoldedBody (types : TypeTable) : Sight → TypeId → Branch → Branch → Prop
  | mk {Γ type i j q r span bs cs ds} : FollowsAll types (types.parameters type :: Γ) bs cs ds →
    FoldedBody types Γ type ⟨.stmt i, .stmt ⟨.block q, span⟩, bs⟩
      ⟨.stmt j, .stmt ⟨.block r, span⟩, cs⟩

/-- A statement, what folding makes of it, and what it declares in the innermost block, the last
first. -/
inductive Follows (types : TypeTable) : Sight → Branch → Branch → List Decl → Prop
  | error {Γ i j span} : Follows types Γ ⟨.stmt i, .stmt ⟨.error, span⟩, []⟩
    ⟨.stmt j, .stmt ⟨.error, span⟩, []⟩ []
  | expr {Γ i j k m span b c} : Folded types Γ b c →
    Follows types Γ ⟨.stmt i, .stmt ⟨.expr k, span⟩, [b]⟩ ⟨.stmt j, .stmt ⟨.expr m, span⟩, [c]⟩ []
  | block {Γ i j q r span bs cs ds} : FollowsAll types ([] :: Γ) bs cs ds →
    Follows types Γ ⟨.stmt i, .stmt ⟨.block q, span⟩, bs⟩ ⟨.stmt j, .stmt ⟨.block r, span⟩, cs⟩ []
  | ret {Γ i j span} : Follows types Γ ⟨.stmt i, .stmt ⟨.ret none, span⟩, []⟩
    ⟨.stmt j, .stmt ⟨.ret none, span⟩, []⟩ []
  | value {Γ i j k m span b c} : Folded types Γ b c →
    Follows types Γ ⟨.stmt i, .stmt ⟨.ret (some k), span⟩, [b]⟩
      ⟨.stmt j, .stmt ⟨.ret (some m), span⟩, [c]⟩ []
  | print {Γ i j k m span b c} : Folded types Γ b c →
    Follows types Γ ⟨.stmt i, .stmt ⟨.print k, span⟩, [b]⟩ ⟨.stmt j, .stmt ⟨.print m, span⟩, [c]⟩ []
  | bare {Γ i j span isConst d} : d.value = none →
    Follows types Γ ⟨.stmt i, .stmt ⟨.varDecl d.name d.type none isConst, span⟩, []⟩
      ⟨.stmt j, .stmt ⟨.varDecl d.name d.type none isConst, span⟩, []⟩ [d]
  /-- The value of a constant is that of its initializer. -/
  | var {Γ i j k m span isConst b c d} : Folded types Γ b c →
    (∀ v, d.value = some v → isConst = true ∧ b.value Γ.constant? = .ok v) →
    Follows types Γ ⟨.stmt i, .stmt ⟨.varDecl d.name d.type (some k) isConst, span⟩, [b]⟩
      ⟨.stmt j, .stmt ⟨.varDecl d.name d.type (some m) isConst, span⟩, [c]⟩ [d]
  | func {Γ i j name mangled type k m span b c} : FoldedBody types Γ type b c →
    Follows types Γ ⟨.stmt i, .stmt ⟨.funcDecl name mangled type (some k) false, span⟩, [b]⟩
      ⟨.stmt j, .stmt ⟨.funcDecl name mangled type (some m) false, span⟩, [c]⟩ []
  | native {Γ i j name mangled type span} :
    Follows types Γ ⟨.stmt i, .stmt ⟨.funcDecl name mangled type none true, span⟩, []⟩
      ⟨.stmt j, .stmt ⟨.funcDecl name mangled type none true, span⟩, []⟩ []
  | struct {Γ i j name type span} :
    Follows types Γ ⟨.stmt i, .stmt ⟨.structDecl name type, span⟩, []⟩
    ⟨.stmt j, .stmt ⟨.structDecl name type, span⟩, []⟩ []
  | enum {Γ i j name type span} : Follows types Γ ⟨.stmt i, .stmt ⟨.enumDecl name type, span⟩, []⟩
    ⟨.stmt j, .stmt ⟨.enumDecl name type, span⟩, []⟩ []
  | cond {Γ i j k m k' m' span b c b' c' ds} : Folded types Γ b c → Follows types Γ b' c' ds →
    Follows types Γ ⟨.stmt i, .stmt ⟨.cond k k' none, span⟩, [b, b']⟩
      ⟨.stmt j, .stmt ⟨.cond m m' none, span⟩, [c, c']⟩ ds
  | other {Γ i j k m k' m' k'' m'' span b c b' c' b'' c'' ds ds'} : Folded types Γ b c →
    Follows types Γ b' c' ds → Follows types (Γ.extend ds) b'' c'' ds' →
    Follows types Γ ⟨.stmt i, .stmt ⟨.cond k k' (some k''), span⟩, [b, b', b'']⟩
      ⟨.stmt j, .stmt ⟨.cond m m' (some m''), span⟩, [c, c', c'']⟩ (ds' ++ ds)
  | loop {Γ i j k m k' m' span b c b' c' ds} : Folded types Γ b c → Follows types Γ b' c' ds →
    Follows types Γ ⟨.stmt i, .stmt ⟨.loop k k', span⟩, [b, b']⟩
      ⟨.stmt j, .stmt ⟨.loop m m', span⟩, [c, c']⟩ ds
  /-- The condition stands behind the body. -/
  | doLoop {Γ i j k m k' m' span b c b' c' ds} : Follows types Γ b' c' ds →
    Folded types (Γ.extend ds) b c →
    Follows types Γ ⟨.stmt i, .stmt ⟨.doLoop k' k, span⟩, [b, b']⟩
      ⟨.stmt j, .stmt ⟨.doLoop m' m, span⟩, [c, c']⟩ ds
  /-- A namespace opens no block. -/
  | namesp {Γ i j name q r span bs cs ds} : FollowsAll types Γ bs cs ds →
    Follows types Γ ⟨.stmt i, .stmt ⟨.namesp name q, span⟩, bs⟩
      ⟨.stmt j, .stmt ⟨.namesp name r, span⟩, cs⟩ ds
  | using {Γ i j target span} : Follows types Γ ⟨.stmt i, .stmt ⟨.using target, span⟩, []⟩
    ⟨.stmt j, .stmt ⟨.using target, span⟩, []⟩ []

/-- Statements one after the other. -/
inductive FollowsAll (types : TypeTable) : Sight → List Branch → List Branch → List Decl → Prop
  | nil {Γ} : FollowsAll types Γ [] [] []
  | snoc {Γ bs cs ds b c ds'} : FollowsAll types Γ bs cs ds → Follows types (Γ.extend ds) b c ds' →
    FollowsAll types Γ (bs ++ [b]) (cs ++ [c]) (ds' ++ ds)

end

/-! ### Checked expressions -/

namespace Branch

variable {env : Env} {Γ : Sight} {L : TypeId → Branch → Branch → Prop} {types : TypeTable}
  {declared : Overload → Prop} {γ bindings : Name → Option Value} {isBound : Name → Bool}
  {b c d : Branch} {bs cs : List Branch} {v : Value}

/-- Folding and checking know the constants in sight. -/
def Consults (env : Env) (Γ : Sight) (bindings : Name → Option Value) : Prop :=
  ∀ name v, Γ.constant? name = some v →
    bindings name = some v ∧ env.resolveVar name = some v.kind.type

/-- A literal that settles has the type of its value. -/
theorem Settled.type_of_literal {type : TypeId} (h : b.Settled types declared)
    (hv : b.literal? = some v) (ht : b.type? = some type) : v.kind.type = type := by
  obtain ⟨root, node, parts⟩ := b
  cases node with
  | stmt s => cases ht
  | expr e =>
    obtain rfl := Option.some.inj ht
    have hsuits := (h _ (mem_all_self _)).2
    have hk : e.kind = .literal v := by
      simp only [literal?, expr?, Option.bind_some, Expr.literal?] at hv
      split at hv
      · rename_i value hk
        cases hv
        exact hk
      · cases hv
    unfold Expr.Suits at hsuits
    rw [hk] at hsuits
    exact hsuits.symm

/-! ### Values -/

theorem Proper.constants (h : b.Proper Γ) (hc : b.isConstant isBound = true) :
    ∀ name ∈ b.names, ∃ v, Γ.constant? name = some v := by
  induction b, hc using constant_induct with
  | literal root e v hc hk => simp [names_mk, Expr.name?, hk]
  | name root e n hc hk hflag hbound =>
    intro name hname
    obtain rfl : name = n := by simpa [names_mk, Expr.name?, hk] using hname
    cases h with
    | mk _ hn => exact hn _ hk hflag
  | group root e i p hc hp hk ih =>
    intro name hname
    cases h with
    | mk _ _ hparts =>
      exact ih (hparts (by rw [hk]; rfl) p (by simp)) name
        (by simpa [names_mk, Expr.name?, hk] using hname)
  | unary root e op i p hc hp hk hm ih =>
    intro name hname
    cases h with
    | mk _ _ hparts =>
      exact ih (hparts (by rw [hk]; rfl) p (by simp)) name
        (by simpa [names_mk, Expr.name?, hk] using hname)
  | binary root e op i j l r hc hl hr hk ihl ihr =>
    intro name hname
    have hmem : name ∈ l.names ∨ name ∈ r.names := by
      simpa [names_mk, Expr.name?, hk] using hname
    cases h with
    | mk _ _ hparts =>
      rcases hmem with hmem | hmem
      · exact ihl (hparts (by rw [hk]; rfl) l (by simp)) name hmem
      · exact ihr (hparts (by rw [hk]; rfl) r (by simp)) name hmem

/-- Expressions that are alike have one value, if their names have. -/
theorem Alike.value_eq (h : Alike L b c) (hc : c.isConstant isBound = true)
    (hn : ∀ name ∈ c.names, γ name = bindings name) : b.value γ = c.value bindings := by
  induction c, hc using constant_induct generalizing b with
  | literal root e v hc hk =>
    cases h with
    | expr hm _ _ _ hp =>
      cases hp
      rw [hk] at hm
      generalize hx : Expr.kind _ = kx at hm
      cases hm
      simp [value, hx, hk]
  | name root e n hc hk hflag hbound =>
    cases h with
    | expr hm _ _ _ hp =>
      cases hp
      rw [hk] at hm
      generalize hx : Expr.kind _ = kx at hm
      cases hm
      simp [value, hx, hk, hn n (by simp [names_mk, Expr.name?, hk])]
  | group root e i p hc hp hk ih =>
    cases h with
    | expr hm _ _ _ hparts =>
      obtain ⟨q, _, hqp, hnil, rfl⟩ := List.forall₂_cons_right_iff.1 hparts
      obtain rfl := List.forall₂_nil_right_iff.1 hnil
      rw [hk] at hm
      generalize hx : Expr.kind _ = kx at hm
      cases hm
      rw [value_group hx, value_group hk]
      exact ih hqp fun name hname => hn name (by simpa [names_mk, Expr.name?, hk] using hname)
    | lambda _ hy => simp [hk] at hy
  | unary root e op i p hc hp hk hmut ih =>
    cases h with
    | expr hm _ _ _ hparts =>
      obtain ⟨q, _, hqp, hnil, rfl⟩ := List.forall₂_cons_right_iff.1 hparts
      obtain rfl := List.forall₂_nil_right_iff.1 hnil
      rw [hk] at hm
      generalize hx : Expr.kind _ = kx at hm
      cases hm
      rw [value_unary hx, value_unary hk,
        ih hqp fun name hname => hn name (by simpa [names_mk, Expr.name?, hk] using hname)]
    | lambda _ hy => simp [hk] at hy
  | binary root e op i j l r hc hl hr hk ihl ihr =>
    cases h with
    | expr hm _ _ _ hparts =>
      obtain ⟨l', _, hll, hrest, rfl⟩ := List.forall₂_cons_right_iff.1 hparts
      obtain ⟨r', _, hrr, hnil, rfl⟩ := List.forall₂_cons_right_iff.1 hrest
      obtain rfl := List.forall₂_nil_right_iff.1 hnil
      rw [hk] at hm
      generalize hx : Expr.kind _ = kx at hm
      cases hm
      rw [value_binary hx, value_binary hk,
        ihl hll fun name hname => hn name (by simp [names_mk, hname]),
        ihr hrr fun name hname => hn name (by simp [names_mk, hname])]

/-- Folding computes the value that the constants in sight give. -/
theorem Alike.value_in_sight (h : Alike L b c) (hk : Consults env Γ bindings) (hp : c.Proper Γ)
    (hc : c.isConstant isBound = true) : b.value Γ.constant? = c.value bindings :=
  h.value_eq hc fun name hname => by
    obtain ⟨v, hv⟩ := hp.constants hc name hname
    rw [hv, (hk name v hv).1]

/-- The value of a checked constant has the type that was found. -/
theorem Checked.type_of_value (ht : env.types.Basics) (hk : Consults env Γ bindings)
    (hb : b.Checked env) (hp : b.Proper Γ) (hc : b.isConstant isBound = true)
    (hv : b.value bindings = .ok v) : b.type? = some v.kind.type := by
  obtain ⟨type, htype⟩ : ∃ type, b.type? = some type := by
    cases hb <;> exact ⟨_, rfl⟩
  have hsettles : b.Settles bindings type := settles_constant ht hc hb htype fun name hname => by
    obtain ⟨w, hw⟩ := hp.constants hc name hname
    exact ⟨w, hk name w hw⟩
  cases hsettles with
  | value hv' hvt =>
    obtain rfl := Except.ok.inj (hv.symm.trans hv')
    rw [htype, hvt]
  | divisionByZero he => rw [hv] at he; cases he
  | unordered he => rw [hv] at he; cases he

/-! ### What folding leaves as it was -/

theorem stmts_constant (hc : b.isConstant isBound = true) : stmts [b] = [] := by
  induction b, hc using constant_induct with
  | literal | name => rw [stmts_expr, stmts_nil]
  | group root e i p hc hp hk ih => rw [stmts_expr, ih]
  | unary root e op i p hc hp hk hm ih => rw [stmts_expr, ih]
  | binary root e op i j l r hc hl hr hk ihl ihr =>
    rw [stmts_expr, stmts_cons, ihl, ihr, List.nil_append]

theorem Folds.stmts_eq (h : Folds bindings b c) : stmts [c] = stmts [b] := by
  induction b using induct generalizing c with
  | mk root node parts ih =>
    cases h with
    | same => rfl
    | value _ hc _ => rw [stmts_constant hc, stmts_expr, stmts_nil]
    | node _ hp =>
      rw [stmts_expr, stmts_expr]
      exact stmts_congr hp fun b c hb hbc => ih b hb hbc

def span? (b : Branch) : Option Span := b.expr?.map Expr.span

theorem Folds.span_eq (h : Folds bindings b c) : c.span? = b.span? := by
  cases h <;> rfl

theorem Alike.span_eq (h : Alike L b c) : b.span? = c.span? := by
  cases h with
  | expr _ _ _ hs => exact congrArg some hs
  | lambda _ _ _ hs => exact congrArg some hs

/-- Folding keeps the type of what it replaces. -/
theorem Folds.type_eq (h : Folds bindings b c) (ht : env.types.Basics)
    (hk : Consults env Γ bindings) (hb : b.Checked env) (hp : b.Proper Γ) :
    c.type? = b.type? := by
  cases h with
  | same => rfl
  | value hl hc hv => exact (hb.type_of_value ht hk hp hc hv).symm
  | node => rfl

theorem filterMap_type?_of_folds (h : List.Forall₂ (Folds bindings) bs cs)
    (ht : env.types.Basics) (hk : Consults env Γ bindings) (hb : ∀ b ∈ bs, b.Checked env)
    (hp : ∀ b ∈ bs, b.Proper Γ) : cs.filterMap type? = bs.filterMap type? := by
  induction h with
  | nil => rfl
  | cons hbc _ ih =>
    rw [List.filterMap_cons, List.filterMap_cons,
      ih (fun b hmem => hb b (by simp [hmem])) fun b hmem => hp b (by simp [hmem]),
      hbc.type_eq ht hk (hb _ (by simp)) (hp _ (by simp))]

/-- What folding leaves fits still. -/
theorem Folds.settled (h : Folds bindings b c) (ht : env.types.Basics)
    (hk : Consults env Γ bindings) (hb : b.Checked env) (hp : b.Proper Γ)
    (hs : b.Settled types declared) : c.Settled types declared := by
  induction b using induct generalizing c with
  | mk root node parts ih =>
    cases h with
    | same => exact hs
    | value hl hc hv =>
      exact settled_iff.2 ⟨⟨ValueKind.type_ne_invalid _, rfl⟩, by simp⟩
    | @node i e bs cs hl hparts =>
      obtain ⟨hfits, hsparts⟩ := settled_iff.1 hs
      obtain ⟨-, -, -, hchecked⟩ := hb.of_node hl
      refine settled_iff.2 ⟨?_, fun q hq => ?_⟩
      · rw [Fits, filterMap_type?_of_folds hparts ht hk hchecked fun _ hmem => hp.part hl hmem]
        exact hfits
      · obtain ⟨p, hmem, hpq⟩ := exists_mem_of_forall₂ hparts hq
        exact ih p hmem hpq (hchecked p hmem) (hp.part hl hmem) (hsparts p hmem)

/-- The flows in what folding leaves were compared. -/
theorem Folds.guarded {wanted : Option TypeId} (h : Folds bindings b c) (ht : env.types.Basics)
    (hk : Consults env Γ bindings) (hb : b.Checked env) (hp : b.Proper Γ)
    (hg : b.Guarded types wanted) : c.Guarded types wanted := by
  induction b using induct generalizing c wanted with
  | mk root node parts ih =>
    cases h with
    | same => exact hg
    | value hl hc hv => exact .expr trivial (by simp)
    | @node i e bs cs hl hparts =>
      obtain ⟨-, -, -, hchecked⟩ := hb.of_node hl
      have htypes := filterMap_type?_of_folds hparts ht hk hchecked fun _ hmem => hp.part hl hmem
      cases hg with
      | expr hf hgparts =>
        refine .expr (htypes ▸ hf) fun q hq => ?_
        obtain ⟨p, hmem, hpq⟩ := exists_mem_of_forall₂ hparts hq
        exact ih p hmem hpq (hchecked p hmem) (hp.part hl hmem) (hgparts p hmem)

/-! ### Two runs -/

theorem comp_forall₂ {R S T : Branch → Branch → Prop} {xs ys zs : List Branch}
    (h : List.Forall₂ R xs ys) (h' : List.Forall₂ S ys zs)
    (hT : ∀ x y z, x ∈ xs → y ∈ ys → R x y → S y z → T x z) : List.Forall₂ T xs zs := by
  induction h generalizing zs with
  | nil =>
    cases h'
    exact .nil
  | cons hxy _ ih =>
    obtain ⟨z, zs, hyz, hrest, rfl⟩ := List.forall₂_cons_left_iff.1 h'
    exact .cons (hT _ _ _ (by simp) (by simp) hxy hyz) <| ih hrest fun x y z hx hy =>
      hT x y z (by simp [hx]) (by simp [hy])

theorem FoldedParts.of_forall₂ (h : List.Forall₂ (Folded types Γ) bs cs) :
    FoldedParts types Γ bs cs := by
  induction h with
  | nil => exact .nil
  | cons hbc _ ih => exact .cons hbc ih

/-- Nothing need give way to a literal. -/
theorem Alike.folded (h : Alike L b c)
    (hL : ∀ type b c, L type b c → FoldedBody types Γ type b c) : Folded types Γ b c := by
  induction b using induct generalizing c with
  | mk root node parts ih =>
    cases h with
    | expr hm hl ht hs hp =>
      refine .node hm hl ht.symm hs.symm (FoldedParts.of_forall₂ ?_)
      exact ((List.forall₂_and_left _ _).2 ⟨fun _ hmem => hmem, hp⟩).imp fun p q hpq =>
        ih p hpq.1 hpq.2
    | lambda hx hy ht hs hbody => exact .lambda hx hy ht.symm hs.symm (hL _ _ _ hbody)

/-- What folding makes of an expression that is checked in both runs and folded in the second. -/
theorem Folds.folded (h : Folds bindings c d) (hbc : Alike L b c) (ht : env.types.Basics)
    (hk : Consults env Γ bindings) (hc : c.Checked env) (hp : c.Proper Γ)
    (hL : ∀ type b c, L type b c → FoldedBody types Γ type b c) : Folded types Γ b d := by
  induction b using induct generalizing c d with
  | mk root node parts ih =>
    cases h with
    | same => exact hbc.folded hL
    | @value i e cs v hl hconst hv =>
      have hvalue := (hbc.value_in_sight hk hp hconst).trans hv
      have htype := hc.type_of_value ht hk hp hconst hv
      have hspan := hbc.span_eq
      have htypes := hbc.type_eq.trans htype
      cases hbc with
      | expr =>
        exact .literal hvalue rfl (Option.some.inj htypes).symm (Option.some.inj hspan).symm
      | lambda _ hy => simp [hy, ExprKind.isLambda] at hl
    | @node i e cs ds hl hparts =>
      cases hbc with
      | @expr j _ x _ bs _ hm hlx htype hspan hbs =>
        obtain ⟨-, -, -, hchecked⟩ := hc.of_node hl
        refine .node hm hlx htype.symm hspan.symm (FoldedParts.of_forall₂ ?_)
        refine comp_forall₂ hbs hparts fun p q r hmem hqmem hpq hqr => ?_
        exact ih p hmem hqr hpq (hchecked q hqmem) (hp.part hl hqmem)
      | lambda _ hy => simp [hy, ExprKind.isLambda] at hl

theorem Alike.value_of_literal (hbc : Alike L b c) {t : Tree} (hb : t.Holds [b])
    (hv : c.literal? = some v) : b.value γ = .ok v := by
  obtain ⟨y, hy, hlit⟩ := Option.bind_eq_some_iff.1 hv
  have hky : y.kind = .literal v := by
    unfold Expr.literal? at hlit
    split at hlit <;> simp_all
  cases hbc with
  | lambda _ hm =>
    obtain rfl := Option.some.inj hy
    rw [hky] at hm
    cases hm
  | @expr i j x _ bs cs hm =>
    obtain rfl := Option.some.inj hy
    rw [hky] at hm
    generalize hx : x.kind = kx at hm
    cases hm
    have hparts := hb.root.children
    simp only [Tree.children, hx, Tree.exprChildren, List.reverse_nil] at hparts
    obtain rfl := List.map_eq_nil_iff.1 hparts.symm
    simp [Branch.value, hx]

/-- A literal that folding leaves has the value of what it stands for. -/
theorem Folds.literal_value (h : Folds bindings c d) (hbc : Alike L b c)
    (hk : Consults env Γ bindings) (hp : c.Proper Γ) {t : Tree} (hb : t.Holds [b])
    (hv : d.literal? = some v) : b.value Γ.constant? = .ok v := by
  cases h with
  | same => exact hbc.value_of_literal hb hv
  | node => exact hbc.value_of_literal hb hv
  | value hl hconst hw =>
    obtain rfl := Option.some.inj hv
    exact (hbc.value_in_sight hk hp hconst).trans hw

end Branch

end FrontEnd
