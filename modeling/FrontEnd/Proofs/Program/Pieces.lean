import FrontEnd.Proofs.Constant.FoldedExpression
import FrontEnd.Proofs.Grammar.Link
import FrontEnd.Proofs.Token.Identifiers
import FrontEnd.Proofs.Typing.Furnished

/-!
What the parts of a program say that two runs have read so far: each part for the variables in sight
where it stands, in both runs. Most of it is known only as long as nothing was reported.
-/

namespace FrontEnd

/-! ### Names behind `const` -/

namespace Window

/-- A window that is reached in a text. -/
def In (text : String) (w : Window) : Prop := ∃ n, w = (ofText text).drop n

/-- An identifier that stands right after `const`. -/
def ConstantName (text name : String) : Prop :=
  ∃ w : Window, w.In text ∧ w.current.kind = .kwConst ∧ w.after.current.kind = .ident ∧
    w.after.lexeme w.after.current = name

/-- From the first window to the second, an identifier that is declared after `const` somewhere, and
perhaps members of it. -/
inductive ConstantPath (text : String) : Window → Window → Prop
  | name {w} : In text w → w.current.kind = .ident → ConstantName text (w.lexeme w.current) →
    ConstantPath text w w.after
  | member {w v} : ConstantPath text w v → v.current.kind = .dot → v.after.current.kind = .ident →
    ConstantPath text w v.after.after

/-- What is declared after `const`, or a member of it, is assigned, incremented or decremented. -/
inductive AssignsConstant (text : String) : Prop
  | assign {w v : Window} {op} : ConstantPath text w v →
    AssignOp.ofToken? v.current.kind = some op → AssignsConstant text
  | unary {w v : Window} {op} : In text w → UnaryOp.ofToken? w.current.kind = some op →
    op.mutates = true → ConstantPath text w.after v → AssignsConstant text

variable {text : String} {w : Window}

theorem In.reads (h : w.In text) : w.Reads text := by
  obtain ⟨n, rfl⟩ := h
  exact (reads_ofText text).drop n

theorem In.drop (h : w.In text) (n : Nat) : (w.drop n).In text := by
  obtain ⟨m, rfl⟩ := h
  exact ⟨m + n, by rw [drop_drop]⟩

theorem after_eq_drop (w : Window) : ∃ n, w.after = w.drop (n + 1) := by
  obtain ⟨n, hn, -⟩ := w.bump.skipErrors_eq
  exact ⟨n, by rw [after, hn, drop_succ]⟩

theorem In.after (h : w.In text) : w.after.In text := by
  obtain ⟨n, hn⟩ := w.after_eq_drop
  exact hn ▸ h.drop _

end Window

/-! ### What was read -/

/-- Two runs over one text, and the types at their end. -/
structure Pass where
  /-- Whether the first run folds constants. -/
  first : Bool
  /-- Whether the second one does. -/
  second : Bool
  text : String
  types : TypeTable

/-- What two runs know at some time. -/
structure View where
  types : TypeTable
  names : Interner
  /-- Nothing was reported. -/
  quiet : Prop
  /-- Overloads that were declared, also where the block was left. -/
  overloads : List Overload

/-- The other view is a later one. -/
structure View.Leads (v w : View) : Prop where
  types : v.types.Grows w.types
  names : v.names.Grows w.names
  quiet : w.quiet → v.quiet
  overloads : v.overloads ⊆ w.overloads

/-- The type that is wanted of an expression. -/
def Purpose.wanted : Purpose → Option TypeId
  | .free => none
  | .stored type => some type
  | .returned type => type

namespace Pass

variable (P : Pass) (v : View) (wanted : Option TypeId) (Γ : Sight)

/-- The types to return in the function bodies that are open, the innermost first. -/
def returns (es : List Entry) : List TypeId :=
  es.filterMap fun
    | .params type => some (P.types.result type)
    | _ => none

/-! ### Expressions -/

/-- The second branch has types that suit its nodes, and its flows were compared, where `wanted` is
the type to return. -/
structure Settled (c : Branch) : Prop where
  fits : c.Settled P.types (· ∈ v.overloads)
  guarded : c.Guarded P.types wanted

/-- The bodies of a function literal in both runs. -/
structure Body (type : TypeId) (b c : Branch) : Prop where
  uses : v.types.Uses v.quiet type
  settled : v.quiet → P.Settled v (some (P.types.result type)) c
  folded : v.quiet → P.first = false → FoldedBody P.types Γ type b c

/-- The branches of an expression that was read from one window to the other. -/
structure Read (i j : ExprId) (start stop : Window) (b c : Branch) : Prop where
  left : b.root = .expr i
  right : c.root = .expr j
  alike : b.Alike (P.Body v Γ) c
  target : ∀ x y, b.expr? = some x → c.expr? = some y →
    x.canAssign = y.canAssign ∨ Window.ConstantPath P.text start stop
  proper : v.quiet → c.Proper Γ

/-- Of a checked expression, what folding makes use of. -/
structure Verified (env : Env) (purpose : Purpose) (b c : Branch) : Prop where
  basics : env.types.Basics
  checked : c.Checked env
  constants : ∀ name w, Γ.constant? name = some w → env.resolveVar name = some w.kind.type
  proper : c.Proper Γ
  settled : ∀ wanted, P.Settled v wanted c
  alike : b.Alike (P.Body v Γ) c
  type_eq : ∀ t, purpose = .stored t → c.type? = some t ∨ v.types.Plain v.names t
  takes : ∀ t, c.type? = some t → P.types.Takes purpose.wanted t

/-- The branches of an expression that was checked. -/
structure Checked (i j : ExprId) (purpose : Purpose) (b c : Branch) : Prop where
  left : b.root = .expr i
  right : c.root = .expr j
  span : b.span? = c.span?
  uses : ∀ t, purpose = .stored t → v.types.Uses v.quiet t
  verified : v.quiet → ∃ env, P.Verified v Γ env purpose b c

/-- The branches of an expression that was folded where folding is on. -/
structure Finished (i j : ExprId) (value : Option Value) (purpose : Purpose) (b c : Branch) :
    Prop where
  left : b.root = .expr i
  right : c.root = .expr j
  span : b.span? = c.span?
  uses : ∀ t, purpose = .stored t → v.types.Uses v.quiet t
  settled : v.quiet → ∀ wanted, P.Settled v wanted c
  folded : v.quiet → P.first = false → Folded P.types Γ b c
  value_eq : v.quiet → P.first = false → ∀ w, value = some w → b.value Γ.constant? = .ok w
  type_eq : v.quiet → ∀ w t, value = some w → purpose = .stored t →
    w.kind.type = t ∨ v.types.Plain v.names t
  takes : v.quiet → ∀ t, c.type? = some t → P.types.Takes purpose.wanted t

variable {P v Γ} in
theorem Finished.takes_part {i j : ExprId} {value : Option Value} {purpose : Purpose}
    {b c : Branch} (h : P.Finished v Γ i j value purpose b c) (hq : v.quiet) :
    ∀ t ∈ [c].filterMap Branch.type?, P.types.Takes purpose.wanted t := by
  intro t ht
  obtain ⟨c', hc, hct⟩ := List.mem_filterMap.1 ht
  obtain rfl := List.mem_singleton.1 hc
  exact h.takes hq t hct

/-! ### Statements -/

/-- The branches of a statement. -/
structure Said (i j : StmtId) (b c : Branch) (ds : List Decl) : Prop where
  left : b.root = .stmt i
  right : c.root = .stmt j
  settled : v.quiet → P.Settled v wanted c
  follows : v.quiet → P.first = false → Follows P.types Γ b c ds

/-- The branches of statements one after the other. -/
structure Listed (is js : List StmtId) (bs cs : List Branch) (ds : List Decl) : Prop where
  left : bs.map Branch.root = is.map .stmt
  right : cs.map Branch.root = js.map .stmt
  settled : v.quiet → ∀ c ∈ cs, P.Settled v wanted c
  follows : v.quiet → P.first = false → FollowsAll P.types Γ bs cs ds

/-- The branches of the body of a function. -/
structure Embodied (type : TypeId) (i j : StmtId) (b c : Branch) : Prop where
  left : b.root = .stmt i
  right : c.root = .stmt j
  settled : v.quiet → P.Settled v (some (P.types.result type)) c
  folded : v.quiet → P.first = false → FoldedBody P.types Γ type b c

end Pass

/-! ### Entries -/

/-- What an entry stands for in both runs, and the variables in sight before and after it, where
`wanted` is the type to return. -/
inductive Piece (P : Pass) (v : View) (wanted : Option TypeId) :
    Sight → Entry → List Branch → List Branch → Sight → Prop
  | raw {Γ i j start stop b c} : P.Read v Γ i j start stop b c →
    Piece P v wanted Γ (.raw i j start stop) [b] [c] Γ
  | object {Γ i j x y start stop bs cs} :
    P.Read v Γ i j start stop ⟨.expr i, .expr x, bs⟩ ⟨.expr j, .expr y, cs⟩ →
    Piece P v wanted Γ (.object i j x y start stop) [⟨.expr i, .expr x, bs⟩]
      [⟨.expr j, .expr y, cs⟩] Γ
  | checked {Γ i j purpose b c} : P.Checked v Γ i j purpose b c →
    Piece P v wanted Γ (.checked i j purpose) [b] [c] Γ
  | folded {Γ i j value value' purpose b c} : P.Finished v Γ i j value' purpose b c →
    Piece P v wanted Γ (.folded i j value value' purpose) [b] [c] Γ
  | stmt {Γ i j b c ds} : P.Said v wanted Γ i j b c ds →
    Piece P v wanted Γ (.stmt i j) [b] [c] (Γ.extend ds)
  | function {Γ mangled type} : Piece P v wanted Γ (.function mangled type) [] [] Γ
  | enter {Γ} : Piece P v wanted Γ .enter [] [] ([] :: Γ)
  | params {Γ type} : Piece P v wanted Γ (.params type) [] [] (Γ.extend (P.types.parameters type))
  | block {Γ is js bs cs ds} : P.Listed v wanted ([] :: Γ) is js bs cs ds →
    Piece P v wanted Γ (.scoped is js) bs cs Γ
  | bodied {Γ type is js bs cs ds} :
    P.Listed v (some (P.types.result type)) (P.types.parameters type :: Γ) is js bs cs ds →
    Piece P v wanted Γ (.bodied type is js) bs cs Γ
  | bodyStmt {Γ type i j b c} : P.Embodied v Γ type i j b c →
    Piece P v wanted Γ (.bodyStmt type i j) [b] [c] Γ
  | declared {Γ isConst value d} : (∀ w, d.value = some w → isConst = true ∧ value = some w) →
    Piece P v wanted Γ (.declared d.name d.type isConst value) [] [] (Γ.extend [d])

/-- Entries, and the branches that they stand for in both runs, the last ones first. -/
inductive Pieces (P : Pass) (v : View) : Sight → List Entry → List Branch → List Branch → Prop
  | nil : Pieces P v [[]] [] [] []
  | cons {Γ Γ' x es xs ys bs cs} : Pieces P v Γ es bs cs →
    Piece P v (P.returns es).head? Γ x xs ys Γ' →
    Pieces P v Γ' (x :: es) (xs ++ bs) (ys ++ cs)

variable {P : Pass} {v w : View} {wanted : Option TypeId} {Γ Γ' : Sight} {x : Entry}
  {es es' : List Entry} {b c : Branch} {bs cs xs ys : List Branch}

namespace View.Leads

theorem refl (v : View) : v.Leads v := ⟨.refl _, .refl _, id, List.Subset.refl _⟩

theorem settled (h : v.Leads w) (hc : P.Settled v wanted c) : P.Settled w wanted c :=
  ⟨hc.fits.mono fun _ ho => h.overloads ho, hc.guarded⟩

theorem uses {type : TypeId} (h : v.Leads w) (ht : v.types.Uses v.quiet type) :
    w.types.Uses w.quiet type :=
  ht.mono h.types h.quiet

theorem plain {type : TypeId} (h : v.Leads w) (ht : v.types.Plain v.names type) :
    w.types.Plain w.names type :=
  ht.mono h.types h.names

theorem body {type : TypeId} (h : v.Leads w) (hb : P.Body v Γ type b c) : P.Body w Γ type b c where
  uses := h.uses hb.uses
  settled hq := h.settled (hb.settled (h.quiet hq))
  folded hq := hb.folded (h.quiet hq)

theorem read {i j : ExprId} {start stop : Window} (h : v.Leads w)
    (hr : P.Read v Γ i j start stop b c) : P.Read w Γ i j start stop b c :=
  { hr with
    alike := hr.alike.mono fun _ _ _ => h.body
    proper := fun hq => hr.proper (h.quiet hq) }

theorem verified {env : Env} {purpose : Purpose} (h : v.Leads w)
    (hv : P.Verified v Γ env purpose b c) : P.Verified w Γ env purpose b c :=
  { hv with
    settled := fun wanted => h.settled (hv.settled wanted)
    alike := hv.alike.mono fun _ _ _ => h.body
    type_eq := fun t ht => (hv.type_eq t ht).imp_right h.plain }

theorem checked {i j : ExprId} {purpose : Purpose} (h : v.Leads w)
    (hr : P.Checked v Γ i j purpose b c) : P.Checked w Γ i j purpose b c where
  left := hr.left
  right := hr.right
  span := hr.span
  uses t ht := h.uses (hr.uses t ht)
  verified hq := (hr.verified (h.quiet hq)).imp fun _ => h.verified

theorem finished {i j : ExprId} {value : Option Value} {purpose : Purpose} (h : v.Leads w)
    (hr : P.Finished v Γ i j value purpose b c) : P.Finished w Γ i j value purpose b c where
  left := hr.left
  right := hr.right
  span := hr.span
  uses t ht := h.uses (hr.uses t ht)
  settled hq wanted := h.settled (hr.settled (h.quiet hq) wanted)
  folded hq := hr.folded (h.quiet hq)
  value_eq hq := hr.value_eq (h.quiet hq)
  type_eq hq val t hval ht := (hr.type_eq (h.quiet hq) val t hval ht).imp_right h.plain
  takes hq := hr.takes (h.quiet hq)

theorem said {i j : StmtId} {ds : List Decl} (h : v.Leads w)
    (hr : P.Said v wanted Γ i j b c ds) : P.Said w wanted Γ i j b c ds :=
  { hr with
    settled := fun hq => h.settled (hr.settled (h.quiet hq))
    follows := fun hq => hr.follows (h.quiet hq) }

theorem listed {is js : List StmtId} {ds : List Decl} (h : v.Leads w)
    (hr : P.Listed v wanted Γ is js bs cs ds) : P.Listed w wanted Γ is js bs cs ds :=
  { hr with
    settled := fun hq c hc => h.settled (hr.settled (h.quiet hq) c hc)
    follows := fun hq => hr.follows (h.quiet hq) }

theorem embodied {type : TypeId} {i j : StmtId} (h : v.Leads w)
    (hr : P.Embodied v Γ type i j b c) : P.Embodied w Γ type i j b c :=
  { hr with
    settled := fun hq => h.settled (hr.settled (h.quiet hq))
    folded := fun hq => hr.folded (h.quiet hq) }

theorem piece (h : v.Leads w) (hx : Piece P v wanted Γ x bs cs Γ') :
    Piece P w wanted Γ x bs cs Γ' := by
  cases hx with
  | raw hr => exact .raw (h.read hr)
  | object hr => exact .object (h.read hr)
  | checked hr => exact .checked (h.checked hr)
  | folded hr => exact .folded (h.finished hr)
  | stmt hr => exact .stmt (h.said hr)
  | function => exact .function
  | enter => exact .enter
  | params => exact .params
  | block hr => exact .block (h.listed hr)
  | bodied hr => exact .bodied (h.listed hr)
  | bodyStmt hr => exact .bodyStmt (h.embodied hr)
  | declared hd => exact .declared hd

theorem pieces (h : v.Leads w) (hp : Pieces P v Γ es bs cs) : Pieces P w Γ es bs cs := by
  induction hp with
  | nil => exact .nil
  | cons _ hx ih => exact ih.cons (h.piece hx)

end View.Leads

theorem Piece.roots_eq (h : Piece P v wanted Γ x bs cs Γ') :
    bs.map Branch.root = x.left ∧ cs.map Branch.root = x.right := by
  cases h with
  | raw hr | object hr | checked hr | folded hr | stmt hr | bodyStmt hr =>
    exact ⟨congrArg (fun id => [id]) hr.left, congrArg (fun id => [id]) hr.right⟩
  | block hr | bodied hr => exact ⟨hr.left, hr.right⟩
  | function | enter | params | declared => exact ⟨rfl, rfl⟩

namespace Pass

theorem returns_append : P.returns (es' ++ es) = P.returns es' ++ P.returns es :=
  List.filterMap_append

theorem returns_stmts {is js : List StmtId} (h : Entry.Stmts es is js) : P.returns es = [] := by
  induction h with
  | nil => rfl
  | snoc _ ih => exact ih

theorem returns_raws {is js : List ExprId} (h : Entry.Raws es is js) : P.returns es = [] := by
  induction h with
  | nil => rfl
  | snoc _ ih => exact ih

end Pass

/-- A statement that declares nothing. -/
theorem Piece.of_said {i j : StmtId} (hne : Γ ≠ []) (h : P.Said v wanted Γ i j b c []) :
    Piece P v wanted Γ (.stmt i j) [b] [c] Γ := by
  have hx := Piece.stmt h
  rwa [← Sight.eq_extend_nil hne] at hx

namespace Pieces

/-- The branches stand for the nodes of the entries. -/
theorem roots_eq (h : Pieces P v Γ es bs cs) :
    bs.map Branch.root = es.flatMap Entry.left ∧ cs.map Branch.root = es.flatMap Entry.right := by
  induction h with
  | nil => exact ⟨rfl, rfl⟩
  | cons _ hx ih =>
    obtain ⟨hl, hr⟩ := hx.roots_eq
    exact ⟨by rw [List.map_append, List.flatMap_cons, hl, ih.1],
      by rw [List.map_append, List.flatMap_cons, hr, ih.2]⟩

theorem ne_nil (h : Pieces P v Γ es bs cs) : Γ ≠ [] := by
  induction h with
  | nil => exact List.cons_ne_nil _ _
  | cons _ hx ih =>
    cases hx <;> first | exact ih | exact Sight.extend_ne_nil | exact List.cons_ne_nil _ _

theorem tail (h : Pieces P v Γ (x :: es) bs cs) :
    ∃ Γ' bs' cs', Pieces P v Γ' es bs' cs' ∧ bs'.Sublist bs ∧ cs'.Sublist cs := by
  cases h with
  | cons h => exact ⟨_, _, _, h, List.sublist_append_right .., List.sublist_append_right ..⟩

theorem folded {i j : ExprId} {value value' : Option Value} {purpose : Purpose}
    (h : Pieces P v Γ (.folded i j value value' purpose :: es) bs cs) : ∃ b c bs' cs',
      bs = b :: bs' ∧ cs = c :: cs' ∧ Pieces P v Γ es bs' cs' ∧
      P.Finished v Γ i j value' purpose b c := by
  cases h with
  | cons h hx =>
    cases hx with
    | folded hf => exact ⟨_, _, _, _, rfl, rfl, h, hf⟩

theorem stmt {i j : StmtId} (h : Pieces P v Γ (.stmt i j :: es) bs cs) : ∃ Γ' ds b c bs' cs',
    Γ = Sight.extend ds Γ' ∧ bs = b :: bs' ∧ cs = c :: cs' ∧ Pieces P v Γ' es bs' cs' ∧
      P.Said v (P.returns es).head? Γ' i j b c ds := by
  cases h with
  | cons h hx =>
    cases hx with
    | stmt hs => exact ⟨_, _, _, _, _, _, rfl, rfl, rfl, h, hs⟩

theorem bodyStmt {type : TypeId} {i j : StmtId}
    (h : Pieces P v Γ (.bodyStmt type i j :: es) bs cs) : ∃ b c bs' cs',
      bs = b :: bs' ∧ cs = c :: cs' ∧ Pieces P v Γ es bs' cs' ∧ P.Embodied v Γ type i j b c := by
  cases h with
  | cons h hx =>
    cases hx with
    | bodyStmt he => exact ⟨_, _, _, _, rfl, rfl, h, he⟩

theorem function {mangled : Name} {type : TypeId}
    (h : Pieces P v Γ (.function mangled type :: es) bs cs) : Pieces P v Γ es bs cs := by
  cases h with
  | cons h hx =>
    cases hx
    exact h

theorem declared {name : Name} {type : TypeId} {isConst : Bool} {value : Option Value}
    (h : Pieces P v Γ (.declared name type isConst value :: es) bs cs) : ∃ Γ' d,
      Γ = Sight.extend [d] Γ' ∧ d.name = name ∧ d.type = type ∧ Pieces P v Γ' es bs cs ∧
      ∀ w, d.value = some w → isConst = true ∧ value = some w := by
  cases h with
  | cons h hx =>
    cases hx with
    | declared hd => exact ⟨_, _, rfl, rfl, rfl, h, hd⟩

/-- Statements on top, the first one first. -/
theorem stmts {is js : List StmtId} (hes : Entry.Stmts es' is js)
    (h : Pieces P v Γ (es' ++ es) bs cs) : ∃ Γ' ds xs ys bs' cs', Γ = Sight.extend ds Γ' ∧
      bs = xs.reverse ++ bs' ∧ cs = ys.reverse ++ cs' ∧ Pieces P v Γ' es bs' cs' ∧
      P.Listed v (P.returns es).head? Γ' is js xs ys ds := by
  induction hes generalizing Γ bs cs with
  | nil =>
    obtain ⟨block, outer, rfl⟩ := List.exists_cons_of_ne_nil h.ne_nil
    exact ⟨_, [], [], [], bs, cs, rfl, rfl, rfl, h, rfl, rfl, by simp, fun _ _ => .nil⟩
  | snoc hes ih =>
    rw [List.cons_append] at h
    cases h with
    | cons h hx =>
      cases hx with
      | stmt hs =>
        obtain ⟨Γ', ds, xs, ys, bs', cs', rfl, rfl, rfl, hp, hl⟩ := ih h
        rename_i b c ds'
        rw [Pass.returns_append, Pass.returns_stmts hes, List.nil_append] at hs
        refine ⟨Γ', ds' ++ ds, xs ++ [b], ys ++ [c], bs', cs',
          (Sight.extend_append ds' hp.ne_nil).symm, by simp, by simp, hp, ?_, ?_, ?_, ?_⟩
        · simp [hl.left, hs.left]
        · simp [hl.right, hs.right]
        · intro hq d hd
          rcases List.mem_append.1 hd with hd | hd
          · exact hl.settled hq d hd
          · exact List.mem_singleton.1 hd ▸ hs.settled hq
        · exact fun hq hf => .snoc (hl.follows hq hf) (hs.follows hq hf)

/-- Expressions on top, the first one first. -/
theorem raws {is js : List ExprId} (hes : Entry.Raws es' is js)
    (h : Pieces P v Γ (es' ++ es) bs cs) : ∃ xs ys bs' cs',
      bs = xs.reverse ++ bs' ∧ cs = ys.reverse ++ cs' ∧ Pieces P v Γ es bs' cs' ∧
      xs.map Branch.root = is.map .expr ∧ ys.map Branch.root = js.map .expr ∧
      List.Forall₂ (Branch.Alike (P.Body v Γ)) xs ys ∧ (v.quiet → ∀ c ∈ ys, c.Proper Γ) := by
  induction hes generalizing bs cs with
  | nil => exact ⟨[], [], bs, cs, rfl, rfl, h, rfl, rfl, .nil, by simp⟩
  | snoc _ ih =>
    cases h with
    | cons h hx =>
      cases hx with
      | raw hr =>
        obtain ⟨xs, ys, bs', cs', rfl, rfl, hp, hxs, hys, hall, hproper⟩ := ih h
        rename_i b c
        refine ⟨xs ++ [b], ys ++ [c], bs', cs', by simp, by simp, hp, by simp [hxs, hr.left],
          by simp [hys, hr.right], List.rel_append hall (.cons hr.alike .nil), fun hq d hd => ?_⟩
        rcases List.mem_append.1 hd with hd | hd
        · exact hproper hq d hd
        · exact List.mem_singleton.1 hd ▸ hr.proper hq

end Pieces

end FrontEnd
