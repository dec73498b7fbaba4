import FrontEnd.Proofs.Grammar.LinkPrograms
import FrontEnd.Proofs.Grammar.LinkTwins
import FrontEnd.Proofs.Program.Calls
import FrontEnd.Proofs.Program.Checks
import FrontEnd.Proofs.Program.Declarations

/-!
Two runs over one text keep to the laws of reading. If both fold or neither does, they are one.
-/

namespace FrontEnd

namespace Pass

open Parse Link Entry

/-- The link between two runs, which are one if both fold or neither does. -/
abbrev runs (P : Pass) : Link := P.link.twin (P.first = P.second)

variable {P : Pass}

theorem knows_basic {es : List Entry} {s₁ s₂ : ParseState} {b : BasicType}
    (h : P.link.Rel es s₁ s₂) (hb : b ≠ .invalid) : P.link.knows (BasicType.id b) s₁ :=
  h.rel.1.furnished.basics.knows hb

instance : P.runs.Lawful where
  enter h := ⟨rel_enter h.core, fun d => by
    obtain ⟨rfl, ht⟩ := h.rel.2 d
    exact ⟨rfl, ht.cons trivial⟩⟩
  leave h hes _ := ⟨rel_leave h.core hes, fun d => by
    obtain ⟨rfl, ht⟩ := h.rel.2 d
    exact ⟨rfl, ht.right.tail.cons (hes.twin ht.left)⟩⟩
  leaveBody h hes _ := ⟨rel_leaveBody h.core hes, fun d => by
    obtain ⟨rfl, ht⟩ := h.rel.2 d
    exact ⟨rfl, ht.right.tail.tail.cons (hes.twin ht.left)⟩⟩
  abandon h hpos _ := ⟨rel_abandon h.core hpos, fun d => by
    obtain ⟨rfl, ht⟩ := h.rel.2 d
    exact ⟨rfl, ht⟩⟩
  -- Types.
  basic h hb := knows_basic h.core hb
  named h := (firm_namedType h.core).twin (fun d => ⟨⟨rfl, (h.rel.2 d).1⟩, (h.rel.2 d).2⟩)
    fun _ _ _ _ ⟨hab, ht, hk⟩ hd => ⟨hab, rel_twin ht hd, hk⟩
  signature h _ hs := knows_signature h.core hs
  addFunction h hk := (firm_addFunction h.core hk).twin
    (fun d => ⟨⟨rfl, (h.rel.2 d).1⟩, (h.rel.2 d).2⟩)
    fun _ _ _ _ ⟨hab, ht, hk⟩ hd => ⟨hab, rel_twin ht hd, hk⟩
  -- Declarations.
  params h _ hs := (firm_params h.core hs).twin (fun d => ⟨⟨rfl, (h.rel.2 d).1⟩, (h.rel.2 d).2⟩)
    fun _ _ _ _ ht hd => ⟨ht, fun d => by
      obtain ⟨-, rfl, htwins⟩ := hd d
      exact ⟨rfl, htwins.cons trivial⟩⟩
  function h _ hs := (firm_declareFunction h.core hs).twin
    (fun d => ⟨⟨rfl, (h.rel.2 d).1⟩, (h.rel.2 d).2⟩)
    fun _ _ _ _ ⟨hab, ht⟩ hd => ⟨hab, rel_cons_twin ht hd fun _ => trivial⟩
  struct {_ _ _ fields _} h hn hf := (firm_declareType (fun stored => .struct stored fields)
    h.core hn.core (fun _ _ => rfl) (fun _ _ => nofun) (fun _ _ => nofun)
    fun _ _ _ he => (TypeKind.struct.inj he).2 ▸ hf).twin
    (fun d => ⟨⟨rfl, (h.rel.2 d).1⟩, (h.rel.2 d).2⟩)
    fun _ _ _ _ ⟨hab, ht⟩ hd => ⟨hab, rel_twin ht hd⟩
  enum {_ _ _ variants _} h hn := (firm_declareType (fun stored => .enum stored variants)
    h.core hn.core (fun _ _ => rfl) (fun _ _ => nofun) (fun _ _ => nofun) fun _ _ _ => nofun).twin
    (fun d => ⟨⟨rfl, (h.rel.2 d).1⟩, (h.rel.2 d).2⟩)
    fun _ _ _ _ ⟨hab, ht⟩ hd => ⟨hab, rel_twin ht hd⟩
  bare h hk ho := (firm_bare h.core hk ho.core).twin
    (fun d => ⟨⟨rfl, (h.rel.2 d).1⟩, (h.rel.2 d).2⟩)
    fun _ _ _ _ ht hd => rel_cons_twin ht hd fun _ => trivial
  var h ho := (firm_var h.core ho.core).twin
    (fun d => ⟨⟨congrArg (declareVariable _ _ _) (h.rel.2 d).2.head.2, (h.rel.2 d).1⟩,
      (h.rel.2 d).2⟩)
    fun _ _ _ _ ht hd => rel_cons_twin ht hd fun _ => trivial
  -- Expressions.
  literal h := (firm_literal h.core).twin (fun d => ⟨⟨rfl, (h.rel.2 d).1⟩, (h.rel.2 d).2⟩)
    fun _ _ _ _ ht hd => rel_cons_twin ht hd id
  str h := (firm_stringLiteral h.core).twin (fun d => ⟨⟨rfl, (h.rel.2 d).1⟩, (h.rel.2 d).2⟩)
    fun _ _ _ _ ht hd => rel_cons_twin ht hd id
  name h := (firm_nameExpr h.core).twin (fun d => ⟨⟨rfl, (h.rel.2 d).1⟩, (h.rel.2 d).2⟩)
    fun _ _ _ _ ht hd => rel_cons_twin ht hd id
  group start span h := (firm_groupEnd start span h.core).twin
    (fun d => ⟨⟨congrArg (groupEnd · span) (h.rel.2 d).2.head, (h.rel.2 d).1⟩,
      (h.rel.2 d).2.tail⟩)
    fun _ _ _ _ ht hd => rel_cons_twin ht hd id
  lambda start span h hk := (firm_lambda start span h.core hk).twin
    (fun d => ⟨⟨congrArg (fun i => addExpr (.lambda _ i) span) (h.rel.2 d).2.head, (h.rel.2 d).1⟩,
      (h.rel.2 d).2.tail⟩)
    fun _ _ _ _ ht hd => rel_cons_twin ht hd id
  unary span h hw hop := (pair_unaryEnd span h.core hw.core hop
    fun d => ⟨(h.rel.2 d).1, (h.rel.2 d).2.head⟩).twin
    (fun d => ⟨⟨congrArg (unaryEnd _ span) (h.rel.2 d).2.head, (h.rel.2 d).1⟩, (h.rel.2 d).2.tail⟩)
    fun _ _ _ _ ht hd => rel_cons_twin ht hd id
  binary op h := (firm_binaryEnd op h.core).twin
    (fun d => ⟨⟨congrArg₂ (binaryEnd op) (h.rel.2 d).2.tail.head (h.rel.2 d).2.head,
      (h.rel.2 d).1⟩, (h.rel.2 d).2.tail.tail⟩)
    fun _ _ _ _ ht hd => rel_cons_twin ht hd id
  assign h hop := (pair_assignmentEnd h.core hop
    fun d => ⟨(h.rel.2 d).1, (h.rel.2 d).2.tail.head⟩).twin
    (fun d => ⟨⟨congrArg₂ (assignmentEnd _) (h.rel.2 d).2.tail.head (h.rel.2 d).2.head,
      (h.rel.2 d).1⟩, (h.rel.2 d).2.tail.tail⟩)
    fun _ _ _ _ ht hd => rel_cons_twin ht hd id
  object h := (firm_object h.core).twin
    (fun d => ⟨⟨congrArg Parse.expr (h.rel.2 d).2.head, (h.rel.2 d).1⟩, (h.rel.2 d).2.tail⟩)
    fun _ _ _ _ ⟨h₁, h₂, ht⟩ hd => ⟨h₁, h₂, ht, fun d =>
      ⟨(hd d).2.1, (hd d).2.2.cons ⟨(h.rel.2 d).2.head, (hd d).1⟩⟩⟩
  member h hdot hw := (firm_member h.core hdot hw).twin
    (fun d => ⟨⟨congrArg₂ member (h.rel.2 d).2.head.1 (h.rel.2 d).2.head.2, (h.rel.2 d).1⟩,
      (h.rel.2 d).2.tail⟩)
    fun _ _ _ _ ht hd => rel_cons_twin ht hd id
  call span h hes := (firm_callEnd span h.core hes).twin
    (fun d => by
      obtain ⟨rfl, ht⟩ := h.rel.2 d
      obtain ⟨rfl, rfl⟩ := ht.right.head
      obtain rfl := hes.twin ht.left
      exact ⟨⟨rfl, rfl⟩, ht.right.tail⟩)
    fun _ _ _ _ ht hd => rel_cons_twin ht hd id
  callSpan h := span_of_object h.1
  -- Expressions that are complete.
  infer h := (firm_infer h.core).twin
    (fun d => ⟨⟨congrArg (fun i => check fun env => Check.infer env i) (h.rel.2 d).2.head,
      (h.rel.2 d).1⟩, (h.rel.2 d).2.tail⟩)
    fun _ _ _ _ ht hd => ⟨ht, fun d => ⟨(hd d).2.1, (hd d).2.2.cons (h.rel.2 d).2.head⟩⟩
  bareReturn span h := (firm_bareReturn span h.core).twin
    (fun d => ⟨⟨rfl, (h.rel.2 d).1⟩, (h.rel.2 d).2⟩)
    fun _ _ _ _ ht hd => rel_twin ht hd
  value span h := (firm_returnValue span h.core).twin
    (fun d => ⟨⟨congrArg (fun i => check fun env => Check.checkReturn env (some i) _ span)
      (h.rel.2 d).2.head, (h.rel.2 d).1⟩, (h.rel.2 d).2.tail⟩)
    fun _ _ _ _ ht hd => ⟨ht, fun d => ⟨(hd d).2.1, (hd d).2.2.cons (h.rel.2 d).2.head⟩⟩
  print h := (firm_print h.core).twin
    (fun d => ⟨⟨congrArg (fun i => check fun env => Check.checkPrint env i) (h.rel.2 d).2.head,
      (h.rel.2 d).1⟩, (h.rel.2 d).2.tail⟩)
    fun _ _ _ _ ht hd => ⟨ht, fun d => ⟨(hd d).2.1, (hd d).2.2.cons (h.rel.2 d).2.head⟩⟩
  condition h := (firm_condition h.core).twin
    (fun d => ⟨⟨congrArg (fun i => check fun env => Check.checkCondition env i) (h.rel.2 d).2.head,
      (h.rel.2 d).1⟩, (h.rel.2 d).2.tail⟩)
    fun _ _ _ _ ht hd => ⟨ht, fun d => ⟨(hd d).2.1, (hd d).2.2.cons (h.rel.2 d).2.head⟩⟩
  initializer name h hd := (firm_initializer name h.core hd).twin
    (fun d => ⟨⟨congrArg (fun i => check fun env => Check.checkInitializer env name _ i)
      (h.rel.2 d).2.head, (h.rel.2 d).1⟩, (h.rel.2 d).2.tail⟩)
    fun _ _ _ _ ⟨hab, ht⟩ hd => ⟨hab, ht, fun d =>
      ⟨(hd d).2.1, (hd d).2.2.cons (h.rel.2 d).2.head⟩⟩
  fold h := (firm_fold h.core).twin
    (fun d => ⟨⟨congrArg Parse.fold (h.rel.2 d).2.head, (h.rel.2 d).1⟩, (h.rel.2 d).2.tail⟩)
    fun _ _ _ _ ht hd => ⟨ht, fun d =>
      ⟨(hd d).2.1, (hd d).2.2.cons ⟨(h.rel.2 d).2.head, (hd d).1⟩⟩⟩
  span h := (firm_span h.core).twin
    (fun d => ⟨⟨congrArg Parse.expr (h.rel.2 d).2.head.1, (h.rel.2 d).1⟩, (h.rel.2 d).2.tail⟩)
    fun _ _ _ _ ht _ => ht
  -- Statements.
  stmt span hf h := (firm_stmt hf h.core).twin
    (fun d => ⟨⟨congrArg (addStmt · span) (hf.twin (h.rel.2 d).2.left), (h.rel.2 d).1⟩,
      (h.rel.2 d).2.right⟩)
    fun _ _ _ _ ht hd => rel_cons_twin ht hd id
  flaw span h hpos := (firm_flaw h.core hpos).twin
    (fun d => ⟨⟨rfl, (h.rel.2 d).1⟩, (h.rel.2 d).2⟩)
    fun _ _ _ _ ht hd => rel_cons_twin ht hd id
  list span hc h := (firm_list span hc h.core).twin
    (fun d => ⟨⟨congrArg (listStmt _ span) (hc.twin (h.rel.2 d).2.left).1, (h.rel.2 d).1⟩,
      (h.rel.2 d).2.right⟩)
    fun _ _ _ _ ht hd => ⟨ht, fun d => by
      obtain ⟨rfl, rfl, htwins⟩ := hd d
      exact ⟨rfl, htwins.cons ((hc.twin (h.rel.2 d).2.left).2 _)⟩⟩

end Pass

end FrontEnd
