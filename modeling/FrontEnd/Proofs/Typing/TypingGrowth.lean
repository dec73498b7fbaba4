import FrontEnd.Proofs.Types.TableGrowth
import FrontEnd.Typing.Lookup
import FrontEnd.Typing.Operators

/-! What was found out about types stays true when more types are added. -/

namespace FrontEnd

variable {α β : Type} {r r' : Except Fault α} {f f' : α → Except Fault β} {t u : TypeTable}
  {a b id : TypeId}

/-- A result stays; only a fault may turn into one. -/
def Stays (r r' : Except Fault α) : Prop := ∀ a, r = .ok a → r' = .ok a

theorem stays_refl (r : Except Fault α) : Stays r r := fun _ h => h

theorem Stays.bind (h : Stays r r') (hf : ∀ a, Stays (f a) (f' a)) :
    Stays (r >>= f) (r' >>= f') := by
  intro b hb
  cases r with
  | error e => cases hb
  | ok a =>
    rw [h a rfl]
    exact hf a b hb

/-- A result after another one. -/
theorem bind_ok {ε : Type} {r : Except ε α} {f : α → Except ε β} {b : β} (h : r >>= f = .ok b) :
    ∃ a, r = .ok a ∧ f a = .ok b := by
  cases r with
  | ok a => exact ⟨a, rfl, h⟩
  | error e => cases h

theorem allM_eq_true {l : List α} {p : α → Except Fault Bool} :
    l.allM p = .ok true ↔ ∀ a ∈ l, p a = .ok true := by
  induction l with
  | nil => simp [List.allM, Pure.pure, Except.pure]
  | cons a l ih =>
    rw [List.forall_mem_cons, ← ih]
    simp only [List.allM]
    cases p a with
    | error f => simp [Bind.bind, Except.bind]
    | ok fits => cases fits <;> simp [Bind.bind, Except.bind, Pure.pure, Except.pure]

theorem stays_ite {p : Prop} [Decidable p] {s s' : Except Fault α} (h : Stays r r')
    (h' : Stays s s') : Stays (if p then r else s) (if p then r' else s') := by
  split
  · exact h
  · exact h'

theorem stays_allM {l : List α} {p p' : α → Except Fault Bool} (h : ∀ a, Stays (p a) (p' a)) :
    Stays (l.allM p) (l.allM p') := by
  induction l with
  | nil => exact stays_refl _
  | cons a l ih =>
    simp only [List.allM]
    refine (h a).bind fun found => ?_
    cases found with
    | true => exact ih
    | false => exact stays_refl _

namespace TypeTable.Grows

theorem stays_desc (h : t.Grows u) : Stays (t.desc id) (u.desc id) := h id

theorem stays_kind (h : t.Grows u) : Stays (t.kind id) (u.kind id) :=
  h.stays_desc.bind fun _ => stays_refl _

theorem stays_equal (h : t.Grows u) : Stays (t.equal a b) (u.equal a b) :=
  stays_ite (stays_refl _) (h.stays_desc.bind fun _ => h.stays_desc.bind fun _ => stays_refl _)

theorem stays_rank? (h : t.Grows u) : Stays (t.rank? id) (u.rank? id) :=
  h.stays_kind.bind fun _ => stays_refl _

theorem stays_isNumeric (h : t.Grows u) : Stays (t.isNumeric id) (u.isNumeric id) :=
  h.stays_rank?.bind fun _ => stays_refl _

theorem stays_isIntegral (h : t.Grows u) : Stays (t.isIntegral id) (u.isIntegral id) :=
  h.stays_rank?.bind fun _ => stays_refl _

theorem stays_compatible (h : t.Grows u) : Stays (t.compatible a b) (u.compatible a b) :=
  h.stays_equal.bind fun _ => stays_ite (stays_refl _) <| stays_ite (stays_refl _) <|
    h.stays_rank?.bind fun _ => h.stays_rank?.bind fun _ => stays_refl _

theorem stays_wider (h : t.Grows u) : Stays (t.wider a b) (u.wider a b) :=
  h.stays_rank?.bind fun _ => h.stays_rank?.bind fun _ => stays_refl _

theorem stays_both {p p' : TypeId → Except Fault Bool} (h : ∀ id, Stays (p id) (p' id)) :
    Stays (OperatorGroup.both p a b) (OperatorGroup.both p' a b) :=
  (h a).bind fun _ => stays_ite (h b) (stays_refl _)

theorem stays_group (h : t.Grows u) (group : OperatorGroup) :
    Stays (group.accepts t a b) (group.accepts u a b) := by
  have hnumeric := @stays_both a b t.isNumeric u.isNumeric fun _ => h.stays_isNumeric
  have hintegral := @stays_both a b t.isIntegral u.isIntegral fun _ => h.stays_isIntegral
  cases group with
  | term | factor =>
    exact hnumeric.bind fun _ => stays_ite (h.stays_wider.bind fun _ => stays_refl _) (stays_refl _)
  | bitwise =>
    exact hintegral.bind fun _ =>
      stays_ite (h.stays_wider.bind fun _ => stays_refl _) (stays_refl _)
  | equality =>
    exact hnumeric.bind fun _ => stays_ite (stays_refl _)
      (h.stays_equal.bind fun _ => stays_ite (stays_refl _) (stays_refl _))
  | comparison => exact hnumeric.bind fun _ => stays_ite (stays_refl _) (stays_refl _)
  | logical => exact stays_refl _

theorem stays_binary (h : t.Grows u) (op : BinaryOp) :
    Stays (checkBinary t op a b) (checkBinary u op a b) :=
  stays_ite (stays_refl _) ((h.stays_group _).bind fun _ => stays_refl _)

theorem stays_unary (h : t.Grows u) (op : UnaryOp) :
    Stays (checkUnary t op a) (checkUnary u op a) := by
  refine stays_ite (stays_refl _) (Stays.bind ?_ fun _ => stays_refl _)
  cases op with
  | neg | plus | preInc | preDec => exact h.stays_isNumeric
  | bitNot => exact h.stays_isIntegral
  | not => exact stays_refl _

theorem stays_accepts (h : t.Grows u) (exact : Bool) (o : Overload) (args : List TypeId) :
    Stays (o.accepts t exact args) (o.accepts u exact args) :=
  stays_ite (stays_allM fun _ => stays_ite h.stays_equal h.stays_compatible) (stays_refl _)

end TypeTable.Grows

end FrontEnd
