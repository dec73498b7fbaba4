import FrontEnd.Proofs.Typing.Flows

/-!
Where values of structs can go. Types are told apart by their canonical texts alone, and that of a
struct is its name, which can be declared again. So a value of a struct goes where a type with the
same text is wanted, and it has the fields that are wanted there unless its text is also that of
something else.
-/

namespace FrontEnd

namespace TypeTable

variable {types : TypeTable} {src dst left right type target value stored : TypeId} {name : Name}
  {fields : List Field}

/-- If the source is a struct, then the destination has its canonical text, and also its fields
unless something else has that text. -/
def Keeps (types : TypeTable) (src dst : TypeId) : Prop :=
  ∀ name fields, types.kind src = .ok (.struct name fields) → types.equal src dst = .ok true ∧
    ((∀ id kind, types.equal src id = .ok true → types.kind id = .ok kind →
      kind = .struct name fields) → types.kind dst = .ok (.struct name fields))

theorem equal_comm (h : types.equal left right = .ok true) : types.equal right left = .ok true := by
  obtain rfl | ⟨d, e, hd, he, htext⟩ := equal_eq_true.1 h
  · exact h
  · exact equal_eq_true.2 (.inr ⟨e, d, he, hd, htext.symm⟩)

theorem keeps_of_equal (h : ∀ name fields, types.kind src = .ok (.struct name fields) →
    types.equal src dst = .ok true) : types.Keeps src dst := by
  intro name fields hk
  have hequal := h name fields hk
  refine ⟨hequal, fun hsole => ?_⟩
  obtain rfl | ⟨d, e, hd, he, htext⟩ := equal_eq_true.1 hequal
  · exact hk
  · rw [kind_of_desc he, hsole dst e.kind hequal (kind_of_desc he)]

/-! ### Structs do not widen -/

section

variable (hk : types.kind src = .ok (.struct name fields))

include hk

theorem rank?_struct : types.rank? src = .ok none := by
  rw [rank?, hk]
  rfl

theorem isNumeric_struct : types.isNumeric src = .ok false := by
  rw [isNumeric, rank?_struct hk]
  rfl

theorem isIntegral_struct : types.isIntegral src = .ok false := by
  rw [isIntegral, rank?_struct hk]
  rfl

theorem Basics.struct_ne (hb : types.Basics) (b : BasicType) : src ≠ b.id := by
  rintro rfl
  cases (hb.kind b).symm.trans hk

theorem Basics.equal_of_compatible (hb : types.Basics) (hdst : dst ≠ .invalid)
    (hc : types.compatible src dst = .ok true) : types.equal src dst = .ok true := by
  have hsrc : src ≠ .invalid := hb.struct_ne hk .invalid
  obtain ⟨same, he, hrest⟩ := bind_ok hc
  cases same with
  | true => exact he
  | false =>
    rw [if_neg Bool.false_ne_true, if_neg (not_or.2 ⟨hsrc, hdst⟩)] at hrest
    obtain ⟨rank, hrank, hrest⟩ := bind_ok hrest
    cases (rank?_struct hk).symm.trans hrank
    obtain ⟨rank, -, hrest⟩ := bind_ok hrest
    cases hrest

end

theorem Basics.keeps_of_compatible (hb : types.Basics) (hdst : dst ≠ .invalid)
    (hc : types.compatible src dst = .ok true) : types.Keeps src dst :=
  keeps_of_equal fun _ _ hk => hb.equal_of_compatible hk hdst hc

/-! ### Assignments -/

theorem both_ne_true {p : TypeId → Except Fault Bool} (hr : p right = .ok false) :
    OperatorGroup.both p left right ≠ .ok true := by
  intro h
  obtain ⟨fits, -, hrest⟩ := bind_ok h
  cases fits with
  | true => cases hr.symm.trans hrest
  | false => cases hrest

/-- The only operators that accept a struct compare it with a value of an equal type. -/
theorem equal_of_group {group : OperatorGroup} (hk : types.kind right = .ok (.struct name fields))
    (hbool : right ≠ .bool) (h : group.accepts types left right = .ok (some type)) :
    types.equal left right = .ok true := by
  cases group with
  | term | factor | comparison =>
    obtain ⟨fits, hfits, hrest⟩ := bind_ok h
    cases fits with
    | true => exact absurd hfits (both_ne_true (isNumeric_struct hk))
    | false => cases hrest
  | bitwise =>
    obtain ⟨fits, hfits, hrest⟩ := bind_ok h
    cases fits with
    | true => exact absurd hfits (both_ne_true (isIntegral_struct hk))
    | false => cases hrest
  | equality =>
    obtain ⟨fits, hfits, hrest⟩ := bind_ok h
    cases fits with
    | true => exact absurd hfits (both_ne_true (isNumeric_struct hk))
    | false =>
      obtain ⟨same, hsame, hrest⟩ := bind_ok hrest
      cases same with
      | true => exact hsame
      | false => cases hrest
  | logical => simp [OperatorGroup.accepts, hbool, Pure.pure, Except.pure] at h

theorem Basics.equal_of_binary {op : BinaryOp} (hb : types.Basics)
    (hk : types.kind right = .ok (.struct name fields)) (hl : left ≠ .invalid)
    (h : checkBinary types op left right = .ok (.accepted type)) :
    types.equal left right = .ok true := by
  have hr : right ≠ .invalid := hb.struct_ne hk .invalid
  unfold checkBinary at h
  dsimp only at h
  rw [if_neg (not_or.2 ⟨hl, hr⟩)] at h
  obtain ⟨found, hfound, hrest⟩ := bind_ok h
  cases found with
  | none => cases hrest
  | some type => exact equal_of_group hk (hb.struct_ne hk .bool) hfound

theorem Basics.not_bitNot (hb : types.Basics) (hk : types.kind src = .ok (.struct name fields)) :
    checkUnary types .bitNot src ≠ .ok (.accepted type) := by
  have hsrc : src ≠ .invalid := hb.struct_ne hk .invalid
  unfold checkUnary
  rw [if_neg hsrc, UnaryOp.accepts, isIntegral_struct hk]
  exact nofun

/-- Whatever it is that an assignment stores. -/
theorem Basics.keeps_of_stores {op : AssignOp} (hb : types.Basics) (ht : target ≠ .invalid)
    (hs : op.Stores types target value stored)
    (hc : types.compatible stored target = .ok true) : types.Keeps value target := by
  refine keeps_of_equal fun name fields hk => ?_
  cases op with
  | assign =>
    obtain rfl : stored = value := hs
    exact hb.equal_of_compatible hk ht hc
  | compound binary => exact equal_comm (hb.equal_of_binary hk ht hs)
  | complement => exact absurd hs (hb.not_bitNot hk)

/-! ### Calls -/

/-- There is an argument for each parameter, and it goes there. -/
theorem Basics.keeps_of_accepts {o : Overload} {exact : Bool} {args : List TypeId}
    (hb : types.Basics) (hparams : ∀ type ∈ o.params, type ≠ .invalid)
    (h : o.accepts types exact args = .ok true) : o.params.length ≤ args.length ∧
      ∀ p ∈ o.params.zip args, types.Keeps p.2 p.1 := by
  unfold Overload.accepts at h
  split at h
  next harity =>
    refine ⟨?_, fun p hp => ?_⟩
    · unfold Overload.fitsArity at harity
      split at harity
      · exact of_decide_eq_true harity
      · exact Nat.le_of_eq (beq_iff_eq.1 harity)
    · have hfits := allM_eq_true.1 h p hp
      cases exact with
      | true => exact keeps_of_equal fun _ _ _ => hfits
      | false => exact hb.keeps_of_compatible (hparams p.1 (List.of_mem_zip hp).1) hfits
  next => cases h

end TypeTable

end FrontEnd
