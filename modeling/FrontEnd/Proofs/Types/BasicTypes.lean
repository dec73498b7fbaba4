import FrontEnd.Proofs.Types.TableGrowth

/-! The basic types, which every table of types holds first. -/

namespace FrontEnd

theorem BasicType.text_injective : Function.Injective BasicType.text := by
  intro b c h
  cases b <;> cases c <;> first | rfl | simp [BasicType.text] at h

theorem BasicType.all_ctorIdx (b : BasicType) : BasicType.all[b.ctorIdx]? = some b := by
  cases b <;> rfl

theorem BasicType.id_all : ∀ j : Fin all.length, (⟨j⟩ : TypeId) = (all.get j).id := by decide

theorem BasicType.id_eq_of_getElem? {i : Nat} {b : BasicType} (h : all[i]? = some b) :
    (⟨i⟩ : TypeId) = b.id := by
  obtain ⟨hi, rfl⟩ := List.getElem?_eq_some_iff.1 h
  exact id_all ⟨i, hi⟩

namespace TypeTable

variable {t u : TypeTable} {names names' : Interner} {id : TypeId} {d : TypeDesc}

/-- Every basic type stands at its handle, under its text. -/
def HoldsBasics (t : TypeTable) (names : Interner) : Prop :=
  ∀ b : BasicType, ∃ text, t.desc b.id = .ok ⟨.basic b, text⟩ ∧ names.Has text b.text

/-- Every basic type stands at its handle, and no two of them are equal. -/
structure Basics (t : TypeTable) : Prop where
  kind : ∀ b : BasicType, t.kind b.id = .ok (.basic b)
  equal : ∀ b c : BasicType, t.equal b.id c.id = .ok (b == c)

theorem HoldsBasics.grows (h : t.HoldsBasics names) (ht : t.Grows u) (hn : names.Grows names') :
    u.HoldsBasics names' := fun b =>
  let ⟨text, hd, htext⟩ := h b
  ⟨text, ht _ _ hd, hn _ _ htext⟩

theorem HoldsBasics.text (h : t.HoldsBasics names) (b : BasicType) :
    t.text names b.id = .ok b.text := by
  obtain ⟨name, hd, hname⟩ := h b
  simp only [TypeTable.text, hd, Bind.bind, Except.bind, Pure.pure, Except.pure, hname.lookup]

theorem HoldsBasics.basics (h : t.HoldsBasics names) : t.Basics where
  kind b := by
    obtain ⟨text, hd, -⟩ := h b
    exact kind_of_desc hd
  equal b c := by
    obtain ⟨text, hb, htext⟩ := h b
    obtain ⟨text', hc, htext'⟩ := h c
    by_cases hbc : b = c
    · simp [TypeTable.equal, hbc, Pure.pure, Except.pure]
    · have hid : b.id ≠ c.id := by
        cases b <;> cases c <;> first | decide | exact absurd rfl hbc
      have hne : text ≠ text' := by
        rintro rfl
        exact hbc (BasicType.text_injective (htext.lookup.symm.trans htext'.lookup))
      simp only [TypeTable.equal, hid, if_false, hb, hc, Bind.bind, Except.bind, Pure.pure,
        Except.pure, beq_false_of_ne hne, beq_false_of_ne hbc]

/-- A table of the basic types, each under a text of its own. -/
def ofBasics : TypeTable :=
  ⟨{ slots := (BasicType.all.map fun b => Slot.live ⟨.basic b, ⟨b.ctorIdx⟩⟩).toArray
     freeHead := none, size := BasicType.all.length, maxSlots := BasicType.all.length }⟩

theorem basics_ofBasics : ofBasics.Basics where
  kind b := by cases b <;> rfl
  equal b c := by cases b <;> cases c <;> rfl

/-! ### A new table -/

theorem ascending_add {kind : TypeKind} {text : Name} {k : Nat} (h : t.types.Ascending k)
    (ha : t.add kind text = .ok (id, u)) : id = ⟨k⟩ ∧ u.types.Ascending (k + 1) := by
  unfold TypeTable.add at ha
  cases hp : t.types.alloc ⟨kind, text⟩ with
  | error e => simp [hp, Bind.bind, Except.bind] at ha
  | ok r =>
    simp only [hp, Bind.bind, Except.bind, Pure.pure, Except.pure, Except.ok.injEq,
      Prod.mk.injEq] at ha
    obtain ⟨rfl, rfl⟩ := ha
    obtain ⟨rfl, hasc⟩ := h.alloc hp
    exact ⟨rfl, hasc⟩

/-- Where the types of a list come to stand that are added one after the other. -/
theorem addBasics_spec {list : List BasicType} {k : Nat} (h : t.types.Ascending k)
    (hn : names.Sound) (ha : t.addBasics names list = .ok (u, names')) :
    t.Grows u ∧ names.Grows names' ∧
      (∀ i b, list[i]? = some b → ∃ text, u.desc ⟨k + i⟩ = .ok ⟨.basic b, text⟩ ∧
        names'.Has text b.text) ∧
      ∀ id d, u.desc id = .ok d → t.desc id = .ok d ∨ ∃ i b, list[i]? = some b ∧ id = ⟨k + i⟩ := by
  induction list generalizing t names k with
  | nil =>
    simp only [addBasics, Except.ok.injEq, Prod.mk.injEq] at ha
    obtain ⟨rfl, rfl⟩ := ha
    exact ⟨.refl t, .refl names, by simp, fun id d hd => .inl hd⟩
  | cons b rest ih =>
    simp only [addBasics] at ha
    cases hi : names.intern b.text with
    | error e => simp [hi, Bind.bind, Except.bind] at ha
    | ok r =>
      obtain ⟨text, names₁⟩ := r
      cases ht : t.add (.basic b) text with
      | error e => simp [hi, ht, Bind.bind, Except.bind] at ha
      | ok r =>
        obtain ⟨id, t₁⟩ := r
        simp only [hi, ht, Bind.bind, Except.bind] at ha
        obtain ⟨hn₁, htext, hnames⟩ := hn.intern hi
        obtain ⟨-, hdesc, hgrows, hold⟩ := Sound.add h.sound ht
        obtain ⟨rfl, hasc⟩ := ascending_add h ht
        obtain ⟨hgrows', hnames', hspec, hnew⟩ := ih hasc hn₁ ha
        refine ⟨hgrows.trans hgrows', hnames.trans hnames', fun i c hc => ?_, fun id d hd => ?_⟩
        · cases i with
          | zero =>
            cases hc
            exact ⟨text, hgrows' _ _ hdesc, hnames' _ _ htext⟩
          | succ i =>
            have := hspec i c hc
            rwa [Nat.add_assoc, Nat.add_comm 1 i] at this
        · rcases hnew id d hd with hd | ⟨i, c, hc, rfl⟩
          · rcases hold id d hd with ⟨rfl, rfl⟩ | hd
            · exact .inr ⟨0, b, rfl, rfl⟩
            · exact .inl hd
          · exact .inr ⟨i + 1, c, hc, by rw [Nat.add_assoc, Nat.add_comm 1 i]⟩

/-- A new table holds the basic types and no others. -/
theorem holdsBasics_withMaxSlots {maxSlots : Nat} (hn : names.Sound)
    (h : withMaxSlots names maxSlots = .ok (u, names')) :
    u.HoldsBasics names' ∧ ∀ id d, u.desc id = .ok d → ∃ b : BasicType, id = b.id := by
  obtain ⟨-, -, hspec, hnew⟩ := addBasics_spec (Pool.ascending_withMaxSlots _) hn h
  refine ⟨fun b => ?_, fun id d hd => ?_⟩
  · have := hspec b.ctorIdx b b.all_ctorIdx
    rwa [Nat.zero_add] at this
  · rcases hnew id d hd with hd | ⟨i, b, hb, rfl⟩
    · exact absurd (Pool.read_eq_ok.1 hd) (by simp [Pool.get?])
    · rw [Nat.zero_add]
      exact ⟨b, BasicType.id_eq_of_getElem? hb⟩

end TypeTable

/-! ### Types of values -/

namespace ValueKind

variable {types : TypeTable} {k l : ValueKind}

/-- The basic type of values of this kind. -/
def basic : ValueKind → BasicType
  | .char => .char
  | .integer => .integer
  | .long => .long
  | .float => .float
  | .double => .double
  | .bool => .bool

theorem id_basic (k : ValueKind) : k.basic.id = k.type := by cases k <;> rfl

theorem rank?_basic (k : ValueKind) :
    k.basic.rank? = if k = .bool then none else some k.rank := by
  cases k <;> rfl

theorem rank_injective : Function.Injective rank := by
  intro k l h
  cases k <;> cases l <;> first | rfl | cases h

theorem type_ne_invalid (k : ValueKind) : k.type ≠ .invalid := by cases k <;> decide

theorem type_ne_void (k : ValueKind) : k.type ≠ .void := by cases k <;> decide

end ValueKind

namespace TypeTable.Basics

variable {types : TypeTable} (h : types.Basics) (k l : ValueKind)

include h

theorem rank?_type : types.rank? k.type = .ok (if k = .bool then none else some k.rank) := by
  simp only [TypeTable.rank?, ← k.id_basic, h.kind, Bind.bind, Except.bind, Pure.pure, Except.pure,
    TypeKind.rank?, TypeKind.basic?, Option.bind_some, k.rank?_basic]

theorem isNumeric_type : types.isNumeric k.type = .ok (k != .bool) := by
  simp only [TypeTable.isNumeric, h.rank?_type, Bind.bind, Except.bind, Pure.pure, Except.pure]
  cases k <;> rfl

theorem isIntegral_type : types.isIntegral k.type = .ok k.isIntegral := by
  simp only [TypeTable.isIntegral, h.rank?_type, Bind.bind, Except.bind, Pure.pure, Except.pure]
  cases k <;> rfl

/-- The checker and the machine agree on the wider of two kinds. -/
theorem wider_type {m : ValueKind} (hw : k.wider l = some m) :
    types.wider k.type l.type = .ok m.type := by
  simp only [TypeTable.wider, h.rank?_type, Bind.bind, Except.bind, Pure.pure, Except.pure]
  unfold ValueKind.wider at hw
  split at hw
  next => cases hw
  next hbool =>
    rw [not_or] at hbool
    obtain rfl := Option.some.inj hw
    simp only [hbool.1, hbool.2, if_false]
    rcases Nat.lt_trichotomy k.rank l.rank with hlt | heq | hgt
    · simp [hlt, Nat.le_of_lt hlt]
    · simp [ValueKind.rank_injective heq]
    · simp [Nat.not_lt_of_gt hgt, Nat.not_le_of_gt hgt]

theorem equal_type : types.equal k.type l.type = .ok (k == l) := by
  rw [← k.id_basic, ← l.id_basic, h.equal]
  cases k <;> cases l <;> rfl

end TypeTable.Basics

end FrontEnd
