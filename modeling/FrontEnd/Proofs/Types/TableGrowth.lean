import FrontEnd.Proofs.Name.InternerGrowth
import FrontEnd.Proofs.Storage.PoolContents
import FrontEnd.Types.Table

/-! Types are only added, and keep what they are. -/

namespace FrontEnd

namespace TypeTable

variable {t u : TypeTable} {id : TypeId} {d : TypeDesc} {kind : TypeKind} {text : Name}
  {names names' : Interner}

def Sound (t : TypeTable) : Prop := t.types.Sound

/-- The type is in the table. -/
def Live (t : TypeTable) (a : TypeId) : Prop := ∃ d, t.desc a = .ok d

/-- Types keep what they are. -/
def Grows (t u : TypeTable) : Prop := ∀ id d, t.desc id = .ok d → u.desc id = .ok d

theorem Grows.refl (t : TypeTable) : t.Grows t := fun _ _ h => h

theorem Grows.trans {v : TypeTable} (h : t.Grows u) (h' : u.Grows v) : t.Grows v :=
  fun id d ht => h' id d (h id d ht)

theorem desc_of_kind {k : TypeKind} (h : t.kind id = .ok k) :
    ∃ d, t.desc id = .ok d ∧ d.kind = k := by
  unfold TypeTable.kind at h
  cases hd : t.desc id with
  | error f => simp [hd, Bind.bind, Except.bind] at h
  | ok d =>
    simp only [hd, Bind.bind, Except.bind, Pure.pure, Except.pure, Except.ok.injEq] at h
    exact ⟨d, rfl, h⟩

theorem kind_of_desc (h : t.desc id = .ok d) : t.kind id = .ok d.kind := by
  simp only [TypeTable.kind, h, Bind.bind, Except.bind, Pure.pure, Except.pure]

theorem equal_eq_true {a b : TypeId} : t.equal a b = .ok true ↔
    a = b ∨ ∃ d e, t.desc a = .ok d ∧ t.desc b = .ok e ∧ d.text = e.text := by
  by_cases hsame : a = b
  · simp [equal, hsame, Pure.pure, Except.pure]
  · cases ha : t.desc a with
    | error f => simp [equal, hsame, ha, Bind.bind, Except.bind]
    | ok d =>
      cases hb : t.desc b with
      | error f => simp [equal, hsame, ha, hb, Bind.bind, Except.bind]
      | ok e => simp [equal, hsame, ha, hb, Bind.bind, Except.bind, Pure.pure, Except.pure]

theorem exists_equal {a b : TypeId} (ha : t.Live a) (hb : t.Live b) :
    ∃ same, t.equal a b = .ok same := by
  obtain ⟨d, hd⟩ := ha
  obtain ⟨e, he⟩ := hb
  unfold TypeTable.equal
  split
  · exact ⟨_, rfl⟩
  · rw [hd, he]
    exact ⟨_, rfl⟩

theorem Grows.kind_eq {k : TypeKind} (h : t.Grows u) (hk : t.kind id = .ok k) :
    u.kind id = .ok k := by
  obtain ⟨d, hd, rfl⟩ := desc_of_kind hk
  exact kind_of_desc (h id d hd)

theorem kind_of_function? {signature : Signature} (h : t.function? id = .ok (some signature)) :
    t.kind id = .ok (.function signature) := by
  unfold TypeTable.function? at h
  cases hk : t.kind id with
  | error f => simp [hk, Bind.bind, Except.bind] at h
  | ok kind =>
    simp only [hk, Bind.bind, Except.bind, Pure.pure, Except.pure, Except.ok.injEq] at h
    cases kind with
    | function s =>
      obtain rfl := Option.some.inj h
      rfl
    | basic b | struct name fields | enum name variants => cases h

theorem Grows.function? {signature : Option Signature} (h : t.Grows u)
    (hf : t.function? id = .ok signature) : u.function? id = .ok signature := by
  unfold TypeTable.function? at hf ⊢
  cases hk : t.kind id with
  | error f => simp [hk, Bind.bind, Except.bind] at hf
  | ok k =>
    rw [h.kind_eq hk]
    rwa [hk] at hf

/-- What adding a type leads to. -/
theorem Sound.add (h : t.Sound) (ha : t.add kind text = .ok (id, u)) :
    u.Sound ∧ u.desc id = .ok ⟨kind, text⟩ ∧ t.Grows u ∧
      ∀ i d, u.desc i = .ok d → i = id ∧ d = ⟨kind, text⟩ ∨ t.desc i = .ok d := by
  unfold TypeTable.add at ha
  cases hp : t.types.alloc ⟨kind, text⟩ with
  | error e => simp [hp, Bind.bind, Except.bind] at ha
  | ok r =>
    obtain ⟨slot, types⟩ := r
    simp only [hp, Bind.bind, Except.bind, Pure.pure, Except.pure, Except.ok.injEq,
      Prod.mk.injEq] at ha
    obtain ⟨rfl, rfl⟩ := ha
    obtain ⟨hs, hfree, hi, hj⟩ := Pool.Sound.alloc h hp
    refine ⟨hs, Pool.read_eq_ok.2 hi, fun i d hd => ?_, fun i d hd => ?_⟩
    · have hd := Pool.read_eq_ok.1 hd
      have hne : i.slot ≠ slot := by
        intro he
        simp [he, hfree] at hd
      exact Pool.read_eq_ok.2 ((hj _ hne).trans hd)
    · have hd := Pool.read_eq_ok.1 hd
      by_cases he : i.slot = slot
      · rw [he, hi] at hd
        exact .inl ⟨by cases i; simp_all, (Option.some.inj hd).symm⟩
      · exact .inr (Pool.read_eq_ok.2 ((hj _ he).symm.trans hd))

theorem sound_addBasics {list : List BasicType} (h : t.Sound) (hn : names.Sound)
    (ha : t.addBasics names list = .ok (u, names')) : u.Sound ∧ names'.Sound := by
  induction list generalizing t names with
  | nil =>
    simp only [addBasics, Except.ok.injEq, Prod.mk.injEq] at ha
    obtain ⟨rfl, rfl⟩ := ha
    exact ⟨h, hn⟩
  | cons b rest ih =>
    simp only [addBasics] at ha
    cases hi : names.intern b.text with
    | error e => simp [hi, Bind.bind, Except.bind] at ha
    | ok r =>
      obtain ⟨text, names₁⟩ := r
      cases ht : t.add (.basic b) text with
      | error e => simp [hi, ht, Bind.bind, Except.bind] at ha
      | ok r =>
        obtain ⟨id, t₁⟩ := r
        simp only [hi, ht, Bind.bind, Except.bind] at ha
        exact ih (h.add ht).1 (hn.intern hi).1 ha

theorem sound_withMaxSlots {maxSlots : Nat} (hn : names.Sound)
    (h : withMaxSlots names maxSlots = .ok (u, names')) : u.Sound ∧ names'.Sound :=
  sound_addBasics (Pool.sound_withMaxSlots _) hn h

end TypeTable

end FrontEnd
