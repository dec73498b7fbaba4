import FrontEnd.Proofs.Name.InternerGrowth
import FrontEnd.Proofs.Storage.ArenaDiscipline
import Mathlib.Data.List.Nodup

/-!
Whatever is asked of an interner, and whatever its hash function does, names and texts stay one to
one, and the texts are those that an arena holds in which each was stored when it got its name.
-/

namespace FrontEnd

/-- What may be asked of an interner. -/
inductive InternerCall
  | intern (text : String)
  | get (text : String)
  | lookup (n : Name)
  deriving DecidableEq, Repr

inductive InternerAnswer
  | interned (result : Except StorageError Name)
  | found (n : Option Name)
  | read (text : String)

/-- The name that a text is given by an answer. -/
def InternerAnswer.given? : InternerCall → InternerAnswer → Option (String × Name)
  | .intern text, .interned (.ok n) => some (text, n)
  | _, _ => none

/-- Bytes of all texts together. -/
def textBytes : List String → Nat
  | [] => 0
  | text :: texts => text.utf8ByteSize + textBytes texts

@[simp] theorem textBytes_cons (text : String) (texts : List String) :
    textBytes (text :: texts) = text.utf8ByteSize + textBytes texts := rfl

theorem textBytes_append (texts more : List String) :
    textBytes (texts ++ more) = textBytes texts + textBytes more := by
  induction texts with
  | nil => rw [List.nil_append, textBytes, Nat.zero_add]
  | cons text texts ih => rw [List.cons_append, textBytes_cons, textBytes_cons, ih, Nat.add_assoc]

/-- Of different texts only one is without a byte. -/
theorem length_le_textBytes {texts : List String} (h : texts.Nodup) :
    texts.length ≤ textBytes texts + 1 := by
  have hpos : ∀ list : List String, "" ∉ list → list.length ≤ textBytes list := by
    intro list hlist
    induction list with
    | nil => exact Nat.le_refl _
    | cons text rest ih =>
      rw [List.mem_cons, not_or] at hlist
      have hne : text.utf8ByteSize ≠ 0 :=
        fun hz => hlist.1 (String.utf8ByteSize_eq_zero_iff.1 hz).symm
      have := ih hlist.2
      rw [List.length_cons, textBytes_cons]
      omega
  induction texts with
  | nil => exact Nat.zero_le _
  | cons text rest ih =>
    obtain ⟨hnotMem, hrest⟩ := List.nodup_cons.1 h
    rw [List.length_cons, textBytes_cons]
    by_cases he : text = ""
    · have := hpos rest (he ▸ hnotMem)
      omega
    · have hne : text.utf8ByteSize ≠ 0 := fun hz => he (String.utf8ByteSize_eq_zero_iff.1 hz)
      have := ih hrest
      omega

/-- Texts that fit are stored one behind the other. -/
theorem Arena.Sound.storeTexts {a : Arena} (hs : a.Sound) (texts : List String)
    (hfit : a.pos + textBytes texts ≤ a.reserve) :
    let b := a.run (texts.map .storeText)
    b.Sound ∧ b.reserve = a.reserve ∧ b.pos = a.pos + textBytes texts ∧ Agree a.pos a b ∧
      ∀ i text, texts[i]? = some text →
        b.Holds ⟨a.pos + textBytes (texts.take i), text.utf8ByteSize⟩ (utf8 text) := by
  induction texts generalizing a with
  | nil => exact ⟨hs, rfl, rfl, .refl _ _, nofun⟩
  | cons text rest ih =>
    rw [textBytes_cons] at hfit
    obtain ⟨⟨r, c⟩, hc⟩ := exists_store.2 (show a.pos + (utf8 text).length ≤ a.reserve by
      rw [length_utf8]
      omega)
    obtain ⟨hsound, hpos, hagree, rfl, hholds⟩ := hs.store hc
    rw [length_utf8] at hpos
    have hserve : a.serve (.storeText text) = c := by
      rw [Arena.serve, storeText_eq, hc, after]
    obtain ⟨hlast, hreserve, hend, hrest, hstand⟩ := ih hsound (by rw [hagree.reserve]; omega)
    rw [List.map_cons, Arena.run, List.foldl_cons, hserve]
    refine ⟨hlast, hreserve.trans hagree.reserve, ?_, hagree.trans (hrest.mono (by omega)), ?_⟩
    · rw [textBytes_cons, ← Nat.add_assoc, ← hpos]
      exact hend
    · rintro (_ | i) s hi
      · cases hi
        exact hholds.of_agree (hrest.mono hpos.ge)
      · have := hstand i s hi
        rwa [hpos, Nat.add_assoc, ← textBytes_cons] at this

namespace Interner

variable {t u : Interner} {n m : Name} {text other : String} {e : StorageError}

/-- The answer to a call, and the interner after it. One that has no room stays as it is. -/
def respond (t : Interner) : InternerCall → InternerAnswer × Interner
  | .intern text =>
    match t.intern text with
    | .ok (n, u) => (.interned (.ok n), u)
    | .error e => (.interned (.error e), t)
  | .get text => (.found (t.get? text), t)
  | .lookup n => (.read (t.lookup n), t)

/-- The answers to calls in order, and what they lead to. -/
def run (t : Interner) : List InternerCall → List InternerAnswer × Interner
  | [] => ([], t)
  | call :: calls =>
    let (answer, t) := t.respond call
    let (answers, t) := run t calls
    (answer :: answers, t)

/-- The texts with the names that were handed out for them. -/
def handedOut (calls : List InternerCall) (answers : List InternerAnswer) : List (String × Name) :=
  (calls.zip answers).filterMap fun (call, answer) => answer.given? call

/-- The arena in which every text was stored when it got its name. -/
def storage (t : Interner) : Arena :=
  (Arena.withReserve t.reserve).run (t.texts.toList.map .storeText)

/-- Where the text of a name lies. -/
def place (t : Interner) (n : Name) : ByteRange :=
  ⟨textBytes (t.texts.toList.take n.index), (t.lookup n).utf8ByteSize⟩

/-- Every text that was handed a name is found under that name, and there is room for all of
them. -/
structure Lexical (t : Interner) : Prop where
  sound : t.Sound
  first : t.Has .empty ""
  complete : ∀ n text, t.Has n text → t.get? text = some n
  used : t.used = textBytes t.texts.toList
  room : t.used ≤ t.reserve
  reserve_le : t.reserve ≤ maxOffset

theorem lexical_withHash (hashOf : String → UInt64) (reserve : Nat) :
    (withHash hashOf reserve).Lexical where
  sound := sound_withHash hashOf reserve
  first := rfl
  complete n text h := by
    have hzero : n = .empty ∧ text = "" := by
      obtain ⟨_ | i⟩ := n
      · exact ⟨rfl, (Option.some.inj h).symm⟩
      · simp [Has, withHash] at h
    obtain ⟨rfl, rfl⟩ := hzero
    simp [Interner.get?, withHash, Interner.lookup, Name.empty]
  used := rfl
  room := Nat.zero_le _
  reserve_le := Nat.min_le_right _ _

theorem Lexical.get?_iff (h : t.Lexical) : t.get? text = some n ↔ t.Has n text :=
  ⟨h.sound.get?, h.complete n text⟩

theorem Has.inj (h : t.Has n text) (h' : t.Has n other) : text = other := by
  rw [← h.lookup, h'.lookup]

theorem Lexical.name_inj (h : t.Lexical) (hn : t.Has n text) (hm : t.Has m text) : n = m :=
  Option.some.inj ((h.complete n text hn).symm.trans (h.complete m text hm))

theorem Lexical.nodup (h : t.Lexical) : t.texts.toList.Nodup := by
  refine List.nodup_iff_getElem?_ne_getElem?.2 fun i j hij hj he => ?_
  have hj' : t.Has ⟨j⟩ t.texts.toList[j] := by simp [Has]
  have hi' : t.Has ⟨i⟩ t.texts.toList[j] := by
    rw [Has, ← Array.getElem?_toList, he, List.getElem?_eq_getElem hj]
  have := congrArg Name.index (h.name_inj hi' hj')
  exact absurd this (Nat.ne_of_lt hij)

/-- Names have 32 bits. -/
theorem Lexical.size_le (h : t.Lexical) : t.size ≤ maxOffset + 1 := by
  have hlen := length_le_textBytes h.nodup
  rw [Array.length_toList, ← h.used] at hlen
  exact hlen.trans (Nat.succ_le_succ (h.room.trans h.reserve_le))

/-! ### One call -/

theorem has_push_iff : (t.push text).2.Has m other ↔
    t.Has m other ∨ m = (t.push text).1 ∧ other = text := by
  constructor
  · intro h
    simp only [Has, Interner.push, Array.getElem?_push] at h ⊢
    split at h
    next he => exact .inr ⟨congrArg Name.mk he, (Option.some.inj h).symm⟩
    next => exact .inl h
  · rintro (h | ⟨rfl, rfl⟩)
    · exact grows_push t text m other h
    · exact has_push t other

theorem Lexical.push (h : t.Lexical) (hnew : t.get? text = none)
    (hroom : t.used + text.utf8ByteSize ≤ t.reserve) : (t.push text).2.Lexical where
  sound := h.sound.push text
  first := grows_push t text _ _ h.first
  complete n other hn := by
    rcases has_push_iff.1 hn with hn | ⟨rfl, rfl⟩
    · exact h.sound.get?_push_of_some (h.complete n other hn) text
    · exact h.sound.get?_push hnew
  used := by
    change t.used + _ = textBytes (t.texts.push text).toList
    rw [Array.toList_push, textBytes_append, h.used]
    rfl
  room := hroom
  reserve_le := h.reserve_le

/-- What interning a text leads to, when it succeeds. -/
theorem Lexical.intern (h : t.Lexical) (hi : t.intern text = .ok (n, u)) :
    u.Lexical ∧ u.reserve = t.reserve ∧
      ∀ m other, u.Has m other ↔ t.Has m other ∨ other = text ∧ m = n := by
  unfold Interner.intern at hi
  split at hi
  next k hk =>
    cases hi
    refine ⟨h, rfl, fun m other => ⟨.inl, ?_⟩⟩
    rintro (hm | ⟨rfl, rfl⟩)
    · exact hm
    · exact h.get?_iff.1 hk
  next hnew =>
    split at hi
    next hroom =>
      have he := Except.ok.inj hi
      obtain ⟨rfl, rfl⟩ : n = (t.push text).1 ∧ u = (t.push text).2 := by rw [he]; exact ⟨rfl, rfl⟩
      refine ⟨h.push hnew hroom, rfl, fun m other => ?_⟩
      rw [has_push_iff, and_comm (a := m = _)]
    next => cases hi

theorem Lexical.respond (h : t.Lexical) (call : InternerCall) :
    (t.respond call).2.Lexical ∧ (t.respond call).2.reserve = t.reserve ∧
      ∀ m other, (t.respond call).2.Has m other ↔
        t.Has m other ∨ (t.respond call).1.given? call = some (other, m) := by
  cases call with
  | intern text =>
    simp only [Interner.respond]
    cases hi : t.intern text with
    | ok r =>
      obtain ⟨hu, hreserve, hhas⟩ := h.intern hi
      refine ⟨hu, hreserve, fun m other => ?_⟩
      rw [hhas]
      simp [InternerAnswer.given?, eq_comm]
    | error e => exact ⟨h, rfl, fun m other => by simp [InternerAnswer.given?]⟩
  | get text => exact ⟨h, rfl, fun m other => by simp [Interner.respond, InternerAnswer.given?]⟩
  | lookup n => exact ⟨h, rfl, fun m other => by simp [Interner.respond, InternerAnswer.given?]⟩

/-! ### Runs -/

theorem Lexical.run (h : t.Lexical) (calls : List InternerCall) :
    (t.run calls).2.Lexical ∧ (t.run calls).2.reserve = t.reserve ∧
      ∀ m other, (t.run calls).2.Has m other ↔
        t.Has m other ∨ (other, m) ∈ handedOut calls (t.run calls).1 := by
  induction calls generalizing t with
  | nil => exact ⟨h, rfl, fun m other => by simp [Interner.run, handedOut]⟩
  | cons call calls ih =>
    obtain ⟨hfirst, hreserve, hhas⟩ := h.respond call
    obtain ⟨hlast, hreserve', hhas'⟩ := ih hfirst
    refine ⟨hlast, hreserve'.trans hreserve, fun m other => (hhas' m other).trans ?_⟩
    rw [hhas, or_assoc]
    simp only [Interner.run, handedOut, List.zip_cons_cons, List.filterMap_cons]
    cases hg : (t.respond call).1.given? call with
    | none => simp
    | some pair => simp [eq_comm]

/-! ### Storage -/

theorem Lexical.storage (h : t.Lexical) : t.storage.Sound ∧ t.storage.reserve = t.reserve ∧
    t.storage.pos = t.used ∧
      ∀ n text, t.Has n text → t.storage.Holds (t.place n) (utf8 text) := by
  have hreserve : (Arena.withReserve t.reserve).reserve = t.reserve := Nat.min_eq_left h.reserve_le
  have hpos : (Arena.withReserve t.reserve).pos = 0 := rfl
  have hroom := h.room
  rw [h.used] at hroom ⊢
  obtain ⟨hsound, hkept, hend, -, hstand⟩ :=
    (Arena.sound_withReserve t.reserve).storeTexts t.texts.toList (by omega)
  refine ⟨hsound, hkept.trans hreserve, by rw [Interner.storage, hend, hpos, Nat.zero_add], ?_⟩
  intro n text hn
  have := hstand n.index text (by simpa [Has] using hn)
  rw [hpos, Nat.zero_add, ← hn.lookup] at this
  exact hn.lookup ▸ this

/-- A text is refused just if it is new and the arena has no room for it. -/
theorem Lexical.refused_iff (h : t.Lexical) : t.intern text = .error e ↔
    t.get? text = none ∧ t.storage.storeText text = .error e := by
  obtain ⟨-, hreserve, hpos, -⟩ := h.storage
  cases hg : t.get? text with
  | some n => simp [Interner.intern, hg]
  | none =>
    by_cases hroom : t.used + text.utf8ByteSize ≤ t.reserve
    · obtain ⟨r, hr⟩ := Arena.exists_store.2 (show t.storage.pos + (utf8 text).length ≤ _ by
        rwa [hpos, hreserve, length_utf8])
      simp [Interner.intern, hg, hroom, Arena.storeText_eq, hr]
    · rw [Arena.storeText_eq, Arena.store_refused (by rw [hpos, hreserve, length_utf8]; omega)]
      simp [Interner.intern, hg, hroom, hpos, hreserve]

/-- Names and texts are one to one: the texts of `given`, each with the name it was given. -/
structure OneToOne (t : Interner) (given : List (String × Name)) : Prop where
  /-- The names run from 0 without a gap, and fit into 32 bits. -/
  dense : ∀ n : Name, n.index < t.size ↔ ∃ text, (text, n) ∈ given
  size_le : t.size ≤ maxOffset + 1
  same_iff : ∀ text n other m, (text, n) ∈ given → (other, m) ∈ given → (n = m ↔ text = other)
  get?_iff : ∀ text n, t.get? text = some n ↔ (text, n) ∈ given
  /-- Whatever is asked later, a name keeps its text, and the text its name. -/
  lasting : ∀ text n later, (text, n) ∈ given →
    (t.run later).2.lookup n = text ∧ (t.run later).2.get? text = some n
  /-- A text is read from where it was stored. -/
  stored : ∀ text n, (text, n) ∈ given → t.storage.text (t.place n) = text
  refused_iff : ∀ text e, t.intern text = .error e ↔
    (∀ n, (text, n) ∉ given) ∧ t.storage.storeText text = .error e
  refused : ∀ text e, (t.respond (.intern text)).1 = .interned (.error e) →
    (t.respond (.intern text)).2 = t

theorem Lexical.oneToOne {given : List (String × Name)} (h : t.Lexical)
    (hg : ∀ n text, t.Has n text ↔ (text, n) ∈ given) : t.OneToOne given where
  dense n := by
    simp only [← hg, Has, size]
    rw [← Option.isSome_iff_exists, isSome_getElem?]
  size_le := h.size_le
  same_iff text n other m hn hm := by
    rw [← hg] at hn hm
    exact ⟨fun he => hn.inj (he ▸ hm), fun he => h.name_inj hn (he ▸ hm)⟩
  get?_iff text n := h.get?_iff.trans (hg n text)
  lasting text n later hn := by
    obtain ⟨hlast, -, hhas⟩ := h.run later
    have hlater := (hhas n text).2 (.inl ((hg n text).2 hn))
    exact ⟨hlater.lookup, hlast.complete n text hlater⟩
  stored text n hn := by
    obtain ⟨-, -, -, hholds⟩ := h.storage
    rw [Arena.text, (hholds n text ((hg n text).2 hn)).bytes_eq]
    exact utf8Text_utf8 text
  refused_iff text e := by
    rw [h.refused_iff, Option.eq_none_iff_forall_ne_some]
    simp only [ne_eq, h.get?_iff, hg]
  refused text e he := by
    simp only [Interner.respond] at he ⊢
    cases hi : t.intern text with
    | ok r => simp [hi] at he
    | error e => rfl

/-- Under any hash function, any reservation and any calls, names and texts are one to one: the
empty text with the name 0, and every text with the name that interning it gave. -/
theorem one_to_one_run (hashOf : String → UInt64) (reserve : Nat) (calls : List InternerCall) :
    ((withHash hashOf reserve).run calls).2.OneToOne
        (("", .empty) :: handedOut calls ((withHash hashOf reserve).run calls).1) ∧
      ((withHash hashOf reserve).run calls).2.reserve = min reserve maxOffset := by
  obtain ⟨hlast, hreserve, hhas⟩ := (lexical_withHash hashOf reserve).run calls
  refine ⟨hlast.oneToOne fun n text => ?_, hreserve⟩
  rw [hhas, List.mem_cons]
  refine or_congr_left ⟨fun h => ?_, fun h => ?_⟩
  · obtain ⟨_ | i⟩ := n
    · exact congrArg₂ Prod.mk (Option.some.inj h).symm rfl
    · simp [Has, withHash] at h
  · cases h
    rfl

end Interner

end FrontEnd
