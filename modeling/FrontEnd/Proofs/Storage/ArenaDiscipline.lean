import FrontEnd.Proofs.Storage.Bytes
import FrontEnd.Storage.Draft

/-!
Whatever is asked of an arena, the cursor stays within what is committed and that within the
reservation; and what was stored reads back for as long as the cursor stays behind it.
-/

namespace FrontEnd

theorem dvd_roundUp (unit size : Nat) : unit ∣ roundUp unit size := Nat.dvd_mul_left ..

namespace ByteRange

def stop (r : ByteRange) : Nat := r.offset + r.len

/-- No byte lies in both. -/
def Apart (r s : ByteRange) : Prop := min r.stop s.stop ≤ max r.offset s.offset

instance (r s : ByteRange) : Decidable (r.Apart s) := inferInstanceAs (Decidable (_ ≤ _))

end ByteRange

namespace Draft

variable {d : Draft} {piece : String}

theorem size_put (h : d.size + piece.utf8ByteSize ≤ d.reserve) :
    (d.put piece).size = d.size + piece.utf8ByteSize := by
  rw [put, if_pos h, size, String.utf8ByteSize_append, size]

end Draft

namespace Arena

variable {a b : Arena} {r : ByteRange} {bytes more : List UInt8} {size offset stop : Nat}

/-- The cursor is within what is committed, and that is within the reservation: whole chunks, or
all of it. -/
structure Sound (a : Arena) : Prop where
  pos_le : a.pos ≤ a.committed
  committed_le : a.committed ≤ a.reserve
  chunked : commitChunk ∣ a.committed ∨ a.committed = a.reserve
  reserve_le : a.reserve ≤ maxOffset

theorem sound_withReserve (reserve : Nat) : (withReserve reserve).Sound where
  pos_le := Nat.zero_le _
  committed_le := Nat.zero_le _
  chunked := .inl (Nat.dvd_zero _)
  reserve_le := Nat.min_le_right ..

/-- The bytes stand in memory from the start of the range on, and fill it. -/
structure Holds (a : Arena) (r : ByteRange) (bytes : List UInt8) : Prop where
  length : bytes.length = r.len
  stand : ∀ n < r.len, a.memory[r.offset + n]? = bytes[n]?

/-- The reservation, and what lies before `stop`, are the same in both. -/
structure Agree (stop : Nat) (a b : Arena) : Prop where
  reserve : b.reserve = a.reserve
  memory : ∀ j < stop, b.memory[j]? = a.memory[j]?

theorem Agree.refl (stop : Nat) (a : Arena) : Agree stop a a := ⟨rfl, fun _ _ => rfl⟩

theorem Agree.mono {stop' : Nat} (h : Agree stop a b) (hle : stop' ≤ stop) : Agree stop' a b :=
  ⟨h.reserve, fun j hj => h.memory j (Nat.lt_of_lt_of_le hj hle)⟩

theorem Agree.trans {c : Arena} (h : Agree stop a b) (h' : Agree stop b c) : Agree stop a c :=
  ⟨h'.reserve.trans h.reserve, fun j hj => (h'.memory j hj).trans (h.memory j hj)⟩

theorem Holds.of_agree (h : a.Holds r bytes) (hagree : Agree r.stop a b) : b.Holds r bytes :=
  ⟨h.length, fun n hn => (hagree.memory _ (Nat.add_lt_add_left hn _)).trans (h.stand n hn)⟩

theorem Holds.nil (a : Arena) (offset : Nat) : a.Holds ⟨offset, 0⟩ [] :=
  ⟨rfl, fun _ hn => absurd hn (Nat.not_lt_zero _)⟩

theorem Holds.append {n m : Nat} (h : a.Holds ⟨offset, n⟩ bytes)
    (h' : a.Holds ⟨offset + n, m⟩ more) : a.Holds ⟨offset, n + m⟩ (bytes ++ more) := by
  have hlen : bytes.length = n := h.length
  have hlen' : more.length = m := h'.length
  refine ⟨by simp [hlen, hlen'], fun i hi => ?_⟩
  dsimp only at hi ⊢
  by_cases hn : i < n
  · rw [List.getElem?_append_left (by omega)]
    exact h.stand i hn
  · have := h'.stand (i - n) (by dsimp only; omega)
    rw [List.getElem?_append_right (by omega), hlen, ← this]
    congr 1
    dsimp only
    omega

/-- A range whose bytes stand in memory is committed, so it is read as a whole. -/
theorem Holds.bytes_eq (h : a.Holds r bytes) : a.bytes r = bytes := by
  have hlen := h.length
  unfold Arena.bytes ByteRange.read
  split
  next hin =>
    refine List.ext_getElem? fun n => ?_
    simp only [Array.getElem?_toList, Array.getElem?_extract]
    by_cases hn : n < r.len
    · rw [if_pos (by omega)]
      exact h.stand n hn
    · rw [if_neg (by omega), List.getElem?_eq_none (by omega)]
  next hout =>
    cases hzero : r.len with
    | zero => exact (List.eq_nil_of_length_eq_zero (hlen.trans hzero)).symm
    | succ n =>
      have hlast := h.stand n (by omega)
      rw [List.getElem?_eq_getElem (by omega)] at hlast
      obtain ⟨hbound, -⟩ := Array.getElem?_eq_some_iff.1 hlast
      omega

/-! ### Growth -/

theorem committed_cover (h : a.committed ≤ a.reserve) : (a.cover stop).committed =
    min (a.committed + roundUp commitChunk (stop - a.committed)) a.reserve := by
  simp only [cover, committed, Array.size_append, Array.size_replicate] at *
  omega

theorem agree_cover (a : Arena) (stop : Nat) : Agree a.committed a (a.cover stop) :=
  ⟨rfl, fun _ hj => Array.getElem?_append_left hj⟩

theorem le_committed_cover (hs : a.Sound) (h : stop ≤ a.reserve) :
    stop ≤ (a.cover stop).committed := by
  have := le_roundUp commitChunk (stop - a.committed) (by decide)
  have := hs.committed_le
  rw [committed_cover hs.committed_le]
  omega

theorem Sound.cover (hs : a.Sound) (stop : Nat) : (a.cover stop).Sound := by
  have hle := hs.committed_le
  have hcommitted : (a.cover stop).committed = _ := committed_cover hle
  refine ⟨?_, ?_, ?_, hs.reserve_le⟩
  · have : (a.cover stop).pos = a.pos := rfl
    have := hs.pos_le
    omega
  · have : (a.cover stop).reserve = a.reserve := rfl
    omega
  · rw [hcommitted]
    change _ ∨ _ = a.reserve
    obtain hdvd | heq := hs.chunked
    · by_cases hlt : a.committed + roundUp commitChunk (stop - a.committed) ≤ a.reserve
      · rw [Nat.min_eq_left hlt]
        exact .inl (Nat.dvd_add hdvd (dvd_roundUp ..))
      · exact .inr (Nat.min_eq_right (Nat.le_of_not_le hlt))
    · exact .inr (by omega)

/-! ### Allocation -/

theorem alloc_eq_ok : a.alloc size = .ok (offset, b) ↔ a.pos + size ≤ a.reserve ∧
    offset = a.pos ∧ b = { a.cover (a.pos + size) with pos := a.pos + size } := by
  unfold Arena.alloc
  split
  next h => simp [h, eq_comm]
  next h => simp [h]

theorem alloc_refused (h : a.reserve < a.pos + size) :
    a.alloc size = .error (.outOfReserve size a.pos a.reserve) := if_neg (Nat.not_le_of_lt h)

theorem exists_alloc : (∃ result, a.alloc size = .ok result) ↔ a.pos + size ≤ a.reserve := by
  refine ⟨fun ⟨_, h⟩ => (alloc_eq_ok.1 h).1, fun h => ⟨_, alloc_eq_ok.2 ⟨h, rfl, rfl⟩⟩⟩

theorem Sound.alloc (hs : a.Sound) (ha : a.alloc size = .ok (offset, b)) :
    b.Sound ∧ Agree a.committed a b := by
  obtain ⟨hle, -, rfl⟩ := alloc_eq_ok.1 ha
  have hcover := hs.cover (a.pos + size)
  have hagree := agree_cover a (a.pos + size)
  exact ⟨⟨le_committed_cover hs hle, hcover.committed_le, hcover.chunked, hs.reserve_le⟩,
    hagree.reserve, hagree.memory⟩

theorem store_eq_ok : a.store bytes = .ok (r, b) ↔ ∃ c, a.alloc bytes.length = .ok (a.pos, c) ∧
    r = ⟨a.pos, bytes.length⟩ ∧ b = { c with memory := overwrite c.memory a.pos bytes } := by
  unfold store
  cases ha : a.alloc bytes.length with
  | error e => simp [Bind.bind, Except.bind]
  | ok result =>
    obtain ⟨offset, c⟩ := result
    obtain ⟨-, rfl, -⟩ := alloc_eq_ok.1 ha
    simp [Bind.bind, Except.bind, Pure.pure, Except.pure, eq_comm]

theorem store_refused (h : a.reserve < a.pos + bytes.length) :
    a.store bytes = .error (.outOfReserve bytes.length a.pos a.reserve) := by
  simp [store, alloc_refused h, Bind.bind, Except.bind]

/-- Bytes that fit are stored at the cursor, in front of which nothing changes. -/
theorem Sound.store (hs : a.Sound) (h : a.store bytes = .ok (r, b)) :
    b.Sound ∧ b.pos = a.pos + bytes.length ∧ Agree a.pos a b ∧
      r = ⟨a.pos, bytes.length⟩ ∧ b.Holds r bytes := by
  obtain ⟨c, ha, rfl, rfl⟩ := store_eq_ok.1 h
  obtain ⟨hc, hagree⟩ := hs.alloc ha
  obtain ⟨-, -, hpos⟩ := alloc_eq_ok.1 ha
  have hpos : c.pos = a.pos + bytes.length := by rw [hpos]
  have hsize := size_overwrite c.memory a.pos bytes
  refine ⟨⟨?_, ?_, ?_, hc.reserve_le⟩, hpos, ⟨hagree.reserve, fun j hj => ?_⟩, rfl, rfl,
    fun n hn => ?_⟩
  · exact hc.pos_le.trans_eq hsize.symm
  · exact hsize.trans_le hc.committed_le
  · simpa only [committed, hsize] using hc.chunked
  · exact (getElem?_overwrite _ _ _ _ (.inl hj)).trans (hagree.memory j (hj.trans_le hs.pos_le))
  · exact getElem?_overwrite_within _ _ _ _ (hpos ▸ hc.pos_le) hn

theorem exists_store : (∃ result, a.store bytes = .ok result) ↔
    a.pos + bytes.length ≤ a.reserve := by
  refine ⟨fun ⟨_, h⟩ => ?_, fun h => ?_⟩
  · obtain ⟨c, ha, -⟩ := store_eq_ok.1 h
    exact (alloc_eq_ok.1 ha).1
  · obtain ⟨⟨offset, c⟩, ha⟩ := exists_alloc.2 h
    obtain ⟨-, rfl, -⟩ := alloc_eq_ok.1 ha
    exact ⟨_, store_eq_ok.2 ⟨c, ha, rfl, rfl⟩⟩

/-- Zeroed memory is memory in which zeros were stored. -/
theorem allocZeroed_eq_store (a : Arena) (size : Nat) :
    a.allocZeroed size = (a.store (List.replicate size 0)).map fun (r, b) => (r.offset, b) := by
  unfold allocZeroed store
  rw [List.length_replicate]
  cases a.alloc size <;> rfl

theorem storeText_eq (a : Arena) (text : String) : a.storeText text = a.store (utf8 text) := rfl

/-! ### Writers -/

/-- Several formatted texts written one after the other, each up to the first piece that does not
fit; with the range that holds all of it. -/
def compose (a : Arena) (formats : List (List String)) : ByteRange × Arena :=
  let b := formats.foldl (fun a texts => (a.append texts).2) a
  (⟨a.pos, b.pos - a.pos⟩, b)

theorem write_eq_compose (a : Arena) (texts : List String) :
    a.write texts = ((a.append texts).1, a.compose [texts]) := rfl

theorem append_refused {text : String} (rest : List String)
    (h : a.reserve < a.pos + text.utf8ByteSize) : a.append (text :: rest) = (false, a) := by
  rw [append, storeText_eq, store_refused (by simpa using h)]

/-- From `start` on, `a` holds what a draft with as much room does. -/
structure Collects (start : Nat) (d : Draft) (a : Arena) : Prop where
  sound : a.Sound
  pos : a.pos = start + d.size
  reserve : a.reserve = start + d.reserve
  holds : a.Holds ⟨start, d.size⟩ (utf8 d.text)

variable {start : Nat} {d : Draft}

theorem Collects.piece (h : Collects start d a) {text : String}
    (hs : a.storeText text = .ok (r, b)) :
    Collects start (d.put text) b ∧ Agree start a b := by
  have hfits : d.size + text.utf8ByteSize ≤ d.reserve := by
    have hle := exists_store.1 ⟨_, hs⟩
    rw [h.pos, h.reserve, ← utf8, length_utf8] at hle
    omega
  obtain ⟨hsound, hpos, hagree, rfl, hholds⟩ := h.sound.store hs
  rw [← utf8, length_utf8] at hpos
  rw [← utf8, length_utf8, h.pos] at hholds
  have hstart : start + d.size ≤ a.pos := h.pos.ge
  have hput : d.put text = { d with text := d.text ++ text } := if_pos hfits
  refine ⟨⟨hsound, ?_, ?_, ?_⟩, hagree.mono (by omega)⟩
  · rw [hpos, h.pos, Draft.size_put hfits, Nat.add_assoc]
  · rw [hagree.reserve, h.reserve, hput]
  · rw [Draft.size_put hfits, hput]
    exact utf8_append d.text text ▸ (h.holds.of_agree (hagree.mono hstart)).append hholds

theorem Collects.append (h : Collects start d a) (texts : List String) :
    Collects start (d.puts texts) (a.append texts).2 ∧ Agree start a (a.append texts).2 := by
  induction texts generalizing d a with
  | nil => exact ⟨h, .refl start a⟩
  | cons text rest ih =>
    have hfits : a.pos + (utf8 text).length ≤ a.reserve ↔
        d.size + text.utf8ByteSize ≤ d.reserve := by
      rw [h.pos, h.reserve, length_utf8]
      omega
    rw [Draft.puts]
    split
    next hle =>
      obtain ⟨⟨r, b⟩, hb⟩ := exists_store.2 (hfits.2 hle)
      obtain ⟨hnext, hagree⟩ := h.piece hb
      obtain ⟨hlast, hrest⟩ := ih hnext
      rw [Arena.append, storeText_eq, hb]
      exact ⟨hlast, hagree.trans hrest⟩
    next hgt =>
      rw [append_refused rest (by
        have := mt hfits.1 hgt
        rw [length_utf8] at this
        omega)]
      exact ⟨⟨h.sound, h.pos, h.reserve, h.holds⟩, .refl start a⟩

theorem Collects.formats (h : Collects start d a) (formats : List (List String)) :
    Collects start (formats.foldl Draft.puts d)
        (formats.foldl (fun a texts => (a.append texts).2) a) ∧
      Agree start a (formats.foldl (fun a texts => (a.append texts).2) a) := by
  induction formats generalizing d a with
  | nil => exact ⟨h, .refl start a⟩
  | cons texts formats ih =>
    obtain ⟨hnext, hagree⟩ := h.append texts
    obtain ⟨hlast, hrest⟩ := ih hnext
    exact ⟨hlast, hagree.trans hrest⟩

/-- The text that a writer collects: a draft with the room that is left. -/
def composed (a : Arena) (formats : List (List String)) : Draft :=
  formats.foldl Draft.puts (Draft.withReserve (a.reserve - a.pos))

theorem Sound.compose (hs : a.Sound) (formats : List (List String)) :
    Collects a.pos (a.composed formats) (a.compose formats).2 ∧
      Agree a.pos a (a.compose formats).2 ∧
      (a.compose formats).1 = ⟨a.pos, (a.composed formats).size⟩ := by
  have hle := hs.pos_le.trans hs.committed_le
  have hroom : a.reserve = a.pos + (Draft.withReserve (a.reserve - a.pos)).reserve := by
    have := hs.reserve_le
    simp only [Draft.withReserve]
    omega
  have hfirst : Collects a.pos (Draft.withReserve (a.reserve - a.pos)) a :=
    ⟨hs, rfl, hroom, Holds.nil ..⟩
  obtain ⟨hall, hagree⟩ := hfirst.formats formats
  refine ⟨hall, hagree, ?_⟩
  have hpos : (a.compose formats).2.pos = a.pos + (a.composed formats).size := hall.pos
  change ByteRange.mk a.pos ((a.compose formats).2.pos - a.pos) = _
  rw [hpos, Nat.add_sub_cancel_left]

/-! ### Changes in place, rewinds -/

/-- Replaces the bytes of a range, from its start as far as it reaches. -/
def patch (a : Arena) (r : ByteRange) (bytes : List UInt8) : Arena :=
  if r.stop ≤ a.memory.size then
    { a with memory := overwrite a.memory r.offset (bytes.take r.len) }
  else a

theorem fill_eq_patch (a : Arena) (r : ByteRange) (byte : UInt8) :
    (a.fill r byte).2 = a.patch r (List.replicate r.len byte) := by
  have hstop : r.offset + r.len = r.stop := rfl
  simp only [fill, ByteRange.fill, patch, hstop]
  by_cases hin : r.stop ≤ a.memory.size
  · simp only [if_pos hin, List.take_replicate, Nat.min_self]
  · simp only [if_neg hin]

theorem patch_fields (a : Arena) (r : ByteRange) (bytes : List UInt8) :
    (a.patch r bytes).pos = a.pos ∧ (a.patch r bytes).reserve = a.reserve ∧
      (a.patch r bytes).committed = a.committed := by
  unfold patch
  split
  · exact ⟨rfl, rfl, size_overwrite ..⟩
  · exact ⟨rfl, rfl, rfl⟩

theorem Sound.patch (hs : a.Sound) (r : ByteRange) (bytes : List UInt8) :
    (a.patch r bytes).Sound := by
  obtain ⟨hpos, hreserve, hcommitted⟩ := a.patch_fields r bytes
  exact ⟨hpos ▸ hcommitted ▸ hs.pos_le, hcommitted ▸ hreserve ▸ hs.committed_le,
    hcommitted ▸ hreserve ▸ hs.chunked, hreserve ▸ hs.reserve_le⟩

theorem Holds.patch (h : a.Holds r bytes) {s : ByteRange} (hapart : s.Apart r)
    (more : List UInt8) : (a.patch s more).Holds r bytes := by
  unfold Arena.patch
  split
  next =>
    refine ⟨h.length, fun n hn => ?_⟩
    have hlen : (more.take s.len).length ≤ s.len := List.length_take_le ..
    simp only [ByteRange.Apart, ByteRange.stop] at hapart
    exact (getElem?_overwrite _ _ _ _ (by omega)).trans (h.stand n hn)
  next => exact h

theorem Sound.rewind (hs : a.Sound) {pos : Nat} (h : pos ≤ a.pos) : Sound { a with pos } :=
  ⟨h.trans hs.pos_le, hs.committed_le, hs.chunked, hs.reserve_le⟩

theorem committed_decommit (a : Arena) : a.decommit.committed =
    min (min (roundUp commitChunk a.pos) a.reserve) a.committed := by
  simp [decommit, committed]

theorem Sound.decommit (hs : a.Sound) : a.decommit.Sound ∧ Agree a.pos a a.decommit := by
  have hround := le_roundUp commitChunk a.pos (by decide)
  have hpos := hs.pos_le
  have hle := hs.committed_le
  have hcommitted := committed_decommit a
  refine ⟨⟨?_, ?_, ?_, hs.reserve_le⟩, rfl, fun j hj => ?_⟩
  · change a.pos ≤ _
    omega
  · change _ ≤ a.reserve
    omega
  · rw [hcommitted]
    change _ ∨ _ = a.reserve
    obtain hdvd | heq := hs.chunked
    · by_cases hlt : roundUp commitChunk a.pos ≤ a.committed
      · rw [Nat.min_eq_left (hlt.trans hle), Nat.min_eq_left hlt]
        exact .inl (dvd_roundUp ..)
      · rw [Nat.min_eq_right (by omega)]
        exact .inl hdvd
    · by_cases hlt : roundUp commitChunk a.pos ≤ a.reserve
      · rw [Nat.min_eq_left hlt, heq, Nat.min_eq_left hlt]
        exact .inl (dvd_roundUp ..)
      · exact .inr (by omega)
  · simp only [committed] at hpos hle
    change (a.memory.take _)[j]? = _
    rw [Array.take_eq_extract, Array.getElem?_extract, Nat.zero_add, if_pos (by omega)]

end Arena

/-! ### Runs -/

/-- What may be asked of an arena. -/
inductive ArenaCall
  | alloc (size : Nat)
  | allocZeroed (size : Nat)
  | store (bytes : List UInt8)
  | storeText (text : String)
  /-- A writer that is given several formatted texts. -/
  | compose (formats : List (List String))
  /-- Bytes that are changed through a handle. -/
  | patch (r : ByteRange) (bytes : List UInt8)
  | rewindTo (pos : Nat)
  | rewindBy (size : Nat)
  | clear
  | reset
  | decommit
  deriving DecidableEq, Repr

namespace ArenaCall

/-- Bytes that a call wants as one allocation. -/
def requested : ArenaCall → Option Nat
  | .alloc size | .allocZeroed size => some size
  | .store bytes => some bytes.length
  | .storeText text => some text.utf8ByteSize
  | _ => none

def patched : ArenaCall → List ByteRange
  | .patch r _ => [r]
  | _ => []

def rewinds : ArenaCall → Bool
  | .rewindTo _ | .rewindBy _ | .clear | .reset => true
  | _ => false

end ArenaCall

namespace Arena

variable {a b : Arena} {r : ByteRange} {bytes : List UInt8}

/-- The arena after an attempt; one that failed changes nothing. -/
def after {α : Type} (a : Arena) : Except StorageError (α × Arena) → Arena
  | .ok (_, b) => b
  | .error _ => a

def serve (a : Arena) : ArenaCall → Arena
  | .alloc size => a.after (a.alloc size)
  | .allocZeroed size => a.after (a.allocZeroed size)
  | .store bytes => a.after (a.store bytes)
  | .storeText text => a.after (a.storeText text)
  | .compose formats => (a.compose formats).2
  | .patch r bytes => a.patch r bytes
  | .rewindTo pos => a.rewindTo pos
  | .rewindBy size => a.rewindBy size
  | .clear => a.clear
  | .reset => a.reset
  | .decommit => a.decommit

def run (a : Arena) (calls : List ArenaCall) : Arena := calls.foldl serve a

/-- The cursor never goes below the end of the range, and no call changes its bytes in place. -/
def Spares (r : ByteRange) (a : Arena) : List ArenaCall → Prop
  | [] => True
  | call :: calls => (∀ s ∈ call.patched, s.Apart r) ∧ r.stop ≤ (a.serve call).pos ∧
      (a.serve call).Spares r calls

instance decidableSpares (r : ByteRange) :
    (a : Arena) → (calls : List ArenaCall) → Decidable (a.Spares r calls)
  | _, [] => inferInstanceAs (Decidable True)
  | a, call :: calls =>
    have := decidableSpares r (a.serve call) calls
    inferInstanceAs (Decidable (_ ∧ _ ∧ _))

theorem after_allocZeroed (a : Arena) (size : Nat) :
    a.after (a.allocZeroed size) = a.after (a.store (List.replicate size 0)) := by
  rw [allocZeroed_eq_store]
  cases a.store (List.replicate size 0) <;> rfl

/-- What a call does to a sound arena: it stays sound, and what lies before both cursors and is not
changed in place stays. -/
structure Served (a : Arena) (call : ArenaCall) (b : Arena) : Prop where
  sound : b.Sound
  reserve : b.reserve = a.reserve
  rewound : call.rewinds → b.pos ≤ a.pos
  holds : ∀ {r bytes}, a.Holds r bytes → r.stop ≤ a.pos → r.stop ≤ b.pos →
    (∀ s ∈ call.patched, s.Apart r) → b.Holds r bytes

theorem served_store (hs : a.Sound) {call : ArenaCall} (hcall : call.rewinds = false)
    (bytes : List UInt8) : Served a call (a.after (a.store bytes)) := by
  cases hstore : a.store bytes with
  | error e => exact ⟨hs, rfl, by simp [hcall], fun h _ _ _ => h⟩
  | ok result =>
    obtain ⟨r, b⟩ := result
    obtain ⟨hsound, -, hagree, -⟩ := hs.store hstore
    exact ⟨hsound, hagree.reserve, by simp [hcall], fun h hle _ _ => h.of_agree (hagree.mono hle)⟩

theorem served_rewind (hs : a.Sound) (call : ArenaCall) {pos : Nat} (h : pos ≤ a.pos) :
    Served a call { a with pos } :=
  ⟨hs.rewind h, rfl, fun _ => h, fun h _ _ _ => ⟨h.length, h.stand⟩⟩

theorem Sound.serve (hs : a.Sound) (call : ArenaCall) : Served a call (a.serve call) := by
  cases call with
  | alloc size =>
    simp only [Arena.serve]
    cases halloc : a.alloc size with
    | error e => exact ⟨hs, rfl, nofun, fun h _ _ _ => h⟩
    | ok result =>
      obtain ⟨hsound, hagree⟩ := hs.alloc halloc
      exact ⟨hsound, hagree.reserve, nofun,
        fun h hle _ _ => h.of_agree (hagree.mono (hle.trans hs.pos_le))⟩
  | allocZeroed size =>
    rw [Arena.serve, after_allocZeroed]
    exact served_store hs rfl _
  | store bytes => exact served_store hs rfl bytes
  | storeText text => exact served_store hs rfl (utf8 text)
  | compose formats =>
    obtain ⟨hall, hagree, -⟩ := hs.compose formats
    exact ⟨hall.sound, hagree.reserve, nofun, fun h hle _ _ => h.of_agree (hagree.mono hle)⟩
  | patch r bytes =>
    exact ⟨hs.patch r bytes, (a.patch_fields r bytes).2.1, nofun,
      fun h _ _ hapart => h.patch (hapart r (List.mem_singleton_self r)) bytes⟩
  | rewindTo pos => exact served_rewind hs _ (Nat.min_le_left ..)
  | rewindBy size => exact served_rewind hs _ (Nat.sub_le ..)
  | clear => exact served_rewind hs _ (Nat.zero_le _)
  | reset =>
    have hclear := served_rewind hs .clear (Nat.zero_le _)
    obtain ⟨hsound, hagree⟩ := hclear.sound.decommit
    exact ⟨hsound, hagree.reserve, fun _ => Nat.zero_le _, fun h hle hle' _ =>
      (hclear.holds h hle hle' nofun).of_agree (hagree.mono hle')⟩
  | decommit =>
    obtain ⟨hsound, hagree⟩ := hs.decommit
    exact ⟨hsound, hagree.reserve, nofun, fun h hle _ _ => h.of_agree (hagree.mono hle)⟩

theorem Sound.run (hs : a.Sound) (calls : List ArenaCall) :
    (a.run calls).Sound ∧ (a.run calls).reserve = a.reserve := by
  induction calls generalizing a with
  | nil => exact ⟨hs, rfl⟩
  | cons call calls ih =>
    have hserved := hs.serve call
    obtain ⟨hsound, hreserve⟩ := ih hserved.sound
    exact ⟨hsound, hreserve.trans hserved.reserve⟩

theorem Holds.run (hs : a.Sound) (h : a.Holds r bytes) (hle : r.stop ≤ a.pos)
    {calls : List ArenaCall} (hc : a.Spares r calls) : (a.run calls).Holds r bytes := by
  induction calls generalizing a with
  | nil => exact h
  | cons call calls ih =>
    obtain ⟨hpatched, hle', hrest⟩ := hc
    have hserved := hs.serve call
    exact ih hserved.sound (hserved.holds h hle hle' hpatched) hle' hrest

/-- The bytes are read under the range after all calls that spare it. -/
def Keeps (r : ByteRange) (bytes : List UInt8) (a : Arena) : Prop :=
  ∀ calls, a.Spares r calls → (a.run calls).bytes r = bytes

/-- The text is read under the range after all calls that spare it. -/
def KeepsText (r : ByteRange) (text : String) (a : Arena) : Prop :=
  ∀ calls, a.Spares r calls → (a.run calls).text r = text

theorem Holds.keeps (hs : a.Sound) (h : a.Holds r bytes) (hle : r.stop ≤ a.pos) :
    a.Keeps r bytes := fun _ hc => (h.run hs hle hc).bytes_eq

theorem Keeps.text {text : String} (h : a.Keeps r (utf8 text)) : a.KeepsText r text := by
  intro calls hc
  rw [Arena.text, h calls hc]
  exact utf8Text_utf8 text

theorem Sound.store_keeps (hs : a.Sound) (h : a.store bytes = .ok (r, b)) : b.Keeps r bytes := by
  obtain ⟨hsound, hpos, -, rfl, hholds⟩ := hs.store h
  exact hholds.keeps hsound hpos.ge

theorem Sound.compose_keeps (hs : a.Sound) (formats : List (List String)) :
    (a.compose formats).2.Keeps (a.compose formats).1 (utf8 (a.composed formats).text) := by
  obtain ⟨hall, -, hrange⟩ := hs.compose formats
  rw [hrange]
  exact hall.holds.keeps hall.sound hall.pos.ge

theorem serve_refused {call : ArenaCall} {size : Nat} (hrequest : call.requested = some size)
    (h : a.reserve < a.pos + size) : a.serve call = a := by
  cases call with
  | alloc n =>
    cases hrequest
    rw [serve, alloc_refused h, after]
  | allocZeroed n =>
    cases hrequest
    rw [serve, after_allocZeroed, store_refused (by simpa using h), after]
  | store bytes =>
    cases hrequest
    rw [serve, store_refused h, after]
  | storeText text =>
    cases hrequest
    rw [serve, storeText_eq, store_refused (by simpa using h), after]
  | _ => cases hrequest

/-- What an arena guarantees between any two calls. -/
structure Disciplined (a : Arena) : Prop where
  sound : a.Sound
  /-- Exactly what fits under the reservation is allocated. -/
  succeeds : ∀ size, (∃ result, a.alloc size = .ok result) ↔ a.pos + size ≤ a.reserve
  at_cursor : ∀ size offset b, a.alloc size = .ok (offset, b) →
    offset = a.pos ∧ b.pos = a.pos + size
  /-- A refused request changes nothing. -/
  refused : ∀ call size, call.requested = some size → a.reserve < a.pos + size → a.serve call = a
  refused_piece : ∀ text rest, a.reserve < a.pos + text.utf8ByteSize →
    a.append (text :: rest) = (false, a)
  rewinds : ∀ call, call.rewinds → (a.serve call).pos ≤ a.pos
  stored : ∀ bytes r b, a.store bytes = .ok (r, b) → b.Keeps r bytes
  stored_text : ∀ text r b, a.storeText text = .ok (r, b) →
    b.Keeps r (utf8 text) ∧ b.KeepsText r text
  /-- A writer collects the pieces that fit, in order. -/
  composed : ∀ formats, (a.compose formats).2.Keeps (a.compose formats).1
      (utf8 (a.composed formats).text) ∧
    (a.compose formats).2.KeepsText (a.compose formats).1 (a.composed formats).text

theorem Sound.disciplined (hs : a.Sound) : a.Disciplined where
  sound := hs
  succeeds _ := exists_alloc
  at_cursor size offset b h := by
    obtain ⟨-, rfl, rfl⟩ := alloc_eq_ok.1 h
    exact ⟨rfl, rfl⟩
  refused _ _ := serve_refused
  refused_piece _ rest := append_refused rest
  rewinds call := (hs.serve call).rewound
  stored _ _ _ := hs.store_keeps
  stored_text text r b h := ⟨hs.store_keeps h, (hs.store_keeps h).text⟩
  composed formats := ⟨hs.compose_keeps formats, (hs.compose_keeps formats).text⟩

/-- An arena under any calls: the cursor is within what is committed and that within the
reservation, what fits is allocated at the cursor, a refused request changes nothing, a rewind never
goes forward, and what was stored reads back under all later calls that spare it. -/
theorem disciplined_run (reserve : Nat) (calls : List ArenaCall) :
    ((withReserve reserve).run calls).Disciplined ∧
      ((withReserve reserve).run calls).reserve = min reserve maxOffset := by
  obtain ⟨hsound, hreserve⟩ := (sound_withReserve reserve).run calls
  exact ⟨hsound.disciplined, hreserve⟩

/-- Two bytes survive a refused request, a change in front of them, a rewind to their end and new
memory in its place. -/
theorem stored_after_regrowth :
    let a := (withReserve 20).run [.alloc 3, .storeText "ab"]
    let later := [.allocZeroed 30, .patch ⟨0, 5⟩ [1], .alloc 4, .rewindTo 7, .decommit,
      .allocZeroed 9]
    ∃ b, a.store [7, 8] = .ok (⟨5, 2⟩, b) ∧ b.Spares ⟨5, 2⟩ later ∧
      (b.run later).bytes ⟨5, 2⟩ = [7, 8] := by
  have h := (disciplined_run 20 [.alloc 3, .storeText "ab"]).1
  exact ⟨_, rfl, by decide +kernel, h.stored [7, 8] _ _ rfl _ (by decide +kernel)⟩

end Arena

end FrontEnd
