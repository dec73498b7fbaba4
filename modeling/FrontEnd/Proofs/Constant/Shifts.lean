import FrontEnd.Constant.Machine
import Mathlib.Data.Int.ModEq

/-!
Shifts on numbers: which power of two the machine multiplies or divides by. A count of 32 unsigned
bits acts as its residue by the width of the numbers; every other count acts as the greatest shift.
-/

namespace FrontEnd

/-- How many bits a number of an integral kind has. -/
def ValueKind.width : ValueKind → Nat
  | .char => 8
  | .integer => 32
  | _ => 64

/-- The number of an integral kind that has the same low bits. -/
def ValueKind.wrap : ValueKind → Int → Int
  | .char, z => z % 2 ^ 8
  | .integer, z => z.bmod (2 ^ 32)
  | _, z => z.bmod (2 ^ 64)

/-- The number that an integral value is. -/
def Value.integer? : Value → Option Int
  | .char v => some v.toNat
  | .int v => some v.toInt
  | .long v => some v.toInt
  | _ => none

namespace Machine

variable {l r : Value} {k : ValueKind} {op : Opcode}

/-! ### Counts -/

theorem shiftCount_lt {width : Nat} (hwidth : 0 < width) (count : Int) :
    shiftCount width count < width := Nat.mod_lt _ hwidth

/-- A count of 32 unsigned bits acts as its residue. -/
theorem shiftCount_of_fits {width : Nat} {count : Int} (hlow : 0 ≤ count)
    (hhigh : count < UInt32.size) : (shiftCount width count : Int) = count % width := by
  rw [shiftCount, if_pos ⟨hlow, hhigh⟩, Int.natCast_emod, Int.toNat_of_nonneg hlow]

/-- Any other count acts as the greatest shift, whatever its residue is. -/
theorem shiftCount_of_exceeds {count : Int}
    (h : count < 0 ∨ UInt32.size ≤ count) : shiftCount k.width count = k.width - 1 := by
  have hnot : ¬ (0 ≤ count ∧ count < UInt32.size) := by omega
  rw [shiftCount, if_neg hnot]
  cases k <;> rfl

/-! ### Shifts in one kind -/

theorem smod_intCount {n : Nat} (hn : n < 32) : ((Int32.ofNat n).toBitVec.smod 32).toNat = n := by
  have hall : ∀ n : Fin 32, ((Int32.ofNat n).toBitVec.smod 32).toNat = n := by decide
  exact hall ⟨n, hn⟩

theorem smod_longCount {n : Nat} (hn : n < 64) : ((Int64.ofNat n).toBitVec.smod 64).toNat = n := by
  have hall : ∀ n : Fin 64, ((Int64.ofNat n).toBitVec.smod 64).toNat = n := by decide
  exact hall ⟨n, hn⟩

/-- Bits shifted to the left are the product, wrapped around. -/
theorem toInt_shiftLeft {w : Nat} (x : BitVec w) (n : Nat) :
    (x <<< n).toInt = (x.toInt * 2 ^ n).bmod (2 ^ w) := by
  rw [BitVec.toInt_shiftLeft, Nat.shiftLeft_eq, Nat.cast_mul, Nat.cast_pow, Nat.cast_ofNat,
    BitVec.toInt_eq_toNat_bmod, Int.bmod_mul_bmod]

theorem toInt_int_shl (a : Int32) {n : Nat} (hn : n < 32) :
    (a <<< Int32.ofNat n).toInt = (a.toInt * 2 ^ n).bmod (2 ^ 32) := by
  rw [← Int32.toInt_toBitVec, Int32.toBitVec_shiftLeft, BitVec.shiftLeft_eq', smod_intCount hn,
    toInt_shiftLeft, Int32.toInt_toBitVec]

theorem toInt_long_shl (a : Int64) {n : Nat} (hn : n < 64) :
    (a <<< Int64.ofNat n).toInt = (a.toInt * 2 ^ n).bmod (2 ^ 64) := by
  rw [← Int64.toInt_toBitVec, Int64.toBitVec_shiftLeft, BitVec.shiftLeft_eq', smod_longCount hn,
    toInt_shiftLeft, Int64.toInt_toBitVec]

theorem toInt_int_shr (a : Int32) {n : Nat} (hn : n < 32) :
    (a >>> Int32.ofNat n).toInt = a.toInt / 2 ^ n := by
  rw [← Int32.toInt_toBitVec, Int32.toBitVec_shiftRight, BitVec.toInt_sshiftRight',
    smod_intCount hn, Int.shiftRight_eq_div_pow, Int32.toInt_toBitVec, Nat.cast_pow, Nat.cast_ofNat]

theorem toInt_long_shr (a : Int64) {n : Nat} (hn : n < 64) :
    (a >>> Int64.ofNat n).toInt = a.toInt / 2 ^ n := by
  rw [← Int64.toInt_toBitVec, Int64.toBitVec_shiftRight, BitVec.toInt_sshiftRight',
    smod_longCount hn, Int.shiftRight_eq_div_pow, Int64.toInt_toBitVec, Nat.cast_pow,
    Nat.cast_ofNat]

theorem toNat_charCount {n : Nat} (hn : n < 8) : n.toUInt8.toNat % 8 = n := by
  rw [Nat.toUInt8, UInt8.toNat_ofNat_of_lt' (Nat.lt_trans hn (by decide)), Nat.mod_eq_of_lt hn]

theorem toNat_char_shl (a : UInt8) {n : Nat} (hn : n < 8) :
    ((a <<< n.toUInt8).toNat : Int) = a.toNat * 2 ^ n % 2 ^ 8 := by
  rw [UInt8.toNat_shiftLeft, toNat_charCount hn, Nat.shiftLeft_eq]
  push_cast
  rfl

theorem toNat_char_shr (a : UInt8) {n : Nat} (hn : n < 8) :
    ((a >>> n.toUInt8).toNat : Int) = a.toNat / 2 ^ n := by
  rw [UInt8.toNat_shiftRight, toNat_charCount hn, Nat.shiftRight_eq_div_pow]
  push_cast
  rfl

/-! ### Both operands -/

theorem integer?_of_asChar? {v : Value} {x : UInt8} (h : v.asChar? = some x) :
    v.integer? = some (x.toNat : Int) := by
  cases v <;> cases h
  rfl

theorem integer?_of_asInt? {v : Value} {x : Int32} (h : v.asInt? = some x) :
    v.integer? = some x.toInt := by
  cases v with
  | char c =>
    cases h
    have hc := c.toNat_lt
    exact congrArg some (Int32.toInt_ofNat_of_lt (by omega)).symm
  | int => cases h; rfl
  | _ => cases h

theorem integer?_of_asLong? {v : Value} {x : Int64} (h : v.asLong? = some x) :
    v.integer? = some x.toInt := by
  cases v with
  | char c =>
    cases h
    have hc := c.toNat_lt
    exact congrArg some (Int64.toInt_ofNat_of_lt (by omega)).symm
  | int => cases h; exact congrArg some (Int32.toInt_toInt64 _).symm
  | long => cases h; rfl
  | _ => cases h

theorem exists_chars (hw : l.kind.wider r.kind = some .char) :
    ∃ x y, l.asChar? = some x ∧ r.asChar? = some y := by
  cases l <;> cases r <;> first | exact ⟨_, _, rfl, rfl⟩ | cases hw

theorem exists_ints (hw : l.kind.wider r.kind = some .integer) :
    ∃ x y, l.asInt? = some x ∧ r.asInt? = some y := by
  cases l <;> cases r <;> first | exact ⟨_, _, rfl, rfl⟩ | cases hw

theorem exists_longs (hw : l.kind.wider r.kind = some .long) :
    ∃ x y, l.asLong? = some x ∧ r.asLong? = some y := by
  cases l <;> cases r <;> first | exact ⟨_, _, rfl, rfl⟩ | cases hw

/-- A shift to the left multiplies by a power of two and wraps around, and one to the right divides
by it and rounds down. -/
theorem binary_shift (hw : l.kind.wider r.kind = some k) (hk : k.isIntegral = true) :
    ∃ a b, l.integer? = some a ∧ r.integer? = some b ∧
      (∃ v, binary .shl l r = .ok v ∧ v.kind = k ∧
        v.integer? = some (k.wrap (a * 2 ^ shiftCount k.width b))) ∧
      ∃ v, binary .shr l r = .ok v ∧ v.kind = k ∧
        v.integer? = some (a / 2 ^ shiftCount k.width b) := by
  simp only [binary, arithmetic, hw]
  cases k with
  | char =>
    obtain ⟨x, y, hx, hy⟩ := exists_chars hw
    have hn : shiftCount 8 y.toNat < 8 := shiftCount_lt (by decide) _
    refine ⟨_, _, integer?_of_asChar? hx, integer?_of_asChar? hy, ?_⟩
    simp only [both, hx, hy]
    exact ⟨⟨_, rfl, rfl, congrArg some (toNat_char_shl x hn)⟩,
      _, rfl, rfl, congrArg some (toNat_char_shr x hn)⟩
  | integer =>
    obtain ⟨x, y, hx, hy⟩ := exists_ints hw
    have hn : shiftCount 32 y.toInt < 32 := shiftCount_lt (by decide) _
    refine ⟨_, _, integer?_of_asInt? hx, integer?_of_asInt? hy, ?_⟩
    simp only [both, hx, hy]
    exact ⟨⟨_, rfl, rfl, congrArg some (toInt_int_shl x hn)⟩,
      _, rfl, rfl, congrArg some (toInt_int_shr x hn)⟩
  | long =>
    obtain ⟨x, y, hx, hy⟩ := exists_longs hw
    have hn : shiftCount 64 y.toInt < 64 := shiftCount_lt (by decide) _
    refine ⟨_, _, integer?_of_asLong? hx, integer?_of_asLong? hy, ?_⟩
    simp only [both, hx, hy]
    exact ⟨⟨_, rfl, rfl, congrArg some (toInt_long_shl x hn)⟩,
      _, rfl, rfl, congrArg some (toInt_long_shr x hn)⟩
  | float | double | bool => cases hk

/-- A negative count is not taken by its residue, which is 30 here. -/
example : binary .shl (.int 1) (.int (-2)) = .ok (.int (-2147483648)) := by decide

end Machine

end FrontEnd
