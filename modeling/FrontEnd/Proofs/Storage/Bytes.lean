import FrontEnd.Proofs.Storage.HeapPartition

/-! Texts as bytes, and bytes written over others. -/

namespace FrontEnd

/-- The bytes of a text. -/
def utf8 (text : String) : List UInt8 := text.toUTF8.data.toList

/-- The text of some bytes; empty if they are not valid UTF-8. -/
def utf8Text (bytes : List UInt8) : String := (String.fromUTF8? ⟨bytes.toArray⟩).getD ""

@[simp] theorem length_utf8 (text : String) : (utf8 text).length = text.utf8ByteSize := rfl

theorem utf8_append (s t : String) : utf8 (s ++ t) = utf8 s ++ utf8 t := by
  simp [utf8, String.toUTF8_eq_toByteArray, String.toByteArray_append, ByteArray.data_append]

@[simp] theorem utf8Text_utf8 (text : String) : utf8Text (utf8 text) = text := by
  have h : (⟨(utf8 text).toArray⟩ : ByteArray) = text.toUTF8 := by simp [utf8]
  rw [utf8Text, h]
  simp only [String.fromUTF8?, String.toUTF8_eq_toByteArray, dif_pos text.isValidUTF8]
  rfl

/-- Bytes that fit stand where they were written. -/
theorem getElem?_overwrite_within (memory : Array UInt8) (offset : Nat) (bytes : List UInt8)
    (n : Nat) (h : offset + bytes.length ≤ memory.size) (hn : n < bytes.length) :
    (overwrite memory offset bytes)[offset + n]? = bytes[n]? := by
  induction bytes generalizing memory offset n with
  | nil => exact absurd hn (Nat.not_lt_zero n)
  | cons b bytes ih =>
    rw [List.length_cons] at h hn
    rw [overwrite]
    cases n with
    | zero =>
      rw [getElem?_overwrite _ _ _ _ (by omega)]
      simp [show offset < memory.size by omega]
    | succ n =>
      have hsize : offset + 1 + bytes.length ≤ (memory.setIfInBounds offset b).size := by
        rw [Array.size_setIfInBounds]
        omega
      rw [Nat.add_comm n, ← Nat.add_assoc, Nat.add_comm 1, List.getElem?_cons_succ]
      exact ih _ _ n hsize (by omega)

end FrontEnd
