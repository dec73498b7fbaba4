import FrontEnd.Storage.Arena
import Std.Data.HashMap

/-!
Interned texts. A text gets a number when it is first seen and keeps it; the bytes of all texts
together stay within a reservation.
-/

namespace FrontEnd

/-- Number of an interned text. Equal names are equal texts. -/
structure Name where
  index : Nat
  deriving DecidableEq, Hashable, Repr, Inhabited

/-- The empty text, which is interned from the start. -/
def Name.empty : Name := ⟨0⟩

structure Interner where
  /-- Texts in the order of their names. -/
  texts : Array String
  /-- Names by the hash of their text. -/
  buckets : Std.HashMap UInt64 (List Name)
  hashOf : String → UInt64
  /-- Bytes of all texts. -/
  used : Nat
  reserve : Nat

namespace Interner

/-- Only the empty text is interned. Any hash function will do. -/
def withHash (hashOf : String → UInt64) (reserve : Nat) : Interner :=
  { texts := #[""]
    buckets := Std.HashMap.ofList [(hashOf "", [Name.empty])]
    hashOf
    used := 0
    reserve := min reserve maxOffset }

def withReserve (reserve : Nat) : Interner := withHash hash reserve

/-- Number of names. -/
def size (t : Interner) : Nat := t.texts.size

/-- Text of a name; an unknown name reads as empty. -/
def lookup (t : Interner) (n : Name) : String := t.texts[n.index]?.getD ""

/-- Name of a text that was interned before. -/
def get? (t : Interner) (text : String) : Option Name :=
  (t.buckets.getD (t.hashOf text) []).find? fun n => t.lookup n == text

/-- Gives a text the next number. -/
def push (t : Interner) (text : String) : Name × Interner :=
  let name : Name := ⟨t.texts.size⟩
  let key := t.hashOf text
  (name, { t with
    texts := t.texts.push text
    buckets := t.buckets.insert key (t.buckets.getD key [] ++ [name])
    used := t.used + text.utf8ByteSize })

/-- Name of a text, a new one if need be. -/
def intern (t : Interner) (text : String) : Except StorageError (Name × Interner) :=
  match t.get? text with
  | some name => .ok (name, t)
  | none =>
    if t.used + text.utf8ByteSize ≤ t.reserve then .ok (t.push text)
    else .error (.outOfReserve text.utf8ByteSize t.used t.reserve)

/-- `intern` for callers that rely on room. -/
def internOrFault (t : Interner) (text : String) : Except Fault (Name × Interner) :=
  match t.intern text with
  | .ok r => .ok r
  | .error e => .error (.interning e)

end Interner

end FrontEnd
