import FrontEnd.Storage.Arena

/-! Half-open byte ranges of a text. -/

namespace FrontEnd

structure Span where
  start : Nat
  stop : Nat
  deriving DecidableEq, Repr

namespace Span

/-- The span from `start` to `stop`; offsets that do not fit in 32 bits saturate. -/
def ofRange (start stop : Nat) : Span := ⟨min start maxOffset, min stop maxOffset⟩

/-- Bytes covered. A span that ends before it starts has no length. -/
def len (s : Span) : Except Fault Nat :=
  if s.start ≤ s.stop then .ok (s.stop - s.start) else .error (.overflow "subtract")

def isEmpty (s : Span) : Bool := s.start == s.stop

/-- The least span that covers both. -/
def merge (s t : Span) : Span := ⟨min s.start t.start, max s.stop t.stop⟩

/-- The text under the span; empty if the span leaves the text or cuts a character. -/
def slice (s : Span) (bytes : Array UInt8) : String :=
  if s.start ≤ s.stop ∧ s.stop ≤ bytes.size then
    (String.fromUTF8? ⟨bytes.extract s.start s.stop⟩).getD ""
  else ""

instance : ToString Span := ⟨fun s => s!"{s.start}..{s.stop}"⟩

end Span

end FrontEnd
