import FrontEnd.Token.Scanner

/-!
A window of two tokens over a text: the current one and the next. A window is a plain value, so
looking ahead and coming back needs no undoing.
-/

namespace FrontEnd

structure Window where
  source : Array UInt8
  scanner : Scanner
  current : Token
  next : Token
  /-- Span of the last token that left the window. -/
  previous : Span
  deriving DecidableEq, Repr

namespace Window

def ofText (text : String) : Window :=
  let source := text.toUTF8.data
  let (current, scanner) := (Scanner.ofBytes source.toList).next
  let (next, scanner) := scanner.next
  { source, scanner, current, next, previous := ⟨0, 0⟩ }

def currentIs (w : Window) (k : TokenKind) : Bool := w.current.kind == k

def atEnd (w : Window) : Bool := w.currentIs .eof

def lexeme (w : Window) (t : Token) : String := t.lexeme w.source

/-- Shifts the window by one token, of whatever kind. -/
def bump (w : Window) : Window :=
  let (next, scanner) := w.scanner.next
  { w with scanner, current := w.next, next, previous := w.current.span }

/-- Bounds the number of tokens still to come: every token but the last takes at least one
byte. -/
def unread (w : Window) : Nat :=
  w.scanner.rest.length + (w.next.kind != .eof).toNat + (w.current.kind != .eof).toNat

theorem unread_bump {w : Window} (h : w.current.kind ≠ .eof) : w.bump.unread < w.unread := by
  have hscan : w.scanner.next.2.rest.length + (w.scanner.next.1.kind != .eof).toNat ≤
      w.scanner.rest.length := by
    have hle := Scanner.length_next_le w.scanner
    rcases Scanner.length_next w.scanner with ht | hlt
    · simpa [ht] using hle
    · have := Bool.toNat_le (w.scanner.next.1.kind != .eof)
      omega
  have hcurrent : (w.current.kind != .eof).toNat = 1 := by simp [h]
  change w.scanner.next.2.rest.length + (w.scanner.next.1.kind != .eof).toNat +
    (w.next.kind != .eof).toNat < w.unread
  unfold unread
  omega

/-- Takes the error tokens off the front of the window. -/
def skipErrors (w : Window) : List Token × Window :=
  if _h : w.current.kind = .error then
    let (errors, rest) := w.bump.skipErrors
    (w.current :: errors, rest)
  else ([], w)
termination_by w.unread
decreasing_by exact unread_bump (by simp [_h])

end Window

end FrontEnd
