import FrontEnd.Token.Kind

/-! Sets of token kinds, one bit per kind. -/

namespace FrontEnd

structure KindSet where
  bits : Nat
  deriving DecidableEq, Repr

namespace KindSet

def empty : KindSet := ⟨0⟩

def insert (s : KindSet) (k : TokenKind) : KindSet := ⟨s.bits ||| 1 <<< k.index⟩

def ofList (kinds : List TokenKind) : KindSet := kinds.foldl insert empty

def contains (s : KindSet) (k : TokenKind) : Bool := s.bits.testBit k.index

def count (s : KindSet) : Nat := TokenKind.all.countP s.contains

/-- Kinds that only begin a statement, and those that end a block or the text: where reading
goes on after a syntax error. -/
def boundary : KindSet :=
  ofList [.kwReturn, .kwPrint, .kwIf, .kwWhile, .kwDo, .openBrace, .closeBrace, .kwStruct,
    .kwEnum, .kwNamespace, .kwUsing, .kwNative, .kwConst, .eof]

end KindSet

end FrontEnd
