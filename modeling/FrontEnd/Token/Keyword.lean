import FrontEnd.Token.Kind

/-!
Keywords. The first one to four letters of a word leave at most one candidate, whose remaining
letters are then compared at once.
-/

namespace FrontEnd

/-- The character with the code of a byte. -/
def byteChar (b : UInt8) : Char := Char.ofNat b.toNat

namespace TokenKind

/-- `kind` if the remaining letters are those of `tail`, else the word is an identifier. -/
def ifEnds (kind : TokenKind) (tail : String) (rest : List Char) : TokenKind :=
  if rest = tail.toList then kind else .ident

/-! Words by their first letter; the lists hold the letters behind it. -/

def afterB : List Char → TokenKind
  | 'o' :: r => ifEnds kwBool "ol" r
  | 'r' :: r => ifEnds kwBreak "eak" r
  | _ => .ident

def afterC : List Char → TokenKind
  | 'a' :: r => ifEnds kwCase "se" r
  | 'h' :: r => ifEnds kwChar "ar" r
  | 'i' :: 'n' :: 'c' :: r => ifEnds kwCinclude "lude" r
  | 'i' :: 'n' :: 's' :: r => ifEnds kwCinsert "ert" r
  | 'o' :: 'n' :: 't' :: r => ifEnds kwContinue "inue" r
  | 'o' :: 'n' :: 's' :: r => ifEnds kwConst "t" r
  | 's' :: r => ifEnds kwCstring "tring" r
  | _ => .ident

def afterD : List Char → TokenKind
  | 'e' :: r => ifEnds kwDefault "fault" r
  | ['o'] => kwDo
  | 'o' :: r => ifEnds kwDouble "uble" r
  | _ => .ident

def afterE : List Char → TokenKind
  | 'l' :: r => ifEnds kwElse "se" r
  | 'n' :: r => ifEnds kwEnum "um" r
  | _ => .ident

def afterF : List Char → TokenKind
  | 'a' :: r => ifEnds kwFalse "lse" r
  | 'l' :: 'a' :: r => ifEnds kwFlagEnum "genum" r
  | 'l' :: 'o' :: r => ifEnds kwFloat "at" r
  | 'o' :: r => ifEnds kwFor "r" r
  | 'u' :: r => ifEnds kwFunc "nc" r
  | _ => .ident

def afterI : List Char → TokenKind
  | ['f'] => kwIf
  | 'm' :: r => ifEnds kwImport "port" r
  | 'n' :: r => ifEnds kwInt "t" r
  | _ => .ident

def afterN : List Char → TokenKind
  | 'a' :: 't' :: r => ifEnds kwNative "ive" r
  | 'a' :: 'm' :: r => ifEnds kwNamespace "espace" r
  | ['u', 'l', 'l'] => kwNull
  | 'u' :: r => ifEnds kwNullptr "llptr" r
  | _ => .ident

def afterO : List Char → TokenKind
  | 'f' :: r => ifEnds kwOffsetof "fsetof" r
  | 'p' :: r => ifEnds kwOperator "erator" r
  | _ => .ident

def afterS : List Char → TokenKind
  | 'h' :: r => ifEnds kwShort "ort" r
  | 'i' :: r => ifEnds kwSizeof "zeof" r
  | 't' :: r => ifEnds kwStruct "ruct" r
  | 'w' :: r => ifEnds kwSwitch "itch" r
  | _ => .ident

def afterT : List Char → TokenKind
  | 'r' :: r => ifEnds kwTrue "ue" r
  | 'y' :: r => ifEnds kwTypedef "pedef" r
  | _ => .ident

def afterU : List Char → TokenKind
  | 'c' :: r => ifEnds kwUchar "har" r
  | 'i' :: r => ifEnds kwUint "nt" r
  | 'l' :: r => ifEnds kwUlong "ong" r
  | 'n' :: r => ifEnds kwUnion "ion" r
  | 's' :: 'h' :: r => ifEnds kwUshort "ort" r
  | 's' :: 'i' :: r => ifEnds kwUsing "ng" r
  | _ => .ident

/-- The kind of a word given by its letters. -/
def ofLetters : List Char → TokenKind
  | 'b' :: r => afterB r
  | 'c' :: r => afterC r
  | 'd' :: r => afterD r
  | 'e' :: r => afterE r
  | 'f' :: r => afterF r
  | 'i' :: r => afterI r
  | 'l' :: r => ifEnds kwLong "ong" r
  | 'm' :: r => ifEnds kwMatch "atch" r
  | 'n' :: r => afterN r
  | 'o' :: r => afterO r
  | 'p' :: r => ifEnds kwPrint "rint" r
  | 'r' :: r => ifEnds kwReturn "eturn" r
  | 's' :: r => afterS r
  | 't' :: r => afterT r
  | 'u' :: r => afterU r
  | 'v' :: r => ifEnds kwVoid "oid" r
  | 'w' :: r => ifEnds kwWhile "hile" r
  | _ => .ident

/-- The kind of a word given by its bytes, which need not be letters at all. -/
def ofWord (word : List UInt8) : TokenKind := ofLetters (word.map byteChar)

end TokenKind

end FrontEnd
