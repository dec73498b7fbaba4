import FrontEnd.Source.Span
import FrontEnd.Token.Kind

/-! Tokens and lexical errors. -/

namespace FrontEnd

inductive LexicalError
  | unterminatedString | unterminatedChar | unterminatedComment | unexpectedCharacter
  | invalidNumberSuffix | charLiteralTooLong | invalidTag
  deriving DecidableEq, Repr

namespace LexicalError

def all : List LexicalError :=
  [.unterminatedString, .unterminatedChar, .unterminatedComment, .unexpectedCharacter,
   .invalidNumberSuffix, .charLiteralTooLong, .invalidTag]

def message : LexicalError → String
  | .unterminatedString => "unterminated string literal"
  | .unterminatedChar => "unterminated character literal"
  | .unterminatedComment => "unterminated comment block"
  | .unexpectedCharacter => "unexpected character"
  | .invalidNumberSuffix => "unrecognised number suffix"
  | .charLiteralTooLong => "only one character permitted in character literal"
  | .invalidTag => "expected identifier or `!` after `@`"

end LexicalError

/-- A token; its text is the part of the source under `span`. -/
structure Token where
  kind : TokenKind
  /-- Set on tokens of kind `error` only. -/
  error : Option LexicalError
  span : Span
  /-- Line and column of the first byte, both from 1. -/
  line : Nat
  col : Nat
  deriving DecidableEq, Repr

def Token.lexeme (t : Token) (bytes : Array UInt8) : String := t.span.slice bytes

/-- Kind, span and position of a token. -/
def Token.describe (t : Token) : String :=
  t.kind.name ++ " @ " ++ toString t.span ++ s!" ({t.line}:{t.col})"

end FrontEnd
