import FrontEnd.Token.Basic

/-! Reports of errors: codes, the stages they belong to, and their text. -/

namespace FrontEnd

/-- The part of the front end that found an error. -/
inductive Stage
  | lexer | parser | checker | internal
  deriving DecidableEq, Repr

def Stage.text : Stage → String
  | .lexer => "lexer"
  | .parser => "parser"
  | .checker => "checker"
  | .internal => "internal"

inductive ErrorCode
  | lexical (error : LexicalError)
  | unexpectedToken | expectedExpression | expectedType | invalidTarget | expectedName
  | literalRange
  | operands | returnType | printType | undefinedVariable | noOverload | undefinedFunction
  | initializer | unknownMember | condition | unknownType | assignedType
  | exhausted | tooManyErrors
  deriving DecidableEq, Repr

namespace ErrorCode

def all : List ErrorCode :=
  LexicalError.all.map .lexical ++
    [.unexpectedToken, .expectedExpression, .expectedType, .invalidTarget, .expectedName,
     .literalRange, .operands, .returnType, .printType, .undefinedVariable, .noOverload,
     .undefinedFunction, .initializer, .unknownMember, .condition, .unknownType, .assignedType,
     .exhausted, .tooManyErrors]

/-- The code; its first digit stands for the stage. -/
def text : ErrorCode → String
  | .lexical .unterminatedString => "E0001"
  | .lexical .unexpectedCharacter => "E0002"
  | .lexical .invalidNumberSuffix => "E0003"
  | .lexical .unterminatedChar => "E0004"
  | .lexical .charLiteralTooLong => "E0005"
  | .lexical .unterminatedComment => "E0006"
  | .lexical .invalidTag => "E0007"
  | .unexpectedToken => "E1001"
  | .expectedExpression => "E1002"
  | .expectedType => "E1003"
  | .invalidTarget => "E1004"
  | .expectedName => "E1005"
  | .literalRange => "E1006"
  | .operands => "E2001"
  | .returnType => "E2002"
  | .printType => "E2003"
  | .undefinedVariable => "E2004"
  | .noOverload => "E2005"
  | .undefinedFunction => "E2006"
  | .initializer => "E2007"
  | .unknownMember => "E2008"
  | .condition => "E2009"
  | .unknownType => "E2010"
  | .assignedType => "E2011"
  | .exhausted => "E9001"
  | .tooManyErrors => "E9002"

def ofText? (text : String) : Option ErrorCode := all.find? (·.text == text)

def stage : ErrorCode → Stage
  | .lexical _ => .lexer
  | .unexpectedToken | .expectedExpression | .expectedType | .invalidTarget | .expectedName |
    .literalRange => .parser
  | .operands | .returnType | .printType | .undefinedVariable | .noOverload |
    .undefinedFunction | .initializer | .unknownMember | .condition | .unknownType |
    .assignedType => .checker
  | .exhausted | .tooManyErrors => .internal

end ErrorCode

/-- A part of the source with a remark on it. -/
structure Label where
  span : Span
  message : String
  deriving DecidableEq, Repr

structure Report where
  code : ErrorCode
  message : String
  /-- The first label is the primary location. -/
  labels : List Label
  notes : List String
  /-- Line and column, both from 1; zero until the report is placed. -/
  line : Nat
  col : Nat
  deriving DecidableEq, Repr

namespace Report

/-- A report on one part of the source. -/
def on (code : ErrorCode) (message : String) (span : Span) (label : String) : Report :=
  { code, message, labels := [⟨span, label⟩], notes := [], line := 0, col := 0 }

def placed (r : Report) (line col : Nat) : Report := { r with line, col }

/-- The report in one line, followed by one line for each note. -/
def text (r : Report) : String :=
  r.notes.foldl (fun text note => text ++ "\n  = note: " ++ note)
    (r.code.stage.text ++ " error [" ++ r.code.text ++ "] " ++ s!"{r.line}:{r.col}: " ++ r.message)

/-- Reading order. -/
def before (r s : Report) : Bool := r.line < s.line || (r.line == s.line && r.col ≤ s.col)

end Report

end FrontEnd
