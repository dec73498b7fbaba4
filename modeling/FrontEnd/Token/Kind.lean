/-! Kinds of tokens, their spellings and their order. -/

namespace FrontEnd

/-- What a token is. The order is fixed: literals, operators, punctuation, keywords, and last
the keywords that name types. -/
inductive TokenKind
  | error | eof | ident | stringLit | intLit | longLit | floatLit | doubleLit | charLit | tag
  | plus | minus | star | slash | percent | amp | pipe | caret | tilde | bang | backslash
  | bangEqual | equalEqual | less | greater | lessEqual | greaterEqual | ampAmp | pipePipe
  | shiftLeft | shiftRight | plusPlus | minusMinus | equal | plusEqual | minusEqual | starEqual
  | slashEqual | percentEqual | ampEqual | pipeEqual | caretEqual | tildeEqual
  | openBrace | closeBrace | openParen | closeParen | openBracket | closeBracket | comma | dot
  | ellipsis | semicolon | colon | question | fatArrow | thinArrow
  | kwStruct | kwEnum | kwUnion | kwFlagEnum | kwReturn | kwBreak | kwContinue | kwImport
  | kwNull | kwNullptr | kwConst | kwIf | kwElse | kwDo | kwFor | kwWhile | kwSwitch | kwMatch
  | kwCase | kwDefault | kwTrue | kwFalse | kwNative | kwNamespace | kwUsing | kwSizeof
  | kwOffsetof | kwCinclude | kwCinsert | kwOperator | kwTypedef | kwFunc | kwPrint
  | kwInt | kwCstring | kwFloat | kwBool | kwDouble | kwChar | kwShort | kwLong | kwVoid
  | kwUchar | kwUshort | kwUint | kwUlong
  deriving DecidableEq, Repr

namespace TokenKind

/-- All kinds, in order. -/
def all : List TokenKind :=
  [.error, .eof, .ident, .stringLit, .intLit, .longLit, .floatLit, .doubleLit, .charLit, .tag,
   .plus, .minus, .star, .slash, .percent, .amp, .pipe, .caret, .tilde, .bang, .backslash,
   .bangEqual, .equalEqual, .less, .greater, .lessEqual, .greaterEqual, .ampAmp, .pipePipe,
   .shiftLeft, .shiftRight, .plusPlus, .minusMinus, .equal, .plusEqual, .minusEqual, .starEqual,
   .slashEqual, .percentEqual, .ampEqual, .pipeEqual, .caretEqual, .tildeEqual, .openBrace,
   .closeBrace, .openParen, .closeParen, .openBracket, .closeBracket, .comma, .dot, .ellipsis,
   .semicolon, .colon, .question, .fatArrow, .thinArrow, .kwStruct, .kwEnum, .kwUnion,
   .kwFlagEnum, .kwReturn, .kwBreak, .kwContinue, .kwImport, .kwNull, .kwNullptr, .kwConst,
   .kwIf, .kwElse, .kwDo, .kwFor, .kwWhile, .kwSwitch, .kwMatch, .kwCase, .kwDefault, .kwTrue,
   .kwFalse, .kwNative, .kwNamespace, .kwUsing, .kwSizeof, .kwOffsetof, .kwCinclude, .kwCinsert,
   .kwOperator, .kwTypedef, .kwFunc, .kwPrint, .kwInt, .kwCstring, .kwFloat, .kwBool, .kwDouble,
   .kwChar, .kwShort, .kwLong, .kwVoid, .kwUchar, .kwUshort, .kwUint, .kwUlong]

/-- Position in the order. -/
def index (k : TokenKind) : Nat := k.ctorIdx

def isKeyword (k : TokenKind) : Bool := kwStruct.index ≤ k.index

/-- Keywords that name a type, supported or not. -/
def isTypeKeyword (k : TokenKind) : Bool := kwInt.index ≤ k.index

/-- The kind as messages name it: the spelling, if it has only one. -/
def describe : TokenKind → String
  | .error => "invalid token"
  | .eof => "end of file"
  | .ident => "identifier"
  | .stringLit => "string literal"
  | .intLit => "integer literal"
  | .longLit => "long literal"
  | .floatLit => "float literal"
  | .doubleLit => "double literal"
  | .charLit => "character literal"
  | .tag => "tag"
  | .plus => "+"
  | .minus => "-"
  | .star => "*"
  | .slash => "/"
  | .percent => "%"
  | .amp => "&"
  | .pipe => "|"
  | .caret => "^"
  | .tilde => "~"
  | .bang => "!"
  | .backslash => "\\"
  | .bangEqual => "!="
  | .equalEqual => "=="
  | .less => "<"
  | .greater => ">"
  | .lessEqual => "<="
  | .greaterEqual => ">="
  | .ampAmp => "&&"
  | .pipePipe => "||"
  | .shiftLeft => "<<"
  | .shiftRight => ">>"
  | .plusPlus => "++"
  | .minusMinus => "--"
  | .equal => "="
  | .plusEqual => "+="
  | .minusEqual => "-="
  | .starEqual => "*="
  | .slashEqual => "/="
  | .percentEqual => "%="
  | .ampEqual => "&="
  | .pipeEqual => "|="
  | .caretEqual => "^="
  | .tildeEqual => "~="
  | .openBrace => "\x7b"
  | .closeBrace => "\x7d"
  | .openParen => "("
  | .closeParen => ")"
  | .openBracket => "["
  | .closeBracket => "]"
  | .comma => ","
  | .dot => "."
  | .ellipsis => "..."
  | .semicolon => ";"
  | .colon => ":"
  | .question => "?"
  | .fatArrow => "=>"
  | .thinArrow => "->"
  | .kwStruct => "struct"
  | .kwEnum => "enum"
  | .kwUnion => "union"
  | .kwFlagEnum => "flagenum"
  | .kwReturn => "return"
  | .kwBreak => "break"
  | .kwContinue => "continue"
  | .kwImport => "import"
  | .kwNull => "null"
  | .kwNullptr => "nullptr"
  | .kwConst => "const"
  | .kwIf => "if"
  | .kwElse => "else"
  | .kwDo => "do"
  | .kwFor => "for"
  | .kwWhile => "while"
  | .kwSwitch => "switch"
  | .kwMatch => "match"
  | .kwCase => "case"
  | .kwDefault => "default"
  | .kwTrue => "true"
  | .kwFalse => "false"
  | .kwNative => "native"
  | .kwNamespace => "namespace"
  | .kwUsing => "using"
  | .kwSizeof => "sizeof"
  | .kwOffsetof => "offsetof"
  | .kwCinclude => "cinclude"
  | .kwCinsert => "cinsert"
  | .kwOperator => "operator"
  | .kwTypedef => "typedef"
  | .kwFunc => "func"
  | .kwPrint => "print"
  | .kwInt => "int"
  | .kwCstring => "cstring"
  | .kwFloat => "float"
  | .kwBool => "bool"
  | .kwDouble => "double"
  | .kwChar => "char"
  | .kwShort => "short"
  | .kwLong => "long"
  | .kwVoid => "void"
  | .kwUchar => "uchar"
  | .kwUshort => "ushort"
  | .kwUint => "uint"
  | .kwUlong => "ulong"

/-- The kind's own name. -/
def name : TokenKind → String
  | .error => "Error"
  | .eof => "Eof"
  | .ident => "Ident"
  | .stringLit => "StringLit"
  | .intLit => "IntLit"
  | .longLit => "LongLit"
  | .floatLit => "FloatLit"
  | .doubleLit => "DoubleLit"
  | .charLit => "CharLit"
  | .tag => "Tag"
  | .plus => "Plus"
  | .minus => "Minus"
  | .star => "Star"
  | .slash => "Slash"
  | .percent => "Percent"
  | .amp => "Amp"
  | .pipe => "Pipe"
  | .caret => "Caret"
  | .tilde => "Tilde"
  | .bang => "Bang"
  | .backslash => "Backslash"
  | .bangEqual => "BangEqual"
  | .equalEqual => "EqualEqual"
  | .less => "Less"
  | .greater => "Greater"
  | .lessEqual => "LessEqual"
  | .greaterEqual => "GreaterEqual"
  | .ampAmp => "AmpAmp"
  | .pipePipe => "PipePipe"
  | .shiftLeft => "ShiftLeft"
  | .shiftRight => "ShiftRight"
  | .plusPlus => "PlusPlus"
  | .minusMinus => "MinusMinus"
  | .equal => "Equal"
  | .plusEqual => "PlusEqual"
  | .minusEqual => "MinusEqual"
  | .starEqual => "StarEqual"
  | .slashEqual => "SlashEqual"
  | .percentEqual => "PercentEqual"
  | .ampEqual => "AmpEqual"
  | .pipeEqual => "PipeEqual"
  | .caretEqual => "CaretEqual"
  | .tildeEqual => "TildeEqual"
  | .openBrace => "OpenBrace"
  | .closeBrace => "CloseBrace"
  | .openParen => "OpenParen"
  | .closeParen => "CloseParen"
  | .openBracket => "OpenBracket"
  | .closeBracket => "CloseBracket"
  | .comma => "Comma"
  | .dot => "Dot"
  | .ellipsis => "Ellipsis"
  | .semicolon => "Semicolon"
  | .colon => "Colon"
  | .question => "Question"
  | .fatArrow => "FatArrow"
  | .thinArrow => "ThinArrow"
  | .kwStruct => "Struct"
  | .kwEnum => "Enum"
  | .kwUnion => "Union"
  | .kwFlagEnum => "FlagEnum"
  | .kwReturn => "Return"
  | .kwBreak => "Break"
  | .kwContinue => "Continue"
  | .kwImport => "Import"
  | .kwNull => "Null"
  | .kwNullptr => "Nullptr"
  | .kwConst => "Const"
  | .kwIf => "If"
  | .kwElse => "Else"
  | .kwDo => "Do"
  | .kwFor => "For"
  | .kwWhile => "While"
  | .kwSwitch => "Switch"
  | .kwMatch => "Match"
  | .kwCase => "Case"
  | .kwDefault => "Default"
  | .kwTrue => "True"
  | .kwFalse => "False"
  | .kwNative => "Native"
  | .kwNamespace => "Namespace"
  | .kwUsing => "Using"
  | .kwSizeof => "Sizeof"
  | .kwOffsetof => "Offsetof"
  | .kwCinclude => "Cinclude"
  | .kwCinsert => "Cinsert"
  | .kwOperator => "Operator"
  | .kwTypedef => "Typedef"
  | .kwFunc => "Func"
  | .kwPrint => "Print"
  | .kwInt => "Int"
  | .kwCstring => "Cstring"
  | .kwFloat => "Float"
  | .kwBool => "Bool"
  | .kwDouble => "Double"
  | .kwChar => "Char"
  | .kwShort => "Short"
  | .kwLong => "Long"
  | .kwVoid => "Void"
  | .kwUchar => "Uchar"
  | .kwUshort => "Ushort"
  | .kwUint => "Uint"
  | .kwUlong => "Ulong"

def ofName? (name : String) : Option TokenKind := all.find? (·.name == name)

/-- A spelling is quoted, the name of a class of tokens is not. -/
def quoted (k : TokenKind) : String :=
  if k.index < plus.index then k.describe else "`" ++ k.describe ++ "`"

end TokenKind

end FrontEnd
