import FrontEnd.Grammar.Level
import FrontEnd.Grammar.State

/-!
The productions of the grammar that refer to each other. Each is defined elsewhere, given the
parsing of all of them; `Parse.production` ties the knot.
-/

namespace FrontEnd

inductive Production
  /-- An expression whose infix operators all bind at least as tightly as `least`. In a value no
  assignment is read: it ends in front of one. -/
  | expr (least : Level) (isValue : Bool)
  /-- What follows the operand `left` in such an expression. -/
  | infixes (left : ExprId) (least : Level) (isValue : Bool)
  /-- Arguments, at least one. -/
  | args
  | type
  /-- Parameters, at least one, or a mark for further arguments. -/
  | params
  | stmt
  /-- Statements up to and with a closing brace. Those that fail are skipped. -/
  | items
  /-- Fields up to a closing brace, after those already read. -/
  | fields (done : List Field)
  /-- Variants up to a closing brace. -/
  | variants
  /-- Further segments of the path to a namespace. -/
  | path (name : Name)
  /-- Statements up to the end of the text. -/
  | program
  deriving DecidableEq, Repr

/-- What a production yields. -/
@[reducible]
def Production.Result : Production → Type
  | .expr .. | .infixes .. => ExprId
  | .args => List ExprId
  | .type => TypeId
  | .params => List (TypeId × Name) × Bool
  | .stmt => StmtId
  | .items | .program => List StmtId
  | .fields _ => List Field
  | .variants => List Name
  | .path _ => Name

/-- Parsing of every production. -/
abbrev Productions := (p : Production) → Parse p.Result

/-- An expression in value position. -/
abbrev Production.value : Production := .expr .assign true

end FrontEnd
