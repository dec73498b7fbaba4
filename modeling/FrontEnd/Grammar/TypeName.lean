import FrontEnd.Grammar.Production

/-! Types: basic ones, function types, and the names of structs and enums. -/

namespace FrontEnd

namespace Parse

variable (parse : Productions)

/-- The basic type that a keyword names. -/
def basicType? : TokenKind → Option TypeId
  | .kwInt => some .integer
  | .kwLong => some .long
  | .kwFloat => some .float
  | .kwDouble => some .double
  | .kwBool => some .bool
  | .kwChar => some .char
  | .kwCstring => some .cstring
  | .kwVoid => some .void
  | _ => none

/-- A parameter may have a name. -/
def paramName : Parse Name := do
  if ← currentIs .ident then return (← expectName).1
  return .empty

def params : Parse (List (TypeId × Name) × Bool) := do
  if ← eat .ellipsis then return ([], true)
  let type ← parse .type
  let name ← paramName
  if ← eat .comma then
    let (rest, variadic) ← parse .params
    return ((type, name) :: rest, variadic)
  return ([(type, name)], false)

/-- Parameters and return type of a function; without a return type it returns nothing. -/
def signature : Parse TypeId := do
  let _ ← expect .openParen
  let (params, variadic) ← if ← currentIs .closeParen then pure ([], false) else parse .params
  let _ ← expect .closeParen
  let ret ← if ← eat .thinArrow then parse .type else pure .void
  addFunction ⟨params.map Prod.fst, params.map Prod.snd, ret, variadic⟩

/-- The name of a struct or enum. An unknown name is reported and stands for the invalid type. -/
def namedType : Parse TypeId := do
  let (name, span) ← expectName
  match (← get).env.resolveType name with
  | some type => return type
  | none =>
    report .unknownType span ("unknown type " ++ (← quote name)) "not found in this scope"
    return .invalid

def typeName : Parse TypeId := do
  let token ← current
  match basicType? token.kind with
  | some type =>
    let _ ← advance
    return type
  | none =>
    if token.kind = .kwFunc then
      let _ ← advance
      signature parse
    else if token.kind = .ident then namedType
    else if token.kind.isTypeKeyword then
      reject .expectedType ("type `" ++ token.kind.describe ++ "` is not supported")
        "unsupported type"
    else expected .expectedType "type"

end Parse

end FrontEnd
