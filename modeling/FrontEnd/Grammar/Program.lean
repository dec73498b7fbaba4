import FrontEnd.Grammar.Expression
import FrontEnd.Grammar.Statement

/-! Whole programs, and the recursion through all productions. -/

namespace FrontEnd

namespace Parse

/-- Reports that a storage ran out. -/
def reportExhausted (cause : StorageError) : Parse Unit := do
  beginStatement
  report .exhausted (← currentSpan) cause.message "while parsing this"

def program (parse : Productions) : Parse (List StmtId) := do
  if ← atEnd then return []
  if ← truncated then return []
  let start ← currentSpan
  match ← attempt (parse .stmt) with
  | .ok id => return id :: (← parse .program)
  | .error .reported =>
    synchronize start
    parse .program
  | .error (.exhausted cause) =>
    reportExhausted cause
    return []
  | .error (.fault f) => throw (.fault f)

/-- One production, given the parsing of all. -/
def step (parse : Productions) : Productions
  | .expr least isValue => expression parse least isValue
  | .infixes left least isValue => infixes parse left least isValue
  | .args => args parse
  | .type => typeName parse
  | .params => params parse
  | .stmt => statement parse
  | .items => items parse
  | .fields done => fields parse done
  | .variants => variants parse
  | .path name => path parse name
  | .program => program parse

/-- Productions that go through at most so many others. -/
def within : Nat → Productions
  | 0 => fun _ => throw (.fault .endless)
  | depth + 1 => step (within depth)

/-- A production. On every way back to itself it takes a token, and there are only a few others,
so the unread text bounds how deep it goes. -/
def production (p : Production) : Parse p.Result := do
  within (8 * ((← get).window.unread + 1)) p

end Parse

end FrontEnd
