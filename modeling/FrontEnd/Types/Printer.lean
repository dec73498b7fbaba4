import FrontEnd.Types.Table

/-! Text of types. -/

namespace FrontEnd

namespace TypeTable

variable (t : TypeTable) (names : Interner) (withIds : Bool)

/-- The type as messages name it, and its slot if wanted. -/
def typeText (id : TypeId) : Except Fault String :=
  return (← t.describe names id) ++ if withIds then "#" ++ toString id.slot else ""

/-- What stands between braces. -/
def braced (parts : List String) : String := "\x7b" ++ ", ".intercalate parts ++ "\x7d"

def signatureText (s : Signature) : Except Fault String := do
  let params ← (s.params.zip s.paramNames).mapM fun (type, name) =>
    return (← t.typeText names withIds type) ++ " " ++ names.lookup name
  let ret ← t.typeText names withIds s.ret
  return braced params ++ " " ++ toString s.params.length ++
    (if s.variadic then " variadic " else " ") ++ ret

/-- All that a type consists of. -/
def infoText (id : TypeId) : Except Fault String := do
  let desc ← t.desc id
  let text := names.lookup desc.text
  match desc.kind with
  | .basic b => return "basic " ++ text ++ " " ++ b.display
  | .function s => return "function " ++ text ++ " " ++ (← t.signatureText names withIds s)
  | .struct name fields =>
    let fields ← fields.mapM fun field =>
      return names.lookup field.name ++ " " ++ (← t.typeText names withIds field.type)
    return "struct " ++ text ++ " " ++ names.lookup name ++ " " ++ braced fields
  | .enum name variants =>
    return "enum " ++ text ++ " " ++ names.lookup name ++ " " ++ braced (variants.map names.lookup)

end TypeTable

end FrontEnd
