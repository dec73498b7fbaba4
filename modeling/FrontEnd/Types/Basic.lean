import FrontEnd.Name.Interner
import FrontEnd.Constant.Value

/-! Types: nine basic ones, functions, structs and enums. -/

namespace FrontEnd

/-- Handle of a type in a type table. -/
structure TypeId where
  slot : Nat
  deriving DecidableEq, Repr, Inhabited

inductive BasicType
  /-- Stands for the type of something wrong; agrees with every type. -/
  | invalid
  | void | integer | long | float | double | bool | char | cstring
  deriving DecidableEq, Repr

namespace BasicType

/-- The basic types in the order of their handles. -/
def all : List BasicType :=
  [.invalid, .void, .integer, .long, .float, .double, .bool, .char, .cstring]

/-- Canonical text. -/
def text : BasicType → String
  | .invalid => "INVALID"
  | .void => "void"
  | .integer => "int"
  | .long => "long"
  | .float => "float"
  | .double => "double"
  | .bool => "bool"
  | .char => "char"
  | .cstring => "cstring"

/-- The type as messages name it. -/
def display : BasicType → String
  | .invalid => "Invalid"
  | .void => "Void"
  | .integer => "Integer"
  | .long => "Long"
  | .float => "Float"
  | .double => "Double"
  | .bool => "Bool"
  | .char => "Char"
  | .cstring => "CString"

/-- Place in the widening order, for numeric types. -/
def rank? : BasicType → Option Nat
  | .char => some 0
  | .integer => some 1
  | .long => some 2
  | .float => some 3
  | .double => some 4
  | _ => none

/-- Every type table holds the basic types first, in order. -/
def id (b : BasicType) : TypeId := ⟨b.ctorIdx⟩

end BasicType

namespace TypeId

def invalid : TypeId := BasicType.invalid.id
def void : TypeId := BasicType.void.id
def integer : TypeId := BasicType.integer.id
def long : TypeId := BasicType.long.id
def float : TypeId := BasicType.float.id
def double : TypeId := BasicType.double.id
def bool : TypeId := BasicType.bool.id
def char : TypeId := BasicType.char.id
def cstring : TypeId := BasicType.cstring.id

end TypeId

/-- The type of a literal with a value of this kind. -/
def ValueKind.type : ValueKind → TypeId
  | .char => .char
  | .integer => .integer
  | .long => .long
  | .float => .float
  | .double => .double
  | .bool => .bool

structure Signature where
  params : List TypeId
  /-- Empty where a parameter has no name. -/
  paramNames : List Name
  ret : TypeId
  /-- Any number of further arguments may follow. -/
  variadic : Bool
  deriving DecidableEq, Repr

structure Field where
  name : Name
  type : TypeId
  deriving DecidableEq, Repr

inductive TypeKind
  | basic (b : BasicType)
  | function (signature : Signature)
  | struct (name : Name) (fields : List Field)
  | enum (name : Name) (variants : List Name)
  deriving DecidableEq, Repr

namespace TypeKind

def basic? : TypeKind → Option BasicType
  | .basic b => some b
  | _ => none

def rank? (k : TypeKind) : Option Nat := k.basic?.bind BasicType.rank?

def function? : TypeKind → Option Signature
  | .function signature => some signature
  | _ => none

end TypeKind

/-- A type and its canonical text. -/
structure TypeDesc where
  kind : TypeKind
  text : Name
  deriving DecidableEq, Repr

end FrontEnd
