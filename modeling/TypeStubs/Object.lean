import TypeStubs.Decimal.Text
import TypeStubs.Name

/-! The objects that a module holds: values, routines, properties, classes and modules. A member can
also be a reference to an object defined elsewhere. -/

namespace TypeStubs

structure TypeName where
  module? : Option String
  qualified : String
deriving DecidableEq, Inhabited

def TypeName.builtin (name : String) : TypeName := ⟨some "builtins", name⟩

inductive ParameterKind where
  | positionOnly
  | plain
  | variadic
  | keywordOnly
  | keywordVariadic
deriving DecidableEq, Inhabited

def ParameterKind.rank : ParameterKind → Nat
  | positionOnly => 0
  | plain => 1
  | variadic => 2
  | keywordOnly => 3
  | keywordVariadic => 4

structure Parameter (α : Type) where
  name : String
  kind : ParameterKind := .plain
  default : Option α := none
  hint : Option α := none
deriving Inhabited

structure Signature (α : Type) where
  parameters : List (Parameter α) := []
  returns : Option α := none
deriving Inhabited

structure Identity where
  name? : Option String := none
  qualified? : Option String := none
  module? : Option String := none
  doc? : Option String := none
deriving DecidableEq, Inhabited

def Identity.names (i : Identity) : List String :=
  (i.name?.map fun _ => "__name__").toList ++ (i.qualified?.map fun _ => "__qualname__").toList ++
    (i.module?.map fun _ => "__module__").toList

inductive RoutineKind where
  | function
  | native
deriving DecidableEq, Inhabited

inductive Wrapping where
  | shared
  | classwide
deriving DecidableEq, Inhabited

def Wrapping.name : Wrapping → String
  | shared => "staticmethod"
  | classwide => "classmethod"

inductive BaseType where
  | object
  | int
  | str
  | float
  | list
  | dict
  | tuple
deriving DecidableEq, Inhabited

def BaseType.name : BaseType → String
  | object => "object"
  | int => "int"
  | str => "str"
  | float => "float"
  | list => "list"
  | dict => "dict"
  | tuple => "tuple"

inductive Object where
  | none
  | bool (b : Bool)
  | int (n : Int)
  | str (s : String)
  | float (x : Binary)
  | complex (re im : Binary)
  | bytes (bs : List Nat)
  | list (items : List Object)
  | tuple (items : List Object)
  | set (items : List Object)
  | dict (entries : List (Object × Object))
  | value (type : TypeName) (base : BaseType) (text : String)
  | routine (kind : RoutineKind) (identity : Identity) (signature : Option (Signature Object))
  | property (getter setter : Option Object) (doc : Option String)
  | descriptor (identity : Identity) (reads writes : Bool)
  /-- An object that shows another one when it is read from a class. -/
  | wrapped (wrapping : Wrapping) (inner : Object)
  | bound (owner : String) (inner : Object)
  | classDef (identity : Identity) (metatype : TypeName) (bases : List QualifiedName)
      (members : List (String × Object))
  | moduleDef (name : String) (doc : Option String) (members : List (String × Object))
  | special (name : String)
  | ref (path : QualifiedName)
deriving Inhabited

namespace Object

/-- The object is a routine: it can be called as a method. A descriptor that only reads is one, and
so is everything that is wrapped or bound. -/
def isRoutine : Object → Bool
  | routine .. => true
  | descriptor _ reads writes => reads && !writes
  | wrapped .. => true
  | bound .. => true
  | _ => false

def isClass : Object → Bool
  | classDef .. => true
  | _ => false

def isModule : Object → Bool
  | moduleDef .. => true
  | _ => false

def isNone : Object → Bool
  | none => true
  | _ => false

def isDict : Object → Bool
  | dict _ => true
  | value _ .dict _ => true
  | _ => false

def text? : Object → Option String
  | str s => some s
  | value _ .str _ => some ""
  | _ => Option.none

def members : Object → List (String × Object)
  | classDef _ _ _ ms => ms
  | moduleDef _ _ ms => ms
  | _ => []

end Object

end TypeStubs
