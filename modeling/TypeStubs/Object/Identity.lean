import TypeStubs.World.Builtins.Docs
import TypeStubs.World.Typing

/-! What objects say of themselves: their types, names, modules and documentation. -/

namespace TypeStubs.Object

def typeName : Object → TypeName
  | none => .builtin "NoneType"
  | bool _ => .builtin "bool"
  | int _ => .builtin "int"
  | str _ => .builtin "str"
  | float _ => .builtin "float"
  | complex _ _ => .builtin "complex"
  | bytes _ => .builtin "bytes"
  | list _ => .builtin "list"
  | tuple _ => .builtin "tuple"
  | set _ => .builtin "set"
  | dict _ => .builtin "dict"
  | value type _ _ => type
  | routine .function _ _ => .builtin "function"
  | routine .native _ _ => .builtin "builtin_function_or_method"
  | property _ _ _ => .builtin "property"
  | descriptor identity _ _ => ⟨identity.module?, "Descriptor"⟩
  | wrapped wrapping _ => .builtin wrapping.name
  | bound _ _ => .builtin "method"
  | classDef _ metatype _ _ => metatype
  | moduleDef _ _ _ => .builtin "module"
  | special name => Typing.typeOf name
  | ref _ => .builtin "object"

/-- What an object says of itself. A wrapped or bound object repeats what the one inside says, a
property without documentation has that of its getter, and a plain value has that of its type. -/
def identity : Object → Identity
  | value type _ _ => { module? := type.module? }
  | routine _ identity _ => identity
  | property (some getter) _ Option.none => { doc? := getter.identity.doc? }
  | property _ _ doc => { doc? := doc }
  | descriptor identity _ _ => identity
  | wrapped _ inner => inner.identity
  | bound _ inner => inner.identity
  | classDef identity _ _ _ => identity
  | moduleDef name doc _ => { name? := some name, doc? := doc }
  | special name =>
    { name? := some name
      qualified? := if name ∈ Typing.typeVariables then Option.none else some name
      module? := some Typing.moduleName }
  | ref _ => {}
  | o => { doc? := Builtins.docOf? o.typeName.qualified }

def name? (o : Object) : Option String := o.identity.name?

def qualified? (o : Object) : Option String := o.identity.qualified?

def moduleName? (o : Object) : Option String := o.identity.module?

def doc? (o : Object) : Option String := o.identity.doc?

def classText (o : Object) : String :=
  let qualified := o.qualified?.getD ""
  let name := match o.moduleName? with
    | some m => if m = "builtins" then qualified else m ++ "." ++ qualified
    | Option.none => qualified
  "<class '" ++ name ++ "'>"

/-- What the object inside a classwide one becomes when it is read from a class. It is bound,
unless it is bound already or takes over the access and shows what it always shows. -/
def boundTo (owner : Object) : Object → Object
  | bound text inner => bound text inner
  | wrapped .shared inner => inner
  | wrapped .classwide inner => boundTo owner inner
  | property .. => none
  | descriptor identity true writes => descriptor identity true writes
  | o => bound owner.classText o

def readFrom (member owner : Object) : Object :=
  match member with
  | wrapped .shared inner => inner
  | wrapped .classwide inner => boundTo owner inner
  | o => o

end TypeStubs.Object
