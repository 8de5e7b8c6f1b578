import TypeStubs.Inspection.Imports

/-! The names of types as they stand in stubs. -/

namespace TypeStubs

def typingNames : List String :=
  ["Annotated", "Any", "Buffer", "Callable", "Dict", "ItemsView", "Iterable", "Iterator",
   "KeysView", "List", "Literal", "Optional", "Sequence", "Set", "Tuple", "Union", "ValuesView",
   "buffer", "iterable", "iterator", "sequence"]

def typingExtensionNames : List String := ["buffer", "Buffer"]

def collectionNames : List String := ["Dict", "List", "Set", "Tuple", "FrozenSet", "Type"]

def capitalized (word : String) : String :=
  match word.toList with
  | [] => ""
  | c :: cs => String.ofList (c.toUpper :: cs)

namespace QualifiedName

/-- Gives a word of the typing module its full name. Words for any function and any object are such
words only without parameters. -/
def qualifyTyping (name : QualifiedName) (hasParameters : Bool) : QualifiedName :=
  match name.parts with
  | [word] =>
    if typingNames.contains word then
      ⟨[if typingExtensionNames.contains word then "typing_extensions" else "typing",
        capitalized word]⟩
    else if word = "function" && !hasParameters then ⟨["typing", "Callable"]⟩
    else if (word = "object" || word = "handle") && !hasParameters then ⟨["typing", "Any"]⟩
    else name
  | _ => name

/-- Gives a collection of the typing module its name in the language itself. -/
def plainCollection (name : QualifiedName) : QualifiedName :=
  match name.parts with
  | ["typing", word] =>
    if collectionNames.contains word then ⟨[word.map Char.toLower]⟩ else name
  | _ => name

end QualifiedName

namespace Inspection

def withoutModule (name : QualifiedName) : Inspection QualifiedName :=
  return ((← get).modulePath.dropBase? name).getD name

def wellKnown (text : String) : Inspection QualifiedName := do
  let name ← withoutModule (.ofText text)
  let name := (name.qualifyTyping false).plainCollection
  requireImport name
  return name

/-- The name of a type of the language itself. Nothing has a name of its own, and functions are
known as callables. -/
def builtinTypeName (parts : List String) : Inspection QualifiedName :=
  match parts with
  | "NoneType" :: _ => return ⟨["None"]⟩
  | "function" :: _ => wellKnown "typing.Callable"
  | "builtin_function_or_method" :: _ => wellKnown "typing.Callable"
  | parts => return ⟨parts⟩

def fullTypeName (t : TypeName) : Inspection QualifiedName := do
  match t.module? with
  | none => throw .missingAttribute
  | some m =>
    if m = "builtins" && t.qualified = "PyCapsule" then return ⟨["typing", "Any"]⟩
    match splitText '.' m ++ splitText '.' t.qualified with
    | "builtins" :: parts => builtinTypeName parts
    | parts => return ⟨parts⟩

def typeName (t : TypeName) : Inspection QualifiedName := do
  let name ← withoutModule (← fullTypeName t)
  requireImport name
  return name

def typeNameOf (o : Object) : Inspection QualifiedName :=
  match o.qualified? with
  | none => throw .missingAttribute
  | some qualified => typeName ⟨o.moduleName?, qualified⟩

end Inspection

end TypeStubs
