import TypeStubs.Inspection.Functions

/-! Attributes, fields, aliases and imports. -/

namespace TypeStubs

def hiddenAttributes : List String :=
  ["__annotations__", "__builtins__", "__cached__", "__file__", "__loader__", "__name__",
   "__package__", "__path__", "__spec__", "__entries"]

def capsuleStart : String := "PyCapsule."

def withoutCapsule (name : String) : String :=
  match dropFront? capsuleStart.toList name.toList with
  | some rest => String.ofList rest
  | none => name

namespace Inspection

def isAlias (path : QualifiedName) (o : Object) : Inspection Bool :=
  match o with
  | .moduleDef name _ _ => return name != path.text
  | o =>
    if o.isRoutine || o.isClass then
      match o.name? with
      | some name => return name != path.last
      | none => throw .missingAttribute
    else return false

def isDescriptor (o : Object) : Inspection Bool := do
  return (← world).has o "__get__" || (← world).has o "__set__"

/-- The module that an object belongs to: the one around a module, and the one that a routine or
class names. -/
def homeModule? (o : Object) : Option String :=
  match o with
  | .moduleDef name _ _ =>
    match splitAtLast? '.' name.toList with
    | some (home, _) => some (String.ofList home)
    | none => some name
  | o => if o.isClass || o.isRoutine then o.moduleName? else none

/-- The full name that an object gives itself, or a report if it has none. Features of the language
have no name to import. -/
def selfName? (path : QualifiedName) (o : Object) : Inspection (Option String) := do
  match o with
  | .moduleDef name _ _ => return some name
  | o =>
    if o.moduleName? = some "__future__" then return none
    match o.moduleName?, o.qualified? with
    | some m, some q =>
      return some (m ++ "." ++ withoutCapsule q)
    | _, _ =>
      report (.name path)
      return none

def fullName? (path : QualifiedName) (o : Object) : Inspection (Option QualifiedName) := do
  match ← selfName? path o with
  | none => return none
  | some text =>
    let name := QualifiedName.ofText text
    match name.parts.find? fun part => !isIdentifier part with
    | some part =>
      report (.identifier part path)
      return none
    | none => return some name

def aliasOf (path : QualifiedName) (o : Object) : Inspection (Option Alias) := do
  match ← fullName? path o with
  | none => return none
  | some name =>
    let origin ← withoutModule name
    requireImport origin
    return some ⟨path.last, origin⟩

def importOf (path : QualifiedName) (o : Object) : Inspection (Option Import) := do
  match ← fullName? path o with
  | none => return none
  | some origin =>
    addImport ⟨some path.last, origin⟩
    return some ⟨some path.last, origin⟩

def docOf (o : Object) : Option String := o.text?

def attributeOf (path : QualifiedName) (o : Object) : Inspection (Option Attribute) := do
  if Typing.binds path.last o || hiddenAttributes.contains path.last then return none
  let v ← value o
  let type ← typeName o.typeName
  if o.isNone || o.isModule then return some ⟨path.last, some v, none⟩
  let name ← withoutModule type
  requireImport name
  return some ⟨path.last, some v, some (.type name none)⟩

/-- The union of types. They are a set, whose order means nothing; that by names is the choice made
here. -/
def anyOf (types : List QualifiedName) : Inspection Hint := do
  match types with
  | [type] => return .type type none
  | types =>
    let union ← wellKnown "typing.Union"
    let sorted := sortBy (fun a b => decide (a.text ≤ b.text)) types
    return .type union (some (sorted.map (.type · none)))

def entryTypes (keys values : List QualifiedName) :
    List (Object × Object) → Inspection (List QualifiedName × List QualifiedName)
  | [] => return (keys, values)
  | (k, v) :: es => do
    let keyType ← typeName (← settle k).typeName
    let valueType ← typeName (← settle v).typeName
    entryTypes (keys.insert keyType) (values.insert valueType) es

def dictType? : Object → Inspection (Option Hint)
  | .dict (e :: es) => do
    let (keys, values) ← entryTypes [] [] (e :: es)
    let keyType ← anyOf keys
    let valueType ← anyOf values
    let dict ← wellKnown "typing.Dict"
    return some (.type dict (some [keyType, valueType]))
  | _ => return none

def anyDictVariable : Hint :=
  .type ⟨["typing", "ClassVar"]⟩ (some [.type ⟨["dict"]⟩ none])

def variableHint : Option Hint → Inspection (Option Hint)
  | none => return none
  | some type => return some (.type (← wellKnown "typing.ClassVar") (some [type]))

/-- The members of an enumeration are a dictionary of known types. -/
def membersHint (path : QualifiedName) (o : Object) (hint : Option Hint) :
    Inspection (Option Hint) := do
  if path.last = "__members__" && o.isDict && hint = some anyDictVariable then
    match ← dictType? o with
    | some type => return some (.type ⟨["typing", "ClassVar"]⟩ (some [type]))
    | none => return hint
  else return hint

/-- The hint of a field: a class variable of the type of its value. A missing hash is nothing. -/
def fieldHint (path : QualifiedName) (o : Object) (hint : Option Hint) :
    Inspection (Option Hint) := do
  let hint ← membersHint path o (← variableHint hint)
  if o.isNone && path.last = "__hash__" then
    return some (← hintOfText "typing.ClassVar[None]".toList)
  else return hint

def fieldOf (path : QualifiedName) (o : Object) : Inspection (Option Field) := do
  match ← attributeOf path o with
  | none => return none
  | some a => return some ⟨{ a with hint := ← fieldHint path o a.hint }, .static⟩

end Inspection

end TypeStubs
