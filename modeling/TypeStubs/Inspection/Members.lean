import TypeStubs.Inspection.Attributes

/-! Classes and modules with their members. -/

namespace TypeStubs

inductive ClassMember where
  | nothing
  | doc (text : String)
  | alias (a : Alias)
  | field (f : Field)
  | nested (c : Class)
  | methods (ms : List Method)
  | property (p : Property)

inductive ModuleMember where
  | nothing
  | doc (text : String)
  | imported (i : Import)
  | alias (a : Alias)
  | nested (c : Class)
  | functions (fs : List Function)
  | subModule (m : Module)
  | attr (a : Attribute)

def Class.add (c : Class) : ClassMember → Class
  | .nothing => c
  | .doc text => { c with doc := some text }
  | .alias a => { c with aliases := c.aliases ++ [a] }
  | .field f => { c with fields := c.fields ++ [f] }
  | .nested n => { c with classes := c.classes ++ [n] }
  | .methods ms => { c with methods := c.methods ++ ms }
  | .property p => { c with properties := c.properties ++ [p] }

theorem Class.name_add (c : Class) (m : ClassMember) : (c.add m).name = c.name := by
  cases m <;> rfl

def Module.add (m : Module) : ModuleMember → Module
  | .nothing => m
  | .doc text => { m with doc := some text }
  | .imported i => { m with imports := i.insert m.imports }
  | .alias a => { m with aliases := m.aliases ++ [a] }
  | .nested c => { m with classes := m.classes ++ [c] }
  | .functions fs => { m with functions := m.functions ++ fs }
  | .subModule s => { m with subModules := m.subModules ++ [s] }
  | .attr a => { m with attributes := m.attributes ++ [a] }

theorem Module.name_add (m : Module) (member : ModuleMember) : (m.add member).name = m.name := by
  cases member <;> rfl

def hiddenClassMembers : List String :=
  ["__annotations__", "__class__", "__dict__", "__module__", "__qualname__", "__weakref__"]

def isInternalMember (name : String) : Bool :=
  name = "pybind11_type" || hasFront "__pybind11_module" name

def hasOwnMember (owner : Object) (name : String) : Bool :=
  (owner.members.any (·.1 = name)) || Implicit.inClassDictionary.contains name

/-- A property without documentation whose getter gives what its setter takes is a field. -/
def Property.asField? (p : Property) : Option Field :=
  match p.doc, p.getter, p.setter with
  | none, some g, some s =>
    match g.arguments, s.arguments with
    | [_], [_, v] =>
      if g.doc.isNone && s.doc.isNone && g.returns = v.hint then
        some ⟨⟨p.name, none, g.returns⟩, .plain⟩
      else none
    | _, _ => none
  | _, _, _ => none

def ClassMember.withFields : ClassMember → ClassMember
  | .property p => (p.asField?.map .field).getD (.property p)
  | m => m

/-- The docstring of the text method of enumerations, which names another function. -/
def enumTextDoc : String := "name(self: handle) -> str\n"

def Method.withEnumText (m : Method) : Method :=
  if m.function.name = "__str__" && m.function.doc = some enumTextDoc then
    { function := { m.function with
        arguments := [{ name := some "self" }]
        returns := some (.type ⟨["str"]⟩ none)
        doc := none }
      modifier := .plain }
  else m

namespace Inspection

structure Descent where
  classAt : QualifiedName → Object → Inspection Class
  moduleAt : QualifiedName → Object → Inspection Module

/-- What a member of a class contributes by its kind. `nested` inspects it as a class. -/
def classMemberByKind (path : QualifiedName) (o : Object) (nested : Inspection Class) :
    Inspection ClassMember := do
  if o.isRoutine then return .methods (← methodsOf path o)
  if ← isAlias path o then return ((← aliasOf path o).map .alias).getD .nothing
  if o.isClass then return .nested (← nested)
  if ← isDescriptor o then return ((← propertyOf path o).map .property).getD .nothing
  if path.last = "__doc__" then return ((docOf o).map .doc).getD .nothing
  return ((← fieldOf path o).map .field).getD .nothing

def withEnumTexts (owner : Object) : ClassMember → Inspection ClassMember
  | .methods ms => do
    if (← world).has owner "__members__" then return .methods (ms.map Method.withEnumText)
    else return .methods ms
  | m => return m

def classMember (path : QualifiedName) (owner o : Object) (nested : Inspection Class) :
    Inspection ClassMember := do
  let name := path.last
  if hiddenClassMembers.contains name || !hasOwnMember owner name then return .nothing
  if !isIdentifier name then
    report (.identifier name path.parent)
    return .nothing
  if isInternalMember name then return .nothing
  let member ← withEnumTexts owner (← classMemberByKind path o nested)
  return member.withFields

/-- The names of base classes, up to the first that only the extension knows. -/
def basesOf (bases : List Object) : Inspection (List QualifiedName) := do
  let names ← go bases
  return names.takeWhile fun name => name.head != "pybind11_builtins"
where
  go : List Object → Inspection (List QualifiedName)
    | [] => return []
    | b :: bs => do
      if b.moduleName? = some "builtins" && b.qualified? = some "object" then go bs
      else
        let name ← typeNameOf b
        return name :: (← go bs)

def addClassMembers (c : Class) : List (String × Inspection ClassMember) → Inspection Class
  | [] => return c
  | (_, member) :: members => do
    let m ← member
    addClassMembers (c.add m) members

def addModuleMembers (m : Module) : List (String × Inspection ModuleMember) → Inspection Module
  | [] => return m
  | (_, member) :: members => do
    let contribution ← member
    addModuleMembers (m.add contribution) members

def inNameOrder {α : Type} (members : List (String × Inspection α)) :
    List (String × Inspection α) :=
  sortBy (fun a b => decide (a.1 ≤ b.1)) members

/-- A member given, or the docstring among the members if none is given. -/
def withDoc {α : Type} (members : List (String × α)) (doc : α) : List (String × α) :=
  if members.any (·.1 = "__doc__") then members else ("__doc__", doc) :: members

def classBody (path : QualifiedName) (o : Object) (bases : List QualifiedName)
    (members : List (String × Inspection ClassMember)) : Inspection Class :=
  withLayer path <| withClass o do
    let w ← world
    let bases ← basesOf (bases.map fun b => w.settle (.ref b))
    let doc := classMember (path.member "__doc__") o (.ofText? o.doc?) (throw .missingAttribute)
    addClassMembers { name := path.last, bases } (inNameOrder (withDoc members doc))

mutual

def classWith (d : Descent) (path : QualifiedName) : Object → Inspection Class
  | .classDef identity metatype bases ms =>
    let o := Object.classDef identity metatype bases ms
    classBody path o bases (classMembersWith d path o ms)
  | _ => throw .missingAttribute

def classMembersWith (d : Descent) (path : QualifiedName) (owner : Object) :
    List (String × Object) → List (String × Inspection ClassMember)
  | [] => []
  | (name, o) :: ms =>
    let step : Inspection ClassMember := do
      let settled := (← settle o).readFrom owner
      classMember (path.member name) owner settled
        (if isReference o then d.classAt (path.member name) settled
          else classWith d (path.member name) o)
    (name, step) :: classMembersWith d path owner ms

end

/-- What a member of a module contributes. `nestedClass` and `nestedModule` inspect it as a class
and as a module. -/
def moduleMember (path : QualifiedName) (ownerName : String) (o : Object)
    (nestedClass : Inspection Class) (nestedModule : Inspection Module) :
    Inspection ModuleMember := do
  if !isIdentifier path.last then
    report (.identifier path.last path.parent)
    return .nothing
  let isForeign := (homeModule? o).any (· != ownerName)
  if isForeign || path.last = "annotations" then
    return ((← importOf path o).map .imported).getD .nothing
  if ← isAlias path o then return ((← aliasOf path o).map .alias).getD .nothing
  if o.isRoutine then return .functions (← functionsOf path o)
  if o.isClass then return .nested (← nestedClass)
  if o.isModule then return .subModule (← nestedModule)
  if path.last = "__doc__" then return ((docOf o).map .doc).getD .nothing
  return ((← attributeOf path o).map .attr).getD .nothing

def withTypeVariables (path : QualifiedName) (m : Module) : Inspection Module := do
  if (← options).arrays != .typeVariables then return m
  let names := sortBy (fun a b => decide (a ≤ b)) (← get).dimensions
  let bounds ← go names
  takeDimensions path
  if names.isEmpty then return m
  return { m with
    imports := (Import.mk none ⟨["typing"]⟩).insert m.imports
    typeVariables := m.typeVariables ++ bounds }
where
  go : List String → Inspection (List TypeVariable)
    | [] => return []
    | name :: names => do
      let bound ← hintOfText "int".toList
      return { name, bound := some bound } :: (← go names)

def publicNames (m : Module) : List String :=
  let names := m.classes.map Class.name ++ m.attributes.map Attribute.name ++
    m.functions.map Function.name ++ m.aliases.map Alias.name ++ m.imports.filterMap Import.name ++
    m.subModules.map Module.name
  sortBy (fun a b => decide (a ≤ b)) (names.filter fun n => !hasFront "_" n).eraseDups

def withPublicNames (m : Module) : Module :=
  if m.attributes.any (·.name = "__all__") then m
  else
    let names : Attribute := ⟨"__all__", some (textsValue (publicNames m)), none⟩
    { m with attributes := m.attributes ++ [names] }

def futureImport : Import := ⟨some "annotations", ⟨["__future__", "annotations"]⟩⟩

def withImports (m : Module) (imports : List Import) : Module :=
  let m := withPublicNames { m with imports := Import.union m.imports imports }
  { m with imports := futureImport.insert m.imports }

def moduleBody (path : QualifiedName) (o : Object) (name : String)
    (members : List (String × Inspection ModuleMember)) : Inspection Module :=
  withLayer path do
    let (m, imports) ← withModule o do
      let m ← withModulePath path do
        let doc := moduleMember (path.member "__doc__") name (.ofText? o.doc?)
          (throw .missingAttribute) (throw .missingAttribute)
        addModuleMembers { name := path.last } (inNameOrder (withDoc members doc))
      withTypeVariables path m
    return withImports m imports

mutual

def moduleWith (d : Descent) (path : QualifiedName) : Object → Inspection Module
  | .moduleDef name doc ms =>
    moduleBody path (.moduleDef name doc ms) name (moduleMembersWith d path name ms)
  | _ => throw .missingAttribute

def moduleMembersWith (d : Descent) (path : QualifiedName) (ownerName : String) :
    List (String × Object) → List (String × Inspection ModuleMember)
  | [] => []
  | (name, o) :: ms =>
    let site := path.member name
    let step : Inspection ModuleMember := do
      let settled ← settle o
      moduleMember site ownerName settled
        (if isReference o then d.classAt site settled else classWith d site o)
        (if isReference o then d.moduleAt site settled else moduleWith d site o)
    (name, step) :: moduleMembersWith d path ownerName ms

end

def descent : Nat → Descent
  | 0 => ⟨fun _ _ => throw .endless, fun _ _ => throw .endless⟩
  | n + 1 => ⟨classWith (descent n), moduleWith (descent n)⟩

def classOf (path : QualifiedName) (o : Object) : Inspection Class := do
  classWith (descent (← world).reach) path o

def moduleOf (path : QualifiedName) (o : Object) : Inspection Module := do
  moduleWith (descent (← world).reach) path o

end Inspection

end TypeStubs
