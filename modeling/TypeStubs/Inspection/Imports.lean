import TypeStubs.Inspection.Report

/-! Which module a name comes from, and the imports that names ask for. -/

namespace TypeStubs.Inspection

def findModule? (name : QualifiedName) : Inspection (Option Object) := do
  let text := name.text
  if text = "" then throw .emptyModuleName
  if hasFront "." text then throw .relativeModuleName
  return (← world).module? text

def isModule (name : QualifiedName) : Inspection Bool := return (← findModule? name).isSome

/-- The object with a name can be reached from a module. Only as many parts as the name of the
module has are taken to be its own. -/
def isAccessible (name origin : QualifiedName) : Inspection Bool := do
  match ← findModule? origin with
  | none => return false
  | some m => return (← world).reaches m (name.parts.drop origin.length)

def parentModuleAmong? (name : QualifiedName) :
    List QualifiedName → Inspection (Option QualifiedName)
  | [] => return none
  | base :: rest => do
    if base.length = 0 then return none
    if ← isModule base then
      return if ← isAccessible name base then some base else none
    parentModuleAmong? name rest

def parentModule? (name : QualifiedName) : Inspection (Option QualifiedName) :=
  parentModuleAmong? name name.parents

/-- The name needs no import: it is empty, or its first part is known in the language, the class or
the module being inspected. -/
def isKnown (name : QualifiedName) : Inspection Bool := do
  let w ← world
  let p ← get
  let knownTo (o : Object) : Bool := w.has o name.head
  return name.parts = [] || name.parts = [""] || knownTo Builtins.asModule ||
    p.class?.any knownTo || p.module?.any knownTo

def requireImport (name : QualifiedName) : Inspection Unit := do
  if ← isKnown name then return
  match ← parentModule? name with
  | some origin => addImport ⟨none, origin⟩
  | none => report (.name name)

end TypeStubs.Inspection
