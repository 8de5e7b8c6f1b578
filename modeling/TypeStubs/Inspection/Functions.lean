import TypeStubs.Inspection.Signatures

/-! Functions, methods and properties. -/

namespace TypeStubs

def hiddenMethods : List String := ["__dir__", "__sizeof__"]

def inheritedInitDoc : String := "Initialize self.  See help(type(self)) for accurate signature."

def methodModifier (arguments : List Argument) : Modifier :=
  match arguments.head?.bind Argument.name with
  | some "self" => .plain
  | some "cls" => .classwide
  | _ => .static

/-- The hint of the first parameter of a method of a class says nothing new: it is any type, or the
class itself under its full name or an end of it. -/
def isRedundantSelf (className : QualifiedName) : Hint → Bool
  | .type name parameters =>
    let ending := if name.length = 0 then className.parts
      else className.parts.drop (className.length - name.length)
    (parameters.getD []).isEmpty &&
      (name.parts = ["Any"] || name.parts = ["typing", "Any"] || name = className ||
        name.parts = ending)
  | .expression _ => false

def Function.withoutSelfHint (className : QualifiedName) (f : Function) : Function :=
  match f.arguments with
  | first :: rest =>
    if first.name = some "self" && first.hint.any (isRedundantSelf className) then
      { f with arguments := { first with hint := none } :: rest }
    else f
  | [] => f

/-- The first parameter of a getter or setter is the object itself, unless it has a default or
stands for several. -/
def Function.asAccessor (f : Function) : Function :=
  match f.arguments with
  | first :: rest =>
    if !first.variadic && !first.keywordVariadic && first.default.isNone then
      { f with arguments := { first with name := some "self", hint := none } :: rest }
    else f
  | [] => f

/-! The parts of a signature, and the arguments that are made of them. -/

/-- A signature as names and tables. The defaults are those of the last positional parameters. The hint
of the result is among the hints, under a name that no parameter has. -/
structure SignatureParts (α : Type) where
  positional : List String
  variadic : Option String
  keywordVariadic : Option String
  defaults : List α
  keywordOnly : List String
  keywordDefaults : List (String × α)
  hints : List (String × α)

/-- What some of the parameters have, by their names. -/
def byName {α β : Type} (part : Parameter α → Option β) (ps : List (Parameter α)) :
    List (String × β) :=
  ps.filterMap fun p => (part p).map (p.name, ·)

namespace Signature

variable {α : Type}

def ofKind (s : Signature α) (kind : ParameterKind) : List (Parameter α) :=
  s.parameters.filter (·.kind = kind)

def positional (s : Signature α) : List (Parameter α) := s.ofKind .positionOnly ++ s.ofKind .plain

def others (s : Signature α) : List (Parameter α) :=
  s.ofKind .variadic ++ s.ofKind .keywordOnly ++ s.ofKind .keywordVariadic

/-- The parameters by their kinds, each kind in the order in which it was declared. -/
def declared (s : Signature α) : List (Parameter α) := s.positional ++ s.others

def parts (s : Signature α) : SignatureParts α where
  positional := s.positional.map (·.name)
  variadic := (s.ofKind .variadic).head?.map (·.name)
  keywordVariadic := (s.ofKind .keywordVariadic).head?.map (·.name)
  defaults := s.positional.filterMap (·.default)
  keywordOnly := (s.ofKind .keywordOnly).map (·.name)
  keywordDefaults := byName (·.default) (s.ofKind .keywordOnly)
  hints := s.returns.toList.map ("return", ·) ++ byName (·.hint) s.declared

end Signature

def Argument.withDefault (v : Value) (a : Argument) : Argument := { a with default := some (.value v) }

def Argument.withHint (h : Hint) (a : Argument) : Argument := { a with hint := some h }

/-- Arguments by their names, in the order in which the names were put in. -/
abbrev ArgumentTable := List (String × Argument)

namespace ArgumentTable

def put (t : ArgumentTable) (e : String × Argument) : ArgumentTable :=
  if t.any (·.1 = e.1) then t.map fun x => if x.1 = e.1 then e else x else t ++ [e]

def adjust (t : ArgumentTable) (name : String) (change : Argument → Argument) : ArgumentTable :=
  t.map fun x => if x.1 = name then (x.1, change x.2) else x

end ArgumentTable

namespace SignatureParts

variable {α : Type}

/-- The names with arguments of their kinds, and one for the result. Whether a parameter is positional
only is not kept. -/
def entries (parts : SignatureParts α) : List (String × Argument) :=
  parts.positional.map (fun n => (n, { name := some n })) ++ ("return", { name := none }) ::
    (parts.variadic.toList.map (fun n => (n, { name := some n, variadic := true })) ++
      parts.keywordOnly.map (fun n => (n, { name := some n, keywordOnly := true })) ++
      parts.keywordVariadic.toList.map fun n => (n, { name := some n, keywordVariadic := true }))

def table (parts : SignatureParts α) : ArgumentTable := parts.entries.foldl .put []

/-- The defaults with the names of their parameters, counted from the last one. -/
def namedDefaults (parts : SignatureParts α) : List (String × α) :=
  (parts.positional.drop (parts.positional.length - parts.defaults.length)).zip parts.defaults ++
    parts.keywordDefaults

end SignatureParts

namespace Inspection

/-- The hint that an object is: a text is read as one, a class is a type, and anything else is a
value. -/
def hintOfObject (o : Object) : Inspection Hint := do
  let o ← settle o
  match o.text? with
  | some text => hintOfText text.toList
  | none =>
    if o.isClass then return .type (← typeNameOf o) none
    else return .expression (.value (← value o))

def defaultOf (o : Object) : Inspection Value := do value (← settle o)

/-- Reads the objects of a table one after the other, each for the argument of its name. -/
def fill {α : Type} (read : Object → Inspection α) (change : α → Argument → Argument) :
    List (String × Object) → ArgumentTable → Inspection ArgumentTable
  | [], t => return t
  | (name, o) :: es, t => do
    let a ← read o
    fill read change es (t.adjust name (change a))

/-- The function of a signature. Defaults are written first, then the hint of the result, then those
of the parameters. -/
def functionOfSignature (name : String) (doc : Option String) (s : Signature Object) :
    Inspection Function := do
  let t ← fill defaultOf Argument.withDefault s.parts.namedDefaults s.parts.table
  let t ← fill hintOfObject Argument.withHint s.parts.hints t
  return {
    name, doc
    arguments := (t.filter (·.1 ≠ "return")).map (·.2)
    returns := (t.lookup "return").bind (·.hint) }

/-- The function of an object that is called: by its signature if it has one that can be written,
else a function that takes anything. -/
def signedFunction (name : String) (o : Object) : Inspection Function := do
  let generic : Function := { name, arguments := genericArguments, doc := o.doc? }
  match (← world).signature? o with
  | some s =>
    tryCatch (functionOfSignature name o.doc? s) fun failure =>
      if failure.isUnfit then return generic else throw failure
  | none => return generic

/-- The functions of a routine. If it takes anything, its docstring may give the signatures. -/
def functionsOf (path : QualifiedName) (o : Object) : Inspection (List Function) :=
  withLayer path do
    let f ← signedFunction path.last o
    let doc := if f.arguments = genericArguments then o.doc? else none
    match doc with
    | some doc =>
      let fs ← functionsOfLines path.last (textLines doc)
      return if fs.isEmpty then [f] else fs
    | none => return [f]

def methodsOf (path : QualifiedName) (o : Object) : Inspection (List Method) :=
  withLayer path do
    if hiddenMethods.contains path.last then return []
    let fs ← functionsOf path o
    let methods := fs.map fun f =>
      Method.mk (f.withoutSelfHint path.parent) (methodModifier f.arguments)
    return methods.filter fun m =>
      !(m.function.name = "__init__" && m.function.doc = some inheritedInitDoc)

def accessor? : List Function → Inspection (Option Function)
  | [] => return none
  | [f] => return some f.asAccessor
  | _ => throw .manyOverloads

/-- The function of a getter or setter. Its docstring gives the signature without a name or with the
name of the property. -/
def accessorOf (path : QualifiedName) (o : Object) : Inspection (Option Function) := do
  let unnamed ← accessor? (← functionsOf (path.member "") o)
  match unnamed with
  | some f =>
    if f.arguments = genericArguments then accessor? (← functionsOf path o) else return some f
  | none => accessor? (← functionsOf path o)

def accessorOf? (path : QualifiedName) : Option Object → Inspection (Option Function)
  | none => return none
  | some o => accessorOf path o

def propertyDoc (o : Object) (getterObject : Option Object) (getter : Option Function) :
    Option String := do
  let doc ← docOfLines? (textLines (← o.doc?))
  let getterDoc := (getterObject.bind Object.doc?).bind fun s => docOfLines? (textLines s)
  match getter with
  | some g => if g.doc = some doc || getterDoc = some doc then none else return doc
  | none => return doc

def propertyOf (path : QualifiedName) (o : Object) : Inspection (Option Property) := do
  match o with
  | .property getterObject setterObject doc =>
    let getter ← accessorOf? path getterObject
    let setter ← accessorOf? path setterObject
    if getter.isNone && setter.isNone then return none
    return some {
      name := path.last
      doc := propertyDoc (.property getterObject setterObject doc) getterObject getter
      getter := getter.map (·.withoutSelfHint path.parent)
      setter := setter.map (·.withoutSelfHint path.parent) }
  | _ => return none

end Inspection

end TypeStubs
