import TypeStubs.ArraySize
import TypeStubs.Object.Identity
import TypeStubs.World.Builtins
import TypeStubs.World.Implicit

/-! Everything that can be imported, and what stands at a path. -/

namespace TypeStubs

mutual

/-- The modules that an object is or holds, each under its own name. -/
def Object.modules : Object → List (String × Object)
  | .moduleDef name doc ms => (name, .moduleDef name doc ms) :: Object.modulesAmong ms
  | .classDef _ _ _ ms => Object.modulesAmong ms
  | _ => []

def Object.modulesAmong : List (String × Object) → List (String × Object)
  | [] => []
  | (_, o) :: ms => o.modules ++ Object.modulesAmong ms

end

theorem Object.modules_eq_singleton {o : Object} (ho : o.isModule = true) {name : String}
    (hn : o.name? = some name) (h : (Object.modulesAmong o.members).isEmpty = true) :
    o.modules = [(name, o)] := by
  cases o with
  | moduleDef own doc ms =>
    cases hn
    rw [Object.modules]
    exact congrArg _ (List.isEmpty_iff.mp h)
  | _ => cases ho

mutual

def Object.weight : Object → Nat
  | .list xs => 1 + Object.weightItems xs
  | .tuple xs => 1 + Object.weightItems xs
  | .set xs => 1 + Object.weightItems xs
  | .dict es => 1 + Object.weightEntries es
  | .wrapped _ o => 1 + o.weight
  | .bound _ o => 1 + o.weight
  | .moduleDef _ _ ms => 1 + Object.weightMembers ms
  | .classDef _ _ bases ms => 1 + bases.length + Object.weightMembers ms
  | _ => 1

def Object.weightItems : List Object → Nat
  | [] => 0
  | o :: os => o.weight + Object.weightItems os

def Object.weightEntries : List (Object × Object) → Nat
  | [] => 0
  | (k, v) :: es => k.weight + v.weight + Object.weightEntries es

def Object.weightMembers : List (String × Object) → Nat
  | [] => 0
  | (_, o) :: ms => o.weight + Object.weightMembers ms

end

def Object.ofText? (text : Option String) : Object := (text.map .str).getD .none

def Object.implicitNames : Object → List String
  | .classDef .. => Implicit.ofObjects ++ Implicit.ofClasses
  | .moduleDef .. => Implicit.ofObjects ++ Implicit.ofModules
  | .value type base _ =>
    Implicit.ofObjects ++ Builtins.ownMembers base.name ++
      if type.module? = some Builtins.moduleName then [] else Implicit.ofInstances
  | .descriptor identity reads writes =>
    Implicit.ofObjects ++ Implicit.ofInstances ++ identity.names ++
      (if reads then ["__get__"] else []) ++ (if writes then ["__set__"] else [])
  | .special _ => Implicit.ofObjects ++ Implicit.ofInstances
  | .wrapped wrapping inner =>
    Implicit.ofObjects ++ Builtins.ownMembers wrapping.name ++ "__dict__" ::
      inner.implicitNames.filter (["__module__", "__name__", "__qualname__"].contains ·)
  | .bool _ => Implicit.ofObjects ++ Builtins.ownMembers "bool" ++ Builtins.ownMembers "int"
  | .bound _ inner => Builtins.ownMembers "method" ++ inner.implicitNames
  | o => Implicit.ofObjects ++ Builtins.ownMembers o.typeName.qualified

/-- The value of an attribute that an object has without being given it. Of most of them only the
name is known. -/
def Object.implicitValue (o : Object) : String → Object
  | "__name__" => .ofText? o.name?
  | "__qualname__" => .ofText? o.qualified?
  | "__module__" => .ofText? o.moduleName?
  | "__doc__" => .ofText? o.doc?
  | _ => .value (.builtin "object") .object ""

def Object.implicit? (o : Object) (name : String) : Option Object :=
  if name ∈ o.implicitNames then some (o.implicitValue name) else Option.none

/-- A member that the object has itself. Every class has its documentation and the name of its
module among its members. -/
def Object.ownMember? (o : Object) (name : String) : Option Object :=
  (o.members.lookup name).or <|
    if o.isClass && (name = "__doc__" || name = "__module__") then some (o.implicitValue name)
    else Option.none

def rootClass : QualifiedName := ⟨[Builtins.moduleName, "object"]⟩

def Object.basePaths : Object → List QualifiedName
  | .classDef identity _ bases _ =>
    if bases.isEmpty &&
        !(identity.module? = some Builtins.moduleName && identity.qualified? = some "object") then
      [rootClass]
    else bases
  | _ => []

structure Located where
  site : QualifiedName
  object : Object

def Located.ownMember? (l : Located) (name : String) : Option Located :=
  (l.object.ownMember? name).map (⟨l.site.member name, ·⟩)

/-- Merges orders of classes into one that keeps each of them. Of the classes that come next the
first is taken that no order wants later. The number bounds the classes. -/
def mergeOrders : Nat → List (List Located) → Option (List Located)
  | 0, orders => if orders.all List.isEmpty then some [] else none
  | n + 1, orders => do
    if orders.all List.isEmpty then return []
    let isLater (c : Located) : Bool := orders.any fun order => order.tail.any (·.site = c.site)
    let next ← (orders.filterMap List.head?).find? fun c => !isLater c
    let rest ← mergeOrders n (orders.map fun order =>
      if order.head?.any (·.site = next.site) then order.tail else order)
    return next :: rest

structure World where
  modules : List (String × Object)
  /-- A bound on the steps from reference to reference. -/
  reach : Nat

namespace World

def sizesModule : Object :=
  .moduleDef ArraySize.moduleName none <|
    ["FixedSize", "DynamicSize"].map fun n =>
      (n, .classDef ⟨some n, some n, some ArraySize.moduleName, none⟩ (.builtin "type") [] [])

def standard : List (String × Object) :=
  [Builtins.asModule, Typing.asModule, sizesModule].flatMap Object.modules

def ofModules (described : List Object) : World :=
  ⟨(described.flatMap Object.modules).reverse ++ standard,
    2 * described.foldl (fun n o => n + o.weight) 0 + 512⟩

theorem standard_eq : standard = [("builtins", Builtins.asModule), ("typing", Typing.asModule),
    (ArraySize.moduleName, sizesModule)] := by
  have builtins := Object.modules_eq_singleton (o := Builtins.asModule) rfl rfl (by decide +kernel)
  have typing := Object.modules_eq_singleton (o := Typing.asModule) rfl rfl (by decide +kernel)
  have sizes := Object.modules_eq_singleton (o := sizesModule) rfl rfl (by decide +kernel)
  simp only [standard, List.flatMap_cons, List.flatMap_nil, builtins, typing, sizes]
  rfl

-- Worlds are evaluated in this form: the search for modules among all builtins is done once, above.
theorem ofModules_eq (described : List Object) : ofModules described =
    ⟨(described.flatMap Object.modules).reverse ++ [("builtins", Builtins.asModule),
      ("typing", Typing.asModule), (ArraySize.moduleName, sizesModule)],
      2 * described.foldl (fun n o => n + o.weight) 0 + 512⟩ := by
  rw [ofModules, standard_eq]

def module? (w : World) (name : String) : Option Object := w.modules.lookup name

def moduleOfPath? (w : World) (path : QualifiedName) : Option (Located × List String) :=
  (path :: path.parents).findSome? fun base =>
    (w.module? base.text).map (⟨base, ·⟩, path.parts.drop base.length)

mutual

/-- The object itself, or the one that it refers to. The parts of a property and the inside of a
wrapped object are followed too. -/
def followAt? (w : World) : Nat → Located → Option Located
  | 0, _ => none
  | n + 1, ⟨site, o⟩ =>
    match o with
    | .ref path => w.objectAt? n path
    | .wrapped wrapping inner => do
      let inner ← w.followAt? n ⟨site, inner⟩
      return ⟨site, .wrapped wrapping inner.object⟩
    | .property getter setter doc => do
      let part : Option Object → Option (Option Object)
        | none => some none
        | some o => (w.followAt? n ⟨site, o⟩).map (some ·.object)
      return ⟨site, .property (← part getter) (← part setter) doc⟩
    | o => some ⟨site, o⟩

def ancestorsAt? (w : World) : Nat → List QualifiedName → Option (List Located)
  | 0, _ => none
  | n + 1, bases => do
    let direct ← bases.mapM fun b => w.objectAt? n b
    let orders ← direct.mapM fun b =>
      if b.object.isClass then (w.ancestorsAt? n b.object.basePaths).map (b :: ·) else none
    mergeOrders (orders.flatten.length + direct.length) (orders ++ [direct])

/-- The member of a class or module with a name. A class has the members of the classes that it
extends too, and a member is read from the class that is asked. -/
def memberAt? (w : World) : Nat → Located → String → Option Located
  | 0, _, _ => none
  | n + 1, owner, name => do
    let own := owner.ownMember? name
    if owner.object.isClass then
      let member ← match own with
        | some member => some member
        | none => (← w.ancestorsAt? n owner.object.basePaths).findSome? (·.ownMember? name)
      let member ← w.followAt? n member
      return { member with object := member.object.readFrom owner.object }
    else w.followAt? n (← own)

/-- The object at a path: the longest module name, then attributes. -/
def objectAt? (w : World) : Nat → QualifiedName → Option Located
  | 0, _ => none
  | n + 1, path => do
    let (start, rest) ← w.moduleOfPath? path
    rest.foldlM (fun owner name =>
      match w.memberAt? n owner name with
      | some member => some member
      | none => (owner.object.implicit? name).map (⟨owner.site.member name, ·⟩)) start

end

def object? (w : World) (path : QualifiedName) : Option Object :=
  (w.objectAt? w.reach path).map (·.object)

def settle? (w : World) (o : Object) : Option Object :=
  (w.followAt? w.reach ⟨⟨[]⟩, o⟩).map (·.object)

def settle (w : World) (o : Object) : Object := (w.settle? o).getD .none

def member? (w : World) (o : Object) (name : String) : Option Object :=
  (w.memberAt? w.reach ⟨⟨[]⟩, o⟩ name).map (·.object)

def attribute? (w : World) (o : Object) (name : String) : Option Object :=
  (w.member? o name).or (o.implicit? name)

def has (w : World) (o : Object) (name : String) : Bool := (w.attribute? o name).isSome

def reaches (w : World) (o : Object) (path : List String) : Bool :=
  (path.foldlM (fun o name => w.attribute? o name) o).isSome

/-- A routine that a class defines for its own calls. Native ones do not count. -/
def callee? (w : World) (o : Object) (name : String) : Option Object :=
  (w.member? o name).filter fun member =>
    match member with
    | .routine .native _ _ => false
    | _ => true

/-- The signature of calls of a class that defines no routine for them: that of the class of the
language that it extends, or no parameters if it extends none. -/
def inheritedSignature? (w : World) (o : Object) : Option (Signature Object) := do
  let classes := o :: (← w.ancestorsAt? w.reach o.basePaths).map (·.object)
  let builtins := classes.filter fun c => c.moduleName? = some Builtins.moduleName
  match builtins.findSome? fun c => Builtins.classSignatures.lookup (c.name?.getD "") with
  | some parameters =>
    if parameters.isEmpty && (builtins.length != 1 || (w.member? o "__new__").isSome ||
        (w.member? o "__init__").isSome) then none
    else some ⟨parameters, none⟩
  | none => none

/-- The signature of calls of an object, if it is known. A class is called as its own maker or
initializer, in this order, or as an inherited one. -/
def signature? (w : World) : Object → Option (Signature Object)
  | .routine _ _ signature => signature
  | .bound _ inner => w.signature? inner
  | .classDef identity metatype bases ms =>
    let o := Object.classDef identity metatype bases ms
    let callee :=
      if (o.ownMember? "__new__").isSome then w.callee? o "__new__"
      else if (o.ownMember? "__init__").isSome then w.callee? o "__init__"
      else (w.callee? o "__new__").or (w.callee? o "__init__")
    match callee with
    | some (.routine _ _ signature) => signature
    | some (.bound _ (.routine _ _ signature)) => signature
    | some _ => none
    | none => w.inheritedSignature? o
  | _ => none

end World

end TypeStubs
