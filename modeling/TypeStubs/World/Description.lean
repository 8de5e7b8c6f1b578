import TypeStubs.Object.Key
import TypeStubs.World

/-! Descriptions of modules that make a world: every class derives from classes described before it
that fit together, every reference leads to an object, and every key of a dictionary can be one. -/

namespace TypeStubs

inductive WorldError where
  | unknownBase (path : QualifiedName)
  /-- A class derives from objects that are not classes or do not fit together. -/
  | unfitBases (path : QualifiedName)
  | danglingReference (path : QualifiedName)
  | unfitKey
deriving DecidableEq

/-- A class that is described, or another object that is there as early as classes are. -/
inductive Early where
  | classDef (site : QualifiedName) (o : Object)
  | other (site : QualifiedName)

def Early.site : Early → QualifiedName
  | classDef site _ => site
  | other site => site

mutual

def Object.early (site : QualifiedName) : Object → List Early
  | .moduleDef name _ ms => .other (.ofText name) :: Object.earlyAmong (.ofText name) ms
  | .classDef identity metatype bases ms =>
    .classDef site (.classDef identity metatype bases ms) :: Object.earlyAmong site ms
  | .routine .. => [.other site]
  | .wrapped .. => [.other site]
  | _ => []

def Object.earlyAmong (site : QualifiedName) : List (String × Object) → List Early
  | [] => []
  | (name, o) :: ms => o.early (site.member name) ++ Object.earlyAmong site ms

end

inductive Need where
  | target (path : QualifiedName)
  | key (o : Object)

mutual

def Object.needs : Object → List Need
  | .ref path => [.target path]
  | .list xs => Object.needsOf xs
  | .tuple xs => Object.needsOf xs
  | .set xs => Object.needsOf xs ++ xs.map .key
  | .dict es => Object.needsOfEntries es
  | .routine _ _ (some s) => Object.needsOfParameters s.parameters ++ Object.needsOf? s.returns
  | .property getter setter _ => Object.needsOf? getter ++ Object.needsOf? setter
  | .wrapped _ o => o.needs
  | .moduleDef _ _ ms => Object.needsAmong ms
  | .classDef _ _ _ ms => Object.needsAmong ms
  | _ => []

def Object.needsOf : List Object → List Need
  | [] => []
  | o :: os => o.needs ++ Object.needsOf os

def Object.needsOf? : Option Object → List Need
  | Option.none => []
  | some o => o.needs

def Object.needsOfEntries : List (Object × Object) → List Need
  | [] => []
  | (k, v) :: es => k.needs ++ v.needs ++ .key k :: Object.needsOfEntries es

def Object.needsAmong : List (String × Object) → List Need
  | [] => []
  | (_, o) :: ms => o.needs ++ Object.needsAmong ms

def Object.needsOfParameters : List (Parameter Object) → List Need
  | [] => []
  | ⟨_, _, default, hint⟩ :: ps =>
    Object.needsOf? default ++ Object.needsOf? hint ++ Object.needsOfParameters ps

end

mutual

/-- The object without what is filled in after all classes are made. -/
def Object.skeleton : Object → Object
  | .moduleDef name doc ms => .moduleDef name doc (Object.skeletons ms)
  | .classDef identity metatype bases ms => .classDef identity metatype bases (Object.skeletons ms)
  | o => o

def Object.skeletons : List (String × Object) → List (String × Object)
  | [] => []
  | (name, o) :: ms =>
    if isLate o then Object.skeletons ms else (name, o.skeleton) :: Object.skeletons ms
where
  isLate : Object → Bool
    | .moduleDef .. | .classDef .. | .routine .. | .wrapped .. => false
    | _ => true

end

namespace World

/-- The class of the language that the instances of a class are laid out as. -/
def layout? (w : World) (c : Located) : Option Located := do
  (c :: (← w.ancestorsAt? w.reach c.object.basePaths)).find? fun l =>
    l.site.parent.text = Builtins.moduleName && Builtins.laidOut.contains l.site.last

def derives (w : World) (c base : Located) : Bool :=
  c.site = base.site ||
    (w.ancestorsAt? w.reach c.object.basePaths).any (·.any (·.site = base.site))

/-- A class can derive from all these at once: they are classes that can be extended, they have a
common order, and of two layouts one extends the other. -/
def basesFit (w : World) (bases : List Located) : Bool :=
  let layouts := bases.filterMap w.layout?
  (w.ancestorsAt? w.reach (bases.map (·.site))).isSome &&
    bases.all (fun b => !(b.site.parent.text = Builtins.moduleName &&
      Builtins.finalClasses.contains b.site.last)) &&
    layouts.all fun a => layouts.all fun b => w.derives a b || w.derives b a

/-- Checks the classes among some objects, in order. A base must be one of the known objects, or
stand in a module that is always there. -/
def checkBases (w : World) (known : List QualifiedName) : List Early → Except WorldError Unit
  | [] => .ok ()
  | .other site :: rest => w.checkBases (site :: known) rest
  | .classDef site o :: rest => do
    let bases ← o.basePaths.mapM fun path =>
      match w.objectAt? w.reach path with
      | some b =>
        if known.contains b.site || ((ofModules []).object? path).isSome then .ok b
        else .error (.unknownBase path)
      | none => .error (.unknownBase path)
    if !w.basesFit bases then throw (.unfitBases site)
    w.checkBases (site :: known) rest

def checkNeeds (w : World) : List Need → Except WorldError Unit
  | [] => .ok ()
  | .target path :: needs =>
    if (w.object? path).isNone then .error (.danglingReference path) else w.checkNeeds needs
  | .key o :: needs => if (w.settle o).isKey then w.checkNeeds needs else .error .unfitKey

def ofDescription (described : List Object) : Except WorldError World := do
  let early := described.flatMap (Object.early ⟨[]⟩)
  (ofModules (described.map Object.skeleton)).checkBases [] early
  let w := ofModules described
  w.checkNeeds (described.flatMap Object.needs)
  return w

def place (w : World) (o : Object) : Except WorldError Object := do
  let known := (w.modules.flatMap fun m => m.2.early ⟨[]⟩).map Early.site
  w.checkBases known (o.early ⟨[]⟩)
  w.checkNeeds o.needs
  return w.settle o

end World

end TypeStubs
