import TypeStubs.Inspection.Problem
import TypeStubs.Options
import TypeStubs.World

/-! An inspection in progress: what is being inspected, and what was found so far. -/

namespace TypeStubs

/-- What becomes of the letters that stand for the sizes of arrays. -/
inductive LetterEvent where
  | found (path : QualifiedName) (letter : String)
  | taken (path : QualifiedName)
deriving DecidableEq

def Inspection.insertText (s : String) (texts : List String) : List String :=
  if s ∈ texts then texts else texts ++ [s]

def LetterEvent.next (letters : List String) : LetterEvent → List String
  | .found _ letter => Inspection.insertText letter letters
  | .taken _ => []

structure Layer where
  path : QualifiedName
  reported : List String := []

structure Progress where
  /-- What is being inspected, innermost first. -/
  layers : List Layer := []
  modulePath : QualifiedName := ⟨[]⟩
  module? : Option Object := none
  class? : Option Object := none
  imports : List Import := []
  /-- The letters that were found and the modules that took them, in order. -/
  letters : List LetterEvent := []
  enums : List String := []
  foreignText : Bool := false
  /-- A problem was found that was not ignored. -/
  fatal : Bool := false
  /-- All problems that were found, also those that need no message, in order. -/
  found : List Problem := []
  log : List Message := []

/-- The letters that no module has taken yet. -/
def Progress.dimensions (p : Progress) : List String := p.letters.foldl LetterEvent.next []

structure Setting where
  options : Options
  world : World

/-- A step of an inspection. What was found before a failure is kept. -/
abbrev Inspection := ReaderT Setting (ExceptT Failure (StateM Progress))

namespace Inspection

def outcome {α : Type} (x : Inspection α) (s : Setting) (p : Progress) :
    Except Failure α × Progress :=
  ((x.run s).run).run p

def ofOutcome {α : Type} (f : Setting → Progress → Except Failure α × Progress) : Inspection α :=
  fun s => ExceptT.mk (StateT.mk (f s))

def options : Inspection Options := return (← read).options

def world : Inspection World := return (← read).world

def settle (o : Object) : Inspection Object := return (← world).settle o

/-- A member that shows an object that is described elsewhere or inside it. -/
def isReference : Object → Bool
  | .ref _ | .wrapped .. => true
  | _ => false

def pushLayer (path : QualifiedName) : Inspection Unit :=
  modify fun p => { p with layers := ⟨path, []⟩ :: p.layers }

def popLayer : Inspection Unit :=
  modify fun p => { p with layers := p.layers.drop 1 }

/-- Inspects something at a path. It is taken away from the top also after a failure. -/
def withLayer {α : Type} (path : QualifiedName) (x : Inspection α) : Inspection α :=
  ofOutcome fun s p =>
    let (r, q) := x.outcome s { p with layers := ⟨path, []⟩ :: p.layers }
    (r, { q with layers := q.layers.drop 1 })

def withClass {α : Type} (c : Object) (x : Inspection α) : Inspection α := do
  let before := (← get).class?
  modify fun p => { p with class? := some c }
  let result ← x
  modify fun p => { p with class? := before }
  return result

def withModule {α : Type} (m : Object) (x : Inspection α) : Inspection (α × List Import) := do
  let before ← get
  modify fun p => { p with module? := some m, imports := [] }
  let result ← x
  let imports := (← get).imports
  modify fun p => { p with module? := before.module?, imports := before.imports }
  return (result, imports)

def withModulePath {α : Type} (path : QualifiedName) (x : Inspection α) : Inspection α := do
  let before := (← get).modulePath
  modify fun p => { p with modulePath := path }
  let result ← x
  modify fun p => { p with modulePath := before }
  return result

def say (level : Level) (text : String) : Inspection Unit :=
  modify fun p => { p with log := p.log ++ [⟨level, text⟩] }

def addImport (i : Import) : Inspection Unit :=
  modify fun p => { p with imports := i.insert p.imports }

def addDimension (name : String) : Inspection Unit :=
  modify fun p => { p with letters := p.letters ++ [.found p.modulePath name] }

/-- The module with a path takes the letters that were found. -/
def takeDimensions (path : QualifiedName) : Inspection Unit :=
  modify fun p => { p with letters := p.letters ++ [.taken path] }

end Inspection

end TypeStubs
