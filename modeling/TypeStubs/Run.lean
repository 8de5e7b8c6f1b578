import TypeStubs.Inspection.Members
import TypeStubs.Options.CommandLine
import TypeStubs.Stub.Layout

/-! A whole run: a module is inspected, and its stub is written. -/

namespace TypeStubs

inductive RunError where
  | setup (e : SetupError)
  | inspection (f : Failure)
  | writing (e : WriteError)
deriving DecidableEq

structure Run where
  tree : FileTree := {}
  log : List Message := []
  error? : Option RunError := none

namespace Inspection

def importModule (name : String) : Inspection Object := do
  match ← findModule? ⟨[name]⟩ with
  | some m => return m
  | none => throw (.moduleNotFound name)

def whole (name : String) : Inspection Module := do
  let m ← moduleOf (.ofText name) (← importModule name)
  finish
  return m

end Inspection

def Options.write (o : Options) (outputDirectory : String) (m : Module) : Writing Unit := do
  let destination := Destination.ofModule outputDirectory o.moduleName o.rootSuffix
  Writing.makeDirectories destination.directory
  m.write o.printer o.extension destination.directory destination.package

/-- Inspects the module that the options name, and writes its stub below a directory unless they ask
for none. -/
def Options.runInto (o : Options) (outputDirectory : String) (w : World) : Run :=
  match (Inspection.whole o.moduleName).outcome ⟨o, w⟩ {} with
  | (.error f, p) => { log := p.log, error? := some (.inspection f) }
  | (.ok m, p) =>
    if o.dryRun then { log := p.log }
    else
      match (o.write outputDirectory m).run.run {} with
      | (.ok _, tree) => { tree, log := p.log }
      | (.error e, tree) => { tree, log := p.log, error? := some (.writing e) }

/-- The run that the options ask for. Without a directory for the stubs nothing is inspected. -/
def Options.run (o : Options) (w : World) : Run :=
  match o.outputDirectory with
  | .value directory => o.runInto directory w
  | .nothing => { error? := some (.setup .noDirectory) }

def CommandLine.run (c : CommandLine) (w : World) : Run :=
  match c.options with
  | .ok o => o.run w
  | .error e => { error? := some (.setup e) }

end TypeStubs
