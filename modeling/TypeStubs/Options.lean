import TypeStubs.Regex
import TypeStubs.Stub.Printer

/-! The options of a run. -/

namespace TypeStubs

inductive ArrayStyle where
  | asWritten
  | annotated
  | typeVariables
  | bare
deriving DecidableEq, Inhabited

/-- What a flag with a value was given. The mark `--` is no value, so a flag with the mark joined to
it was given nothing. -/
inductive Given (α : Type) where
  | value (a : α)
  | nothing
deriving DecidableEq

structure Options where
  moduleName : String := ""
  outputDirectory : Given String := .value "./stubs"
  rootSuffix : Option String := none
  ignoredExpressions : Option Regex := none
  ignoredIdentifiers : Option Regex := none
  ignoredNames : Option Regex := none
  ignoreAll : Bool := false
  enumLocations : List (Regex × String) := []
  arrays : ArrayStyle := .asWritten
  invalidAsIs : Bool := false
  safeValues : Option (Given Regex) := none
  exitCode : Bool := false
  dryRun : Bool := false
  extension : String := "pyi"

def Options.printer (o : Options) : Printer := ⟨!o.invalidAsIs⟩

end TypeStubs
