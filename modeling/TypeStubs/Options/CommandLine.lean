import TypeStubs.Options

/-! What a command line says, and the options that it makes. A flag that was given nothing is
accepted on the command line; what it stands for is settled here. -/

namespace TypeStubs

structure CommandLine where
  moduleName : String := ""
  outputDirectory : Given String := .value "./stubs"
  rootSuffix : Option (Given String) := none
  ignoredExpressions : Option (Given Regex) := none
  ignoredIdentifiers : Option (Given Regex) := none
  ignoredNames : Option (Given Regex) := none
  ignoreAll : Bool := false
  enumLocations : List (Given (Regex × String)) := []
  arrays : ArrayStyle := .asWritten
  invalidAsIs : Bool := false
  safeValues : Option (Given Regex) := none
  exitCode : Bool := false
  dryRun : Bool := false
  extension : Given String := .value "pyi"

inductive SetupError where
  /-- Nothing was given as the location of an enumeration, which is the one at this position. -/
  | noLocation (position : Nat)
  | noPattern
  | noDirectory
deriving DecidableEq

def SetupError.message : SetupError → String
  | noLocation position =>
    "dictionary update sequence element #" ++ toString position ++ " has length 0; 2 is required"
  | _ => ""

/-- The text in the name of a file. Nothing is written as the empty list. -/
def Given.fileText : Given String → String
  | value s => s
  | nothing => "[]"

namespace CommandLine

def locationsFrom (position : Nat) :
    List (Given (Regex × String)) → Except SetupError (List (Regex × String))
  | [] => return []
  | .nothing :: _ => throw (.noLocation position)
  | .value l :: ls => return l :: (← locationsFrom (position + 1) ls)

def ignored : Option (Given Regex) → Except SetupError (Option Regex)
  | none => return none
  | some (.value r) => return some r
  | some .nothing => throw .noPattern

def options (c : CommandLine) : Except SetupError Options := do
  let enumLocations ← locationsFrom 0 c.enumLocations
  let ignoredIdentifiers ← ignored c.ignoredIdentifiers
  let ignoredExpressions ← ignored c.ignoredExpressions
  let ignoredNames ← ignored c.ignoredNames
  return {
    moduleName := c.moduleName
    outputDirectory := c.outputDirectory
    rootSuffix := c.rootSuffix.map Given.fileText
    ignoredExpressions, ignoredIdentifiers, ignoredNames
    ignoreAll := c.ignoreAll
    enumLocations
    arrays := c.arrays
    invalidAsIs := c.invalidAsIs
    safeValues := c.safeValues
    exitCode := c.exitCode
    dryRun := c.dryRun
    extension := c.extension.fileText }

end CommandLine

end TypeStubs
