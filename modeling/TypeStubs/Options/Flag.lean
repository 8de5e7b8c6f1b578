import TypeStubs.Options.CommandLine
import TypeStubs.Text.Quoted

/-! The flags of the command line, what each of them says, and what can be wrong with a command
line. -/

namespace TypeStubs

inductive Flag where
  | help
  | outputDirectory
  | rootSuffix
  | ignoreExpressions
  | ignoreIdentifiers
  | ignoreNames
  | ignoreAll
  | enumLocations
  | annotatedArrays
  | typeVariableArrays
  | bareArrays
  | invalidAsIs
  | safeValues
  | exitCode
  | dryRun
  | extension
deriving DecidableEq

inductive OptionError where
  | help
  | ambiguous (text : String) (spellings : List String)
  | valueExpected (flag : Flag)
  | valueIgnored (flag : Flag) (value : String)
  | invalidValue (flag : Flag) (kind value : String)
  | invalidChoice (flag : Flag) (value : String) (choices : List String)
  | tooManyTimes (flag : Flag)
  | conflict (flag other : Flag)
  | moduleMissing
  | unrecognized (texts : List String)
deriving DecidableEq

namespace Flag

def all : List Flag :=
  [help, outputDirectory, rootSuffix, ignoreExpressions, ignoreIdentifiers, ignoreNames, ignoreAll,
    enumLocations, annotatedArrays, typeVariableArrays, bareArrays, invalidAsIs, safeValues,
    exitCode, dryRun, extension]

def spellings : Flag → List String
  | help => ["-h", "--help"]
  | outputDirectory => ["-o", "--output-dir"]
  | rootSuffix => ["--root-suffix"]
  | ignoreExpressions => ["--ignore-invalid-expressions"]
  | ignoreIdentifiers => ["--ignore-invalid-identifiers"]
  | ignoreNames => ["--ignore-unresolved-names"]
  | ignoreAll => ["--ignore-all-errors"]
  | enumLocations => ["--enum-class-locations"]
  | annotatedArrays => ["--numpy-array-wrap-with-annotated"]
  | typeVariableArrays => ["--numpy-array-use-type-var"]
  | bareArrays => ["--numpy-array-remove-parameters"]
  | invalidAsIs => ["--print-invalid-expressions-as-is"]
  | safeValues => ["--print-safe-value-reprs"]
  | exitCode => ["--exit-code"]
  | dryRun => ["--dry-run"]
  | extension => ["--stub-extension"]

def table : List (String × Flag) := all.flatMap fun f => f.spellings.map (·, f)

def takesValue : Flag → Bool
  | outputDirectory | rootSuffix | ignoreExpressions | ignoreIdentifiers | ignoreNames
  | enumLocations | safeValues | extension => true
  | _ => false

def title (f : Flag) : String := joinWith "/" f.spellings

def ofArrayStyle? : ArrayStyle → Option Flag
  | .asWritten => none
  | .annotated => some annotatedArrays
  | .typeVariables => some typeVariableArrays
  | .bare => some bareArrays

def reading {α : Type} (read : String → Except OptionError α) :
    Given String → Except OptionError (Given α)
  | .nothing => return .nothing
  | .value s => return .value (← read s)

def regexValue (f : Flag) (value : String) : Except OptionError Regex :=
  match Regex.read value with
  | .ok r => .ok r
  | .error .malformed => .error (.invalidValue f "regex" value)
  | .error .tooManyTimes => .error (.tooManyTimes f)

/-- The location of enumerations as the value of a flag: a regular expression and the dotted name of
a place, with a colon between them. -/
def locationValue (f : Flag) (value : String) : Except OptionError (Regex × String) :=
  let invalid := OptionError.invalidValue f "regex_colon_path" value
  match splitAtLast? ':' value.toList with
  | none => .error invalid
  | some (source, place) =>
    if (splitAtChar '.' place).all isIdentifierChars then
      match Regex.read (String.ofList source) with
      | .ok r => .ok (r, String.ofList place)
      | .error .malformed => .error invalid
      | .error .tooManyTimes => .error (.tooManyTimes f)
    else .error invalid

def extensionValue (f : Flag) (value : String) : Except OptionError String :=
  if value = "pyi" || value = "py" then .ok value
  else .error (.invalidChoice f value ["pyi", "py"])

def chooseArrays (f : Flag) (style : ArrayStyle) (c : CommandLine) :
    Except OptionError CommandLine :=
  match ofArrayStyle? c.arrays with
  | some other => if other = f then .ok c else .error (.conflict f other)
  | none => .ok { c with arrays := style }

def apply (f : Flag) (given : Given String) (c : CommandLine) : Except OptionError CommandLine :=
  match f with
  | help => .error .help
  | outputDirectory => .ok { c with outputDirectory := given }
  | rootSuffix => .ok { c with rootSuffix := some given }
  | ignoreExpressions => do
    return { c with ignoredExpressions := some (← reading f.regexValue given) }
  | ignoreIdentifiers => do
    return { c with ignoredIdentifiers := some (← reading f.regexValue given) }
  | ignoreNames => do return { c with ignoredNames := some (← reading f.regexValue given) }
  | ignoreAll => .ok { c with ignoreAll := true }
  | enumLocations => do
    return { c with enumLocations := c.enumLocations ++ [← reading f.locationValue given] }
  | annotatedArrays => f.chooseArrays .annotated c
  | typeVariableArrays => f.chooseArrays .typeVariables c
  | bareArrays => f.chooseArrays .bare c
  | invalidAsIs => .ok { c with invalidAsIs := true }
  | safeValues => do return { c with safeValues := some (← reading f.regexValue given) }
  | exitCode => .ok { c with exitCode := true }
  | dryRun => .ok { c with dryRun := true }
  | extension => do return { c with extension := (← reading f.extensionValue given) }

end Flag

namespace OptionError

def explanation : OptionError → String
  | help => ""
  | ambiguous text spellings =>
    "ambiguous option: " ++ text ++ " could match " ++ joinWith ", " spellings
  | valueExpected f => "argument " ++ f.title ++ ": expected one argument"
  | valueIgnored f value =>
    "argument " ++ f.title ++ ": ignored explicit argument " ++ Quoted.text value
  | invalidValue f kind value =>
    "argument " ++ f.title ++ ": invalid " ++ kind ++ " value: " ++ Quoted.text value
  | invalidChoice f value choices =>
    "argument " ++ f.title ++ ": invalid choice: " ++ Quoted.text value ++ " (choose from " ++
      joinWith ", " (choices.map Quoted.text) ++ ")"
  | tooManyTimes f => "argument " ++ f.title ++ ": the repetition number is too large"
  | conflict f other => "argument " ++ f.title ++ ": not allowed with argument " ++ other.title
  | moduleMissing => "the following arguments are required: MODULE_NAME"
  | unrecognized texts => "unrecognized arguments: " ++ joinWith " " texts

/-- What is shown about a rejected command line. It has more lines than one if an argument has. -/
def message (e : OptionError) : String :=
  if e = help then "" else "pybind11-stubgen: error: " ++ e.explanation

end OptionError

end TypeStubs
