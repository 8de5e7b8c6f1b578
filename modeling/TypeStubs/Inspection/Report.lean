import TypeStubs.Inspection.Progress
import TypeStubs.Text.EnumText

/-! Which problems are reported, and what a report leaves behind. -/

namespace TypeStubs

/-- The flags of arrays, which are known by these names only inside of array types. -/
def arrayFlags : List QualifiedName :=
  ["writeable", "c_contiguous", "f_contiguous"].map fun f => ⟨["flags", f]⟩

def viewNames : List String := ["ItemsView", "KeysView", "ValuesView"]

def isViewName (name : String) : Bool :=
  hasBack "]" name && viewNames.any fun view => hasFront (view ++ "[") name

def Options.ignores (o : Options) (p : Problem) : Bool :=
  o.ignoreAll ||
    match p with
    | .identifier found _ => o.ignoredIdentifiers.any (·.accepts found)
    | .expression text => o.ignoredExpressions.any (·.accepts text)
    | .name path => o.ignoredNames.any (·.accepts path.text)

def Options.isDimension (o : Options) (dimensions : List String) (path : QualifiedName) : Bool :=
  match o.arrays, path.parts with
  | .annotated, [part] => part = "n" || part = "m"
  | .typeVariables, [part] => dimensions.contains part
  | _, _ => false

def isInternalName (path : QualifiedName) : Bool :=
  arrayFlags.contains path || path.head = "PyCapsule" || path.head = "pybind11_builtins" ||
    path.head = "module"

def Problem.isHarmless (o : Options) (dimensions : List String) : Problem → Bool
  | .identifier found _ => isViewName found
  | .expression _ => false
  | .name path => o.isDimension dimensions path || isInternalName path

def isForeignText (text : String) : Bool :=
  hasBack ">" text || holdsText "::".toList text.toList

namespace Inspection

def noteEnum : Problem → Inspection Unit
  | .expression text =>
    match EnumText.read? text.toList with
    | some e => modify fun p => { p with enums := insertText e.className p.enums }
    | none => return ()
  | _ => return ()

/-- Adds a message about what is being inspected, once. -/
def complain (problem : Problem) : Inspection Unit := do
  match (← get).layers with
  | [] => throw .noLayer
  | top :: rest =>
    let text := "In " ++ top.path.text ++ " : " ++ problem.text
    if !top.reported.contains text then
      say .error text
      modify fun p => { p with layers := { top with reported := top.reported ++ [text] } :: rest }

def noteForeignText : Problem → Inspection Unit
  | .expression text =>
    if isForeignText text then modify fun p => { p with foreignText := true } else return ()
  | _ => return ()

def noteProblem (problem : Problem) : Inspection Unit :=
  modify fun p => { p with found := p.found ++ [problem] }

def report (problem : Problem) : Inspection Unit := do
  noteProblem problem
  let o ← options
  if o.ignores problem then return
  noteEnum problem
  if problem.isHarmless o (← get).dimensions then return
  complain problem
  noteForeignText problem
  if o.exitCode then modify fun p => { p with fatal := true }

def enumWarning (enums : List String) : String :=
  "Enum-like str representations were found with no " ++
  "matching mapping to the enum class location.\n" ++
  "Use `--enum-class-locations` to specify full path to the following enum(s):\n" ++
  joinWith "\n" (sortBy (fun a b => decide (a ≤ b)) (enums.map (" - " ++ ·)))

def foreignTextWarning : String :=
  "Raw C++ types/values were found in signatures extracted from docstrings.\n" ++
  "Please check the corresponding sections of pybind11 documentation " ++
  "to avoid common mistakes in binding code:\n" ++
  " - https://pybind11.readthedocs.io/en/latest/advanced/misc.html" ++
  "#avoiding-cpp-types-in-docstrings\n" ++
  " - https://pybind11.readthedocs.io/en/latest/advanced/functions.html" ++
  "#default-arguments-revisited"

/-- Sums up an inspection. It fails if problems were found and the options ask for it. -/
def finish : Inspection Unit := do
  let p ← get
  if !p.enums.isEmpty then say .warning (enumWarning p.enums)
  if p.foreignText then say .warning foreignTextWarning
  if (← options).exitCode && p.fatal then
    say .info "Terminating due to previous errors"
    throw .terminated

end Inspection

end TypeStubs
