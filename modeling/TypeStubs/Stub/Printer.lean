import TypeStubs.Sorting
import TypeStubs.Stub.Display

/-! The text of a stub. A printer turns every part of a stub into lines; members of one kind come
in the order of their names. -/

namespace TypeStubs

/-- How texts that are no expressions are written: as an ellipsis or as they are. -/
structure Printer where
  ellipses : Bool := true

inductive PrintError where
  | unplacedModifier
  | unknownModifier
deriving DecidableEq

def indentLines (lines : List String) : List String := lines.map ("    " ++ ·)

/-- Orders a list by a text of each element. Elements with equal texts keep their order. -/
def sortByName (name : α → String) (xs : List α) : List α :=
  sortBy (fun a b => decide (name a ≤ name b)) xs

/-- Writes a backslash before each quote of every run of three double quotes. -/
def escapeTripleQuotes : List Char → List Char
  | '"' :: '"' :: '"' :: cs => '\\' :: '"' :: '\\' :: '"' :: '\\' :: '"' :: escapeTripleQuotes cs
  | c :: cs => c :: escapeTripleQuotes cs
  | [] => []

def Modifier.rank? : Modifier → Option Nat
  | .static => some 0
  | .classwide => some 1
  | .plain => some 2
  | .other _ => none

def sortMembers (modifier : α → Modifier) (name : α → String) (xs : List α) :
    Except PrintError (List α) := do
  let ranked ← xs.mapM fun x =>
    match (modifier x).rank? with
    | some r => .ok (r, x)
    | none => .error .unplacedModifier
  let sorted := sortBy (fun a b => a.1 < b.1 || (a.1 == b.1 && decide (name a.2 ≤ name b.2))) ranked
  return sorted.map (·.2)

namespace Printer

def value (_ : Printer) (v : Value) : String :=
  match splitAtChar '\n' v.text.toList with
  | [] => ""
  | [line] => String.ofList line
  | line :: _ => String.ofList line ++ "..."

def invalid (p : Printer) (text : String) : String := if p.ellipses then "..." else text

def expression (p : Printer) : Expression → String
  | .value v => p.value v
  | .invalid text => p.invalid text

mutual

def hint (p : Printer) : Hint → String
  | .expression e => p.expression e
  | .type name none => name.text
  | .type name (some ps) =>
    let texts := p.hints ps
    if name.text == "typing.Optional" && texts.length == 1 then joinWith "" texts ++ " | None"
    else if name.text == "typing.Union" then joinWith " | " texts
    else if texts.isEmpty then name.text
    else name.text ++ "[" ++ joinWith ", " texts ++ "]"

def hints (p : Printer) : List Hint → List String
  | [] => []
  | a :: as => p.hint a :: p.hints as

end

def aliasLine (_ : Printer) (a : Alias) : String := a.name ++ " = " ++ a.origin.text

def attributeLine (p : Printer) (a : Attribute) : String :=
  let typed := match a.hint with | none => a.name | some t => a.name ++ ": " ++ p.hint t
  let dots := match a.hint with | none => " = ..." | some _ => ""
  match a.value with
  | none => typed ++ dots
  | some v =>
    if v.printSafe then typed ++ " = " ++ p.value v
    else typed ++ dots ++ "  # value = " ++ p.value v

def argument (p : Printer) (a : Argument) : String :=
  a.stars ++ a.displayName ++
    (match a.hint with | none => "" | some t => ": " ++ p.hint t) ++
    (match a.default with
      | none => ""
      | some (.value v) => if v.printSafe then " = " ++ p.value v else " = ..."
      | some (.invalid text) => " = " ++ p.invalid text)

/-- The parameters with the marks between them: a slash after the last position-only parameter
and a star before the first keyword-only one. The flags say that the slash, respectively the
star, is no longer due. -/
def markedArguments (p : Printer) : Bool → Bool → List Argument → List String
  | _, _, [] => []
  | slashDone, starDone, a :: as =>
    let slashDone := slashDone || a.variadic
    let starDone := starDone || a.variadic
    let slash := !slashDone && !a.positionOnly
    let star := !starDone && a.keywordOnly
    (if slash then ["/"] else []) ++ (if star then ["*"] else []) ++
      p.argument a :: p.markedArguments (slashDone || slash) (starDone || star) as

/-- The texts between the parentheses of a signature. A slash with nothing before it is left
out. -/
def parameters (p : Printer) (arguments : List Argument) : List String :=
  match p.markedArguments false false arguments with
  | "/" :: rest => rest
  | texts => texts

def docstringLines (_ : Printer) (doc : String) : List String :=
  "\"\"\"" :: (splitLines doc.toList).map (fun l => String.ofList (escapeTripleQuotes l)) ++
    ["\"\"\""]

def optionalDocstring (p : Printer) (doc : Option String) : List String :=
  match doc with
  | none => []
  | some d => p.docstringLines d

def functionLines (p : Printer) (f : Function) : List String :=
  let returns := match f.returns with | none => "" | some t => " -> " ++ p.hint t
  f.decorators.map ("@" ++ ·) ++
    ["def " ++ f.name ++ "(" ++ joinWith ", " (p.parameters f.arguments) ++ ")" ++ returns ++
      ":"] ++
    indentLines (match f.doc with | none => ["..."] | some doc => p.docstringLines doc)

def methodLines (p : Printer) (m : Method) : Except PrintError (List String) :=
  match m.modifier with
  | .static => .ok ("@staticmethod" :: p.functionLines m.function)
  | .classwide => .ok ("@classmethod" :: p.functionLines m.function)
  | .plain => .ok (p.functionLines m.function)
  | .other _ => .error .unknownModifier

/-- A property by its accessors. The docstring of the property replaces those of the accessors.
Without a getter there is nothing to write. -/
def propertyLines (p : Printer) (x : Property) : List String :=
  match x.getter with
  | none => []
  | some getter =>
    "@property" :: p.functionLines { getter with name := x.name, doc := x.doc <|> getter.doc } ++
      match x.setter with
      | none => []
      | some setter =>
        ("@" ++ x.name ++ ".setter") :: p.functionLines
          { setter with name := x.name, doc := if x.doc.isSome then none else setter.doc }

def importLine (_ : Printer) (i : Import) : String :=
  match i.name with
  | none => "import " ++ i.origin.text
  | some name =>
    let parent := i.origin.parent.text
    if parent.isEmpty then "import " ++ i.origin.text ++ " as " ++ name
    else
      "from " ++ parent ++ " import " ++ i.origin.last ++
        if name = i.origin.last then "" else " as " ++ name

def subModuleLine (_ : Printer) (name : String) : String := "from . import " ++ name

mutual

def classBody (p : Printer) : Class → Except PrintError (List String)
  | ⟨_, doc, _, classes, fields, methods, properties, aliases⟩ => do
    let nested ← p.namedClasses classes
    let fields ← sortMembers (·.modifier) (·.attr.name) fields
    let methods ← sortMembers (·.modifier) (·.function.name) methods
    let methodLines ← methods.mapM p.methodLines
    let lines := p.optionalDocstring doc ++ (sortByName (·.1) nested).flatMap (·.2) ++
      fields.map (fun f => p.attributeLine f.attr) ++
      (sortByName (·.name) aliases).map p.aliasLine ++ methodLines.flatten ++
      (sortByName (·.name) properties).flatMap p.propertyLines
    return if lines.isEmpty then ["pass"] else lines

def namedClasses (p : Printer) : List Class → Except PrintError (List (String × List String))
  | [] => .ok []
  | c :: cs => do
    let body ← p.classBody c
    let bases := if c.bases.isEmpty then "" else "(" ++ joinWith ", " (c.bases.map (·.text)) ++ ")"
    let rest ← p.namedClasses cs
    return (c.name, ("class " ++ c.name ++ bases ++ ":") :: indentLines body) :: rest

end

def classLines (p : Printer) (c : Class) : Except PrintError (List String) :=
  (p.namedClasses [c]).map (·.flatMap (·.2))

def moduleLines (p : Printer) (m : Module) : Except PrintError (List String) := do
  let attributes := sortByName (·.name) m.attributes
  let classes ← p.namedClasses m.classes
  return p.optionalDocstring m.doc ++ (sortBy Import.le m.imports).map p.importLine ++
    m.subModules.map (p.subModuleLine ·.name) ++
    ((attributes.find? (·.name == "__all__")).map p.attributeLine).toList ++
    (sortByName (·.name) m.typeVariables).map (·.display) ++
    (sortByName (·.1) classes).flatMap (·.2) ++
    (sortByName (·.name) m.functions).flatMap p.functionLines ++
    (attributes.filter (·.name != "__all__")).map p.attributeLine ++
    m.aliases.map p.aliasLine

end Printer

end TypeStubs
