import TypeStubs.Inspection.Arrays
import TypeStubs.Signature.HintSyntax
import TypeStubs.Source

/-! Hints and values from their texts. -/

namespace TypeStubs

mutual

def Hint.qualifyTyping : Hint → Hint
  | .type name none => .type (name.qualifyTyping false) none
  | .type name (some ps) => .type (name.qualifyTyping true) (some (Hint.qualifyTypingAll ps))
  | .expression e => .expression e

def Hint.qualifyTypingAll : List Hint → List Hint
  | [] => []
  | h :: hs => h.qualifyTyping :: Hint.qualifyTypingAll hs

end

def Hint.plainCollection : Hint → Hint
  | .type name parameters => .type name.plainCollection parameters
  | hint => hint

/-- The places of enumerations. Of two places for one pattern the later counts, in the place of the
first. -/
def Options.enumPlaces (o : Options) : List (Regex × String) :=
  o.enumLocations.foldl (fun places place =>
    if places.any (·.1.source == place.1.source) then
      places.map fun p => if p.1.source == place.1.source then (p.1, place.2) else p
    else places ++ [place]) []

namespace Inspection

def hintWithoutModule : Hint → Inspection Hint
  | .type name parameters => return .type (← withoutModule name) parameters
  | hint => return hint

def requireHintImport : Hint → Inspection Unit
  | .type name _ => requireImport name
  | _ => return ()

/-- The hint as it stands in the module being inspected, with its import. -/
def refine (hint : Hint) : Inspection Hint := do
  let hint ← hintWithoutModule hint
  let hint ← completeElementType hint.withQualifiedFlags
  let hint ← styledArray hint
  let hint ← completeFixedSize hint
  let hint := hint.withoutSparseParameters.qualifyTyping.plainCollection
  requireHintImport hint
  return hint

def plainExpression (text : List Char) : Inspection Expression := do
  let text := trim text
  let s := String.ofList text
  if Source.isModule text then return .value ⟨s, Source.isLiteral text⟩
  else
    report (.expression s)
    return .invalid s

def markSafe : Expression → Inspection Expression
  | .value v => do
    if v.printSafe then return .value v
    else
      match (← options).safeValues with
      | none => return .value v
      | some .nothing => throw .noPattern
      | some (.value pattern) => return .value { v with printSafe := pattern.accepts v.text }
  | e => return e

def dottedHint (text : List Char) : Inspection Hint := do
  match cutName text with
  | (name, []) => refine (.type (nameOfText name) none)
  | _ => refine (.expression (← markSafe (← plainExpression text)))

def placedEnum? (e : EnumText) : List (Regex × String) → Inspection (Option Value)
  | [] => return none
  | (pattern, place) :: places => do
    if pattern.accepts e.className then
      match ← dottedHint (place ++ "." ++ e.className).toList with
      | .type name _ => return some ⟨name.text ++ "." ++ e.entry, true⟩
      | _ => placedEnum? e places
    else placedEnum? e places

/-- The value or the invalid text that a text is. Values of enumerations are looked for in the
places that the options give. -/
def expressionOfText (text : List Char) : Inspection Expression := do
  let found ← match EnumText.read? (trim text) with
    | some e => placedEnum? e (← options).enumPlaces
    | none => pure none
  match found with
  | some v => markSafe (.value v)
  | none => markSafe (← plainExpression text)

mutual

def hintOfSyntax : HintSyntax → Inspection Hint
  | .malformed text => do
    report (.expression (String.ofList text))
    refine (.expression (.invalid (String.ofList text)))
  | .single t => do refine (← typeOfSyntax t)
  | .union ts => do
    let name ← wellKnown "typing.Union"
    refine (.type name (some (← typesOfSyntax ts)))

def typeOfSyntax : TypeSyntax → Inspection Hint
  | .named name none => return .type name none
  | .named name (some hs) => return .type name (some (← hintsOfSyntax hs))
  | .value text => return .expression (← expressionOfText text)

def typesOfSyntax : List TypeSyntax → Inspection (List Hint)
  | [] => return []
  | t :: ts => do
    let h ← typeOfSyntax t
    return h :: (← typesOfSyntax ts)

def hintsOfSyntax : List HintSyntax → Inspection (List Hint)
  | [] => return []
  | h :: hs => do
    let hint ← hintOfSyntax h
    return hint :: (← hintsOfSyntax hs)

end

def hintOfText (text : List Char) : Inspection Hint := hintOfSyntax (.ofText text)

/-- The hint that the text of a type is, before its name is made fit for the module. -/
def typeOfText (text : List Char) : Inspection Hint := typeOfSyntax (.ofText text)

end Inspection

end TypeStubs
