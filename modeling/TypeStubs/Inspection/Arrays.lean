import TypeStubs.Inspection.Values

/-! Array types: their element types, dimensions and flags. -/

namespace TypeStubs

def denseArray : QualifiedName := ⟨["numpy", "ndarray"]⟩

def elementTypeName : QualifiedName := ⟨["numpy", "dtype"]⟩

def sparseArrays : List QualifiedName :=
  ["bsr", "coo", "csr", "csc", "dia", "dok", "lil"].flatMap fun storage =>
    ["array", "matrix"].map fun kind => ⟨["scipy", "sparse", storage ++ "_" ++ kind]⟩

def numberTypes : List QualifiedName :=
  ["int8", "int16", "int32", "int64", "float16", "float32", "float64", "complex32", "complex64",
   "longcomplex"].map fun t => ⟨["numpy", t]⟩

def QualifiedName.letter? (name : QualifiedName) : Option String :=
  match name.parts with
  | [part] =>
    match part.toList with
    | [c] => some (String.singleton c.toUpper)
    | _ => none
  | _ => none

namespace Hint

def qualifiedFlag : Hint → Hint
  | .type name parameters =>
    .type (if arrayFlags.contains name then ⟨denseArray.parts ++ name.parts⟩ else name) parameters
  | hint => hint

def withQualifiedFlags : Hint → Hint
  | .type name (some parameters) =>
    .type name (some (if name = denseArray then parameters.map qualifiedFlag else parameters))
  | hint => hint

def withoutArrayParameters : Hint → Hint
  | .type name parameters => .type name (if name = denseArray then none else parameters)
  | hint => hint

def withoutSparseParameters : Hint → Hint
  | .type name parameters =>
    .type name (if name.parts.take 2 = ["scipy", "sparse"] then none else parameters)
  | hint => hint

def isBareElementType (name : QualifiedName) (parameters : Option (List Hint)) : Bool :=
  (name.parts.take 1 = ["dtype"] || name.parts.take 2 = elementTypeName.parts) &&
    (parameters.getD []).isEmpty

def dimension? (accepts : String → Bool) : Hint → Option Dimension
  | .expression (.value v) => (readInteger? v.text.toList).map .number
  | .expression (.invalid _) => none
  | .type name parameters =>
    let text := (Hint.type name parameters).display
    if accepts text then some (.named text) else none

def dimensions? (accepts : String → Bool) : List Hint → Option (List Dimension)
  | [] => some []
  | h :: hs => do
    let d ← h.dimension? accepts
    return d :: (← dimensions? accepts hs)

end Hint

namespace Inspection

def wellKnownType (text : String) : Inspection Hint := return .type (← wellKnown text) none

def completeElementType : Hint → Inspection Hint
  | .type name parameters => do
    if Hint.isBareElementType name parameters then
      return .type elementTypeName (some [← wellKnownType "Any"])
    else return .type name parameters
  | hint => return hint

def annotatedSize : Option (List Hint) → Inspection (List Hint)
  | none => return []
  | some parameters =>
    match Hint.dimensions? (fun text => text = "n" || text = "m") parameters with
    | some (d :: ds) => return [.expression (.value (← sizeValue (.ofDimensions (d :: ds))))]
    | _ => return []

def annotatedArray : Hint → Inspection Hint
  | .type name (some (.type element dimensions :: flags)) => do
    if (name = denseArray || sparseArrays.contains name) && numberTypes.contains element then
      let array ← wellKnownType name.text
      let size ← annotatedSize dimensions
      return .type ⟨["Annotated"]⟩ (some ([array, .type element none] ++ size ++ flags))
    else return .type name (some (.type element dimensions :: flags))
  | hint => return hint

def letterVariable (name : QualifiedName) : Inspection QualifiedName :=
  match name.letter? with
  | some letter => do
    addDimension letter
    return ⟨[letter]⟩
  | none => return name

def dimensionType : Dimension → Inspection Hint
  | .number n => do
    return .type (← wellKnown "Literal") (some [.expression (.value ⟨toString n, false⟩)])
  | .named name => return .type (.ofText name) none

def dimensionTypes : List Dimension → Inspection (List Hint)
  | [] => return []
  | d :: ds => do
    let h ← dimensionType d
    return h :: (← dimensionTypes ds)

def shapeType (parameters : Option (List Hint)) : Inspection Hint := do
  let anyShape ← wellKnownType "Any"
  match parameters with
  | some (p :: ps) =>
    match Hint.dimensions? (fun _ => true) (p :: ps) with
    | some dims =>
      let tuple ← wellKnown "Tuple"
      return .type tuple (some (← dimensionTypes dims))
    | none => return anyShape
  | _ => return anyShape

def shapedArray (parameters : Option (List Hint)) : Inspection (Option (List Hint)) := do
  match parameters with
  | some (.type element dimensions :: flags) =>
    if numberTypes.contains element then
      let shape ← shapeType dimensions
      return some [shape, .type elementTypeName (some [.type element none])]
    else return some (.type element dimensions :: flags)
  | some (p :: ps) => return some (p :: ps)
  | _ =>
    let shape ← wellKnownType "Any"
    let element ← wellKnownType "Any"
    return some [shape, .type elementTypeName (some [element])]

/-- Letters become type variables, and dense arrays get a shape and an element type. -/
def variableArray : Hint → Inspection Hint
  | .type name parameters => do
    let name ← letterVariable name
    if name = denseArray then return .type name (← shapedArray parameters)
    else return .type name parameters
  | hint => return hint

def styledArray (hint : Hint) : Inspection Hint := do
  match (← options).arrays with
  | .asWritten => return hint
  | .annotated => annotatedArray hint
  | .typeVariables => variableArray hint
  | .bare => return hint.withoutArrayParameters

def integersOfTexts : List (List Char) → Inspection (List Dimension)
  | [] => return []
  | text :: texts =>
    match readInteger? text with
    | some n => return .number n :: (← integersOfTexts texts)
    | none => throw (.badInteger (String.ofList text))

def fixedSizeText? (text : String) : Option (List Char) :=
  let opening := "FixedSize("
  if hasFront opening text && hasBack ")" text then
    some (text.toList.drop opening.length).dropLast
  else none

def completeFixedSize : Hint → Inspection Hint
  | .expression (.value v) =>
    match fixedSizeText? v.text with
    | none => return .expression (.value v)
    | some inside => do
      let _ ← typeName ⟨some ArraySize.moduleName, "FixedSize"⟩
      let dims ← integersOfTexts (splitAtChar ',' inside)
      return .expression (.value (Value.mk (ArraySize.fixed dims).text false).withoutAddresses)
  | hint => return hint

end Inspection

end TypeStubs
