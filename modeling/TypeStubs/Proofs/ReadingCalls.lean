import TypeStubs.Proofs.PlacedHints

/-! The functions that read texts call each other again with texts, and some of these texts are no
parts of the text that is read: the words that every stub may use, the name of an array, and a place
of an enumeration with a name behind it. Here are the functions with all these calls left open. -/

namespace TypeStubs.Inspection

open List

/-- A call of a function that reads texts, or of one that such functions call. -/
inductive Call where
  | hint (text : List Char)
  | type (text : List Char)
  | expression (text : List Char)
  | arguments (text : List Char)
  | typeName (type : TypeName)
  | size (size : ArraySize)

abbrev Call.Answer : Call → Type
  | .hint _ => Hint
  | .type _ => Hint
  | .expression _ => Expression
  | .arguments _ => List Argument
  | .typeName _ => QualifiedName
  | .size _ => Value

abbrev Answers := (c : Call) → Inspection c.Answer

/-- The answers of the functions that are inspected with. -/
def answers : Answers
  | .hint text => hintOfText text
  | .type text => typeOfText text
  | .expression text => expressionOfText text
  | .arguments text => argumentsOfText text
  | .typeName type => typeName type
  | .size size => pure (Value.mk size.text false).withoutAddresses

namespace Answers

variable (r : Answers)

def hint (text : String) : Inspection Hint := r (.hint text.toList)

/-- The name of the type that a word is. -/
def name (text : String) : Inspection QualifiedName := do
  match ← r.hint text with
  | .type name _ => return name
  | .expression _ => throw .missingAttribute

def sizeValue (size : ArraySize) : Inspection Value := do
  let _ ← r (.typeName ⟨some ArraySize.moduleName, size.className⟩)
  r (.size size)

/-! The rules for single types. -/

def completeElementType : Hint → Inspection Hint
  | .type name parameters => do
    if Hint.isBareElementType name parameters then
      return .type elementTypeName (some [← r.hint "Any"])
    else return .type name parameters
  | hint => return hint

def annotatedSize : Option (List Hint) → Inspection (List Hint)
  | none => return []
  | some parameters =>
    match Hint.dimensions? (fun text => text = "n" || text = "m") parameters with
    | some (d :: ds) => return [.expression (.value (← r.sizeValue (.ofDimensions (d :: ds))))]
    | _ => return []

def annotatedArray : Hint → Inspection Hint
  | .type name (some (.type element dimensions :: flags)) => do
    if (name = denseArray || sparseArrays.contains name) && numberTypes.contains element then
      let array ← r.hint name.text
      let size ← r.annotatedSize dimensions
      return .type ⟨["Annotated"]⟩ (some ([array, .type element none] ++ size ++ flags))
    else return .type name (some (.type element dimensions :: flags))
  | hint => return hint

def dimensionType : Dimension → Inspection Hint
  | .number n => do
    return .type (← r.name "Literal") (some [.expression (.value ⟨toString n, false⟩)])
  | .named name => return .type (.ofText name) none

def dimensionTypes : List Dimension → Inspection (List Hint)
  | [] => return []
  | d :: ds => do
    let h ← r.dimensionType d
    return h :: (← dimensionTypes ds)

def shapeType (parameters : Option (List Hint)) : Inspection Hint := do
  let anyShape ← r.hint "Any"
  match parameters with
  | some (p :: ps) =>
    match Hint.dimensions? (fun _ => true) (p :: ps) with
    | some dims =>
      let tuple ← r.name "Tuple"
      return .type tuple (some (← r.dimensionTypes dims))
    | none => return anyShape
  | _ => return anyShape

def shapedArray (parameters : Option (List Hint)) : Inspection (Option (List Hint)) := do
  match parameters with
  | some (.type element dimensions :: flags) =>
    if numberTypes.contains element then
      let shape ← r.shapeType dimensions
      return some [shape, .type elementTypeName (some [.type element none])]
    else return some (.type element dimensions :: flags)
  | some (p :: ps) => return some (p :: ps)
  | _ =>
    let shape ← r.hint "Any"
    let element ← r.hint "Any"
    return some [shape, .type elementTypeName (some [element])]

def variableArray : Hint → Inspection Hint
  | .type name parameters => do
    let name ← letterVariable name
    if name = denseArray then return .type name (← r.shapedArray parameters)
    else return .type name parameters
  | hint => return hint

def styledArray (hint : Hint) : Inspection Hint := do
  match (← options).arrays with
  | .asWritten => return hint
  | .annotated => r.annotatedArray hint
  | .typeVariables => r.variableArray hint
  | .bare => return hint.withoutArrayParameters

def completeFixedSize : Hint → Inspection Hint
  | .expression (.value v) =>
    match fixedSizeText? v.text with
    | none => return .expression (.value v)
    | some inside => do
      let _ ← r (.typeName ⟨some ArraySize.moduleName, "FixedSize"⟩)
      let dims ← integersOfTexts (splitAtChar ',' inside)
      return .expression (.value (← r (.size (.fixed dims))))
  | hint => return hint

def refine (hint : Hint) : Inspection Hint := do
  let hint ← hintWithoutModule hint
  let hint ← r.completeElementType hint.withQualifiedFlags
  let hint ← r.styledArray hint
  let hint ← r.completeFixedSize hint
  let hint := hint.withoutSparseParameters.qualifyTyping.plainCollection
  requireHintImport hint
  return hint

/-! The functions. -/

def hints (read : List Char → Inspection Hint) : List (List Char) → Inspection (List Hint)
  | [] => return []
  | text :: texts => do
    let h ← read text
    return h :: (← hints read texts)

def hintBody (text : List Char) : Inspection Hint :=
  match pieces? '|' text with
  | none | some [] => do
    report (.expression (String.ofList text))
    r.refine (.expression (.invalid (String.ofList text)))
  | some [piece] => do r.refine (← r (.type piece))
  | some pieces => do
    let name ← r.name "typing.Union"
    r.refine (.type name (some (← hints (fun piece => r (.type piece)) pieces)))

def typeBody (text : List Char) : Inspection Hint :=
  match trim (cutName (trim text)).2 with
  | [] => return .type (nameOfText (cutName (trim text)).1) none
  | rest =>
    match (bracketed? rest).bind (pieces? ',') with
    | none => return .expression (← r (.expression (trim text)))
    | some pieces => do
      let parameters ← hints (fun piece => r (.hint piece)) pieces
      return .type (nameOfText (cutName (trim text)).1) (some parameters)

def placedEnum? (e : EnumText) : List (Regex × String) → Inspection (Option Value)
  | [] => return none
  | (pattern, place) :: places => do
    if pattern.accepts e.className then
      match ← r.hint (place ++ "." ++ e.className) with
      | .type name _ => return some ⟨name.text ++ "." ++ e.entry, true⟩
      | _ => placedEnum? e places
    else placedEnum? e places

def expressionBody (text : List Char) : Inspection Expression := do
  let found ← match EnumText.read? (trim text) with
    | some e => r.placedEnum? e (← options).enumPlaces
    | none => pure none
  match found with
  | some v => markSafe (.value v)
  | none => markSafe (← plainExpression text)

def hint? : Option (List Char) → Inspection (Option Hint)
  | none => return none
  | some text => return some (← r (.hint text))

def expression? : Option (List Char) → Inspection (Option Expression)
  | none => return none
  | some text => return some (← r (.expression text))

def argumentsOfTexts (read : List Argument) (keywordOnly : Bool) :
    List ArgumentText → Inspection (List Argument)
  | [] => return read
  | a :: as => do
    if trim a.name = ['/'] then
      argumentsOfTexts (read.map ({ · with positionOnly := true })) keywordOnly as
    else if trim a.name = ['*'] then argumentsOfTexts read true as
    else
      match ArgumentText.starredName? a.name with
      | none => return genericArguments
      | some (stars, name) =>
        let hint ← r.hint? a.hint
        let default ← r.expression? a.default
        argumentsOfTexts (read ++ [{
          name := some (String.ofList name)
          keywordOnly
          variadic := stars = 1
          keywordVariadic := stars = 2
          default
          hint }]) keywordOnly as

def argumentsBody (text : List Char) : Inspection (List Argument) :=
  match ArgumentText.split? text with
  | none => return genericArguments
  | some texts => r.argumentsOfTexts [] false texts

def builtinTypeName (parts : List String) : Inspection QualifiedName :=
  match parts with
  | "NoneType" :: _ => return ⟨["None"]⟩
  | "function" :: _ => r.name "typing.Callable"
  | "builtin_function_or_method" :: _ => r.name "typing.Callable"
  | parts => return ⟨parts⟩

def fullTypeName (t : TypeName) : Inspection QualifiedName := do
  match t.module? with
  | none => throw .missingAttribute
  | some m =>
    if m = "builtins" && t.qualified = "PyCapsule" then return ⟨["typing", "Any"]⟩
    match splitText '.' m ++ splitText '.' t.qualified with
    | "builtins" :: parts => r.builtinTypeName parts
    | parts => return ⟨parts⟩

def typeNameBody (t : TypeName) : Inspection QualifiedName := do
  let name ← withoutModule (← r.fullTypeName t)
  requireImport name
  return name

/-- The answers of the functions, if the calls that they make are answered in a given way. -/
def onward : Answers
  | .hint text => r.hintBody text
  | .type text => r.typeBody text
  | .expression text => r.expressionBody text
  | .arguments text => r.argumentsBody text
  | .typeName type => r.typeNameBody type
  | .size size => pure (Value.mk size.text false).withoutAddresses

/-- The functions that call each other to a depth, and what answers the calls below. -/
def within : Nat → Answers
  | 0 => r
  | n + 1 => (within n).onward

end Answers

/-! Steps with the same outcome. -/

/-- Two steps have the same outcome in every state. -/
def Same {α : Type} (s : Setting) (x y : Inspection α) : Prop := ∀ p, x.outcome s p = y.outcome s p

namespace Same

variable {α β : Type} {s : Setting} {x y z : Inspection α} {f g : α → Inspection β}

protected theorem refl (x : Inspection α) : Same s x x := fun _ => rfl

protected theorem symm (h : Same s x y) : Same s y x := fun p => (h p).symm

protected theorem trans (h : Same s x y) (h' : Same s y z) : Same s x z := fun p => (h p).trans (h' p)

protected theorem bind (hx : Same s x y) (hf : ∀ a, Same s (f a) (g a)) :
    Same s (x >>= f) (y >>= g) := by
  intro p
  rw [outcome_bind, outcome_bind, hx p]
  rcases y.outcome s p with ⟨e | a, q⟩
  · rfl
  · exact hf a q

theorem bind_left (hx : Same s x y) (f : α → Inspection β) : Same s (x >>= f) (y >>= f) :=
  hx.bind fun _ => .refl _

theorem bind_right (x : Inspection α) (hf : ∀ a, Same s (f a) (g a)) :
    Same s (x >>= f) (x >>= g) := (Same.refl x).bind hf

theorem ite {c : Prop} [Decidable c] {x' y' : Inspection α} (hx : c → Same s x x')
    (hy : ¬ c → Same s y y') : Same s (if c then x else y) (if c then x' else y') := by
  split
  · exact hx ‹_›
  · exact hy ‹_›

end Same

/-- The calls that the rules for single types make are answered as the rules answer them. -/
structure Answers.RightAbout (r : Answers) (s : Setting) : Prop where
  any : Same s (r.hint "Any") (wellKnownType "Any")
  tuple : Same s (r.name "Tuple") (wellKnown "Tuple")
  literal : Same s (r.name "Literal") (wellKnown "Literal")
  array : s.options.arrays = .annotated → ∀ name ∈ denseArray :: sparseArrays,
    Same s (r.hint name.text) (wellKnownType name.text)
  className (size : ArraySize) : Same s (r (.typeName ⟨some ArraySize.moduleName, size.className⟩))
    (typeName ⟨some ArraySize.moduleName, size.className⟩)
  size (size : ArraySize) : Same s (r (.size size)) (pure (Value.mk size.text false).withoutAddresses)

namespace Answers

variable {r : Answers} {s : Setting}

theorem same_completeElementType (any : Same s (r.hint "Any") (wellKnownType "Any")) (hint : Hint) :
    Same s (r.completeElementType hint) (Inspection.completeElementType hint) := by
  cases hint with
  | expression e => exact .refl _
  | type name parameters => exact .ite (fun _ => any.bind_left _) fun _ => .refl _

namespace RightAbout

variable (h : r.RightAbout s)

include h

theorem sizeValue (size : ArraySize) : Same s (r.sizeValue size) (Inspection.sizeValue size) :=
  (h.className size).bind fun _ => h.size size

theorem annotatedSize (parameters : Option (List Hint)) :
    Same s (r.annotatedSize parameters) (Inspection.annotatedSize parameters) := by
  cases parameters with
  | none => exact .refl _
  | some ps =>
    rw [Answers.annotatedSize, Inspection.annotatedSize]
    rcases Hint.dimensions? (fun text => text = "n" || text = "m") ps with _ | _ | ⟨d, ds⟩
    · exact .refl _
    · exact .refl _
    · exact (h.sizeValue _).bind_left _

theorem annotatedArray (style : s.options.arrays = .annotated) (hint : Hint) :
    Same s (r.annotatedArray hint) (Inspection.annotatedArray hint) := by
  rcases hint with ⟨name, _ | _ | ⟨⟨element, dimensions⟩ | e, flags⟩⟩ | e
  case type.some.cons.type =>
    refine .ite (fun condition => ?_) fun _ => .refl _
    have listed : name ∈ denseArray :: sparseArrays := by
      simp only [Bool.and_eq_true, Bool.or_eq_true, decide_eq_true_eq, contains_iff_mem] at condition
      exact mem_cons.mpr condition.1
    exact (h.array style name listed).bind fun _ => (h.annotatedSize dimensions).bind_left _
  all_goals exact .refl _

theorem dimensionType (d : Dimension) :
    Same s (r.dimensionType d) (Inspection.dimensionType d) := by
  cases d with
  | number n => exact h.literal.bind_left _
  | named name => exact .refl _

theorem dimensionTypes (ds : List Dimension) :
    Same s (r.dimensionTypes ds) (Inspection.dimensionTypes ds) := by
  induction ds with
  | nil => exact .refl _
  | cons d ds ih => exact (h.dimensionType d).bind fun _ => ih.bind_left _

theorem shapeType (parameters : Option (List Hint)) :
    Same s (r.shapeType parameters) (Inspection.shapeType parameters) := by
  refine h.any.bind fun anyShape => ?_
  rcases parameters with _ | _ | ⟨d, ds⟩
  · exact .refl _
  · exact .refl _
  · simp only
    rcases Hint.dimensions? (fun _ => true) (d :: ds) with _ | dims
    · exact .refl _
    · exact h.tuple.bind fun tuple => (h.dimensionTypes _).bind_left _

theorem shapedArray (parameters : Option (List Hint)) :
    Same s (r.shapedArray parameters) (Inspection.shapedArray parameters) := by
  rcases parameters with _ | _ | ⟨⟨element, dimensions⟩ | e, flags⟩
  · exact h.any.bind fun _ => h.any.bind_left _
  · exact h.any.bind fun _ => h.any.bind_left _
  · exact .ite (fun _ => (h.shapeType _).bind_left _) fun _ => .refl _
  · exact .refl _

theorem variableArray (hint : Hint) :
    Same s (r.variableArray hint) (Inspection.variableArray hint) := by
  cases hint with
  | expression e => exact .refl _
  | type name parameters =>
    exact .bind_right _ fun _ => .ite (fun _ => (h.shapedArray parameters).bind_left _) fun _ => .refl _

theorem styledArray (hint : Hint) : Same s (r.styledArray hint) (Inspection.styledArray hint) := by
  intro p
  rw [Answers.styledArray, Inspection.styledArray, bind_of_ok (outcome_options s p),
    bind_of_ok (outcome_options s p)]
  cases style : s.options.arrays with
  | asWritten => rfl
  | annotated => exact h.annotatedArray style hint p
  | typeVariables => exact h.variableArray hint p
  | bare => rfl

theorem completeFixedSize (hint : Hint) :
    Same s (r.completeFixedSize hint) (Inspection.completeFixedSize hint) := by
  rcases hint with ⟨name, parameters⟩ | v | text
  · exact .refl _
  · rw [Answers.completeFixedSize, Inspection.completeFixedSize]
    cases fixedSizeText? v.text with
    | none => exact .refl _
    | some inside =>
      refine (h.className (.fixed [])).bind fun _ => .bind_right _ fun dims => ?_
      exact (h.size (.fixed dims)).bind_left _
  · exact .refl _

theorem refine (hint : Hint) : Same s (r.refine hint) (Inspection.refine hint) :=
  .bind_right _ fun _ => (same_completeElementType h.any _).bind fun _ => (h.styledArray _).bind fun _ =>
    (h.completeFixedSize _).bind_left _

end RightAbout

end Answers

variable {s : Setting} {name : QualifiedName}

/-! Words that every stub may use. -/

/-- In no module one of the rules for single types changes the name or calls for another one. -/
structure IsWord (s : Setting) (name : QualifiedName) : Prop where
  written : name.IsWritten
  text : QualifiedName.ofText name.text = name
  complete : ∀ k ≤ name.length, Hint.isBareElementType ⟨name.parts.drop k⟩ none = false
  unstyled : s.options.arrays = .typeVariables → ∀ k ≤ name.length,
    (⟨name.parts.drop k⟩ : QualifiedName).letter? = none ∧ ⟨name.parts.drop k⟩ ≠ denseArray

/-- The names that are called for. That of an array is called for in one style only. -/
def words (style : ArrayStyle) : List QualifiedName :=
  [⟨["Any"]⟩, ⟨["Tuple"]⟩, ⟨["Literal"]⟩, ⟨["typing", "Union"]⟩, ⟨["typing", "Callable"]⟩] ++
    if style = .annotated then denseArray :: sparseArrays else []

theorem isWord_of_mem (h : name ∈ words s.options.arrays) :
    IsWord s name := by
  have all : ∀ n ∈ words .annotated, n.IsWritten ∧ QualifiedName.ofText n.text = n ∧
      ∀ k ≤ n.length, Hint.isBareElementType ⟨n.parts.drop k⟩ none = false := by decide +kernel
  have plain : ∀ n ∈ words .typeVariables, ∀ k ≤ n.length,
      (⟨n.parts.drop k⟩ : QualifiedName).letter? = none ∧ ⟨n.parts.drop k⟩ ≠ denseArray := by
    decide
  have listed : name ∈ words .annotated := by
    rcases mem_append.mp h with h | h
    · exact mem_append_left _ h
    · split at h
      · exact mem_append_right _ h
      · cases h
  obtain ⟨written, text, complete⟩ := all name listed
  exact ⟨written, text, complete, fun style => plain name (style ▸ h)⟩

theorem outcome_wellKnownType (h : QualifiedName.ofText name.text = name)
    (s : Setting) (p : Progress) : (wellKnownType name.text).outcome s p = (do
        requireHintImport (.type ((name.inside p.modulePath).qualifyTyping false).plainCollection none)
        return .type ((name.inside p.modulePath).qualifyTyping false).plainCollection none :
          Inspection Hint).outcome s p := by
  have start := outcome_withoutModule name s p
  rw [wellKnownType, wellKnown, h, bind_assoc, bind_of_ok start]
  simp only [bind_assoc, pure_bind]
  rfl

theorem IsWord.refine (h : IsWord s name) (r : Answers) :
    Same s (r.refine (.type name none)) (wellKnownType name.text) := by
  intro p
  -- inside a module of that name only the end of the name is left
  obtain ⟨k, hk, inside⟩ := name.exists_inside p.modulePath
  have start := outcome_hintWithoutModule (.type name none) s p
  have element : (r.completeElementType (.type (name.inside p.modulePath) none)).outcome s p =
      (.ok (.type (name.inside p.modulePath) none), p) := by
    rw [Answers.completeElementType, inside, if_neg (Bool.eq_false_iff.mp (h.complete k hk))]
    rfl
  have styled : (r.styledArray (.type (name.inside p.modulePath) none)).outcome s p =
      (.ok (.type (name.inside p.modulePath) none), p) := by
    rw [Answers.styledArray, bind_of_ok (outcome_options s p)]
    cases style : s.options.arrays with
    | asWritten => rfl
    | annotated => rfl
    | typeVariables =>
      obtain ⟨letter, other⟩ := h.unstyled style k hk
      rw [inside, Answers.variableArray, letterVariable, letter]
      simp only [pure_bind, if_neg other]
      rfl
    | bare =>
      simp only [Hint.withoutArrayParameters, ite_self]
      rfl
  have size : (r.completeFixedSize (.type (name.inside p.modulePath) none)).outcome s p =
      (.ok (.type (name.inside p.modulePath) none), p) := rfl
  have flags : ((Hint.type name none).inside p.modulePath).withQualifiedFlags =
      .type (name.inside p.modulePath) none := rfl
  rw [outcome_wellKnownType h.text, Answers.refine, bind_of_ok start, flags,
    bind_of_ok element, bind_of_ok styled, bind_of_ok size]
  simp only [Hint.withoutSparseParameters, ite_self, Hint.qualifyTyping, Hint.plainCollection]

/-- The answers of the words, with no call of the functions that read texts. -/
def direct : Answers
  | .hint text => wellKnownType (String.ofList text)
  | .type text => answers (.type text)
  | .expression text => answers (.expression text)
  | .arguments text => answers (.arguments text)
  | .typeName type => answers (.typeName type)
  | .size size => answers (.size size)

theorem direct_hint (text : String) : direct.hint text = wellKnownType text := by
  rw [Answers.hint, direct, String.ofList_toList]

theorem name_of_hint {r : Answers} {text : String}
    (h : Same s (r.hint text) (wellKnownType text)) : Same s (r.name text) (wellKnown text) := by
  refine (h.bind_left _).trans fun p => ?_
  rw [wellKnownType]
  simp only [bind_assoc, pure_bind, bind_pure]

theorem rightAbout_direct (s : Setting) : direct.RightAbout s where
  any := by
    rw [direct_hint]
    exact .refl _
  tuple := name_of_hint (by rw [direct_hint]; exact .refl _)
  literal := name_of_hint (by rw [direct_hint]; exact .refl _)
  array _ name _ := by
    rw [direct_hint]
    exact .refl _
  className _ := .refl _
  size _ := .refl _

theorem IsWord.refined (h : IsWord s name) :
    Same s (Inspection.refine (.type name none)) (wellKnownType name.text) :=
  ((rightAbout_direct s).refine _).symm.trans (h.refine direct)

theorem IsWord.ofText (h : IsWord s name) :
    HintSyntax.ofText name.text.toList = .single (.named name none) := by
  rw [HintSyntax.ofText_of_closed (h.written.1.closed (by simp)), h.written.ofText]

theorem IsWord.hintOfText (h : IsWord s name) :
    Same s (hintOfText name.text.toList) (wellKnownType name.text) := by
  rw [Inspection.hintOfText, h.ofText, hintOfSyntax, typeOfSyntax, pure_bind]
  exact h.refined

/-! Lists of texts. -/

namespace Answers

theorem same_hints {s : Setting} {read read' : List Char → Inspection Hint} {texts : List (List Char)}
    (h : ∀ text ∈ texts, Same s (read text) (read' text)) :
    Same s (hints read texts) (hints read' texts) := by
  induction texts with
  | nil => exact .refl _
  | cons text texts ih =>
    obtain ⟨first, others⟩ := forall_mem_cons.mp h
    exact first.bind fun _ => (ih others).bind_left _

theorem hints_typeOfText (texts : List (List Char)) :
    hints typeOfText texts = typesOfSyntax (texts.map TypeSyntax.ofText) := by
  induction texts with
  | nil => rw [map_nil, typesOfSyntax, hints]
  | cons text texts ih =>
    rw [map_cons, typesOfSyntax, hints, ih]
    rfl

theorem hints_hintOfText (texts : List (List Char)) :
    hints hintOfText texts = hintsOfSyntax (texts.map HintSyntax.ofText) := by
  induction texts with
  | nil => rw [map_nil, hintsOfSyntax, hints]
  | cons text texts ih =>
    rw [map_cons, hintsOfSyntax, hints, ih]
    rfl

end Answers

end TypeStubs.Inspection
