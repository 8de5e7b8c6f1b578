import TypeStubs.Proofs.ArrayTexts

/-! Array types in the two styles that keep their dimensions: as annotated types with a size and flags,
and as types with a shape and type variables. -/

namespace TypeStubs

open List Hint

/-! Sizes. -/

def Dimension.isNumber : Dimension → Bool
  | .number _ => true
  | .named _ => false

def Dimension.argumentText : Dimension → String
  | .number n => toString n
  | .named name => "'" ++ name ++ "'"

def sizePlace : String := "pybind11_stubgen.typing_ext"

def sizeClassCall (className : String) (arguments : List String) : String :=
  sizePlace ++ "." ++ className ++ "(" ++ joinWith ", " arguments ++ ")"

def sizeCall (dims : List Dimension) : String :=
  sizeClassCall (if dims.all Dimension.isNumber then "FixedSize" else "DynamicSize")
    (dims.map Dimension.argumentText)

def Dimension.IsAnnotatable (d : Dimension) : Prop := ∀ name, d = .named name → name = "n" ∨ name = "m"

theorem Dimension.IsAnnotatable.isLettered {d : Dimension} (h : d.IsAnnotatable) : d.IsLettered := by
  intro name same
  rcases h name same with rfl | rfl
  · exact ⟨'n', rfl, rfl⟩
  · exact ⟨'m', rfl, rfl⟩

theorem text_arraySize (size : ArraySize) :
    size.text = sizeClassCall size.className size.dimensionTexts := rfl

theorem text_ofDimensions {dims : List Dimension} (h : ∀ d ∈ dims, d.IsAnnotatable) :
    (ArraySize.ofDimensions dims).text = sizeCall dims := by
  have quoted : ∀ name ∈ ["n", "m"], Quoted.text name = "'" ++ name ++ "'" := by decide
  have chosen : ArraySize.ofDimensions dims =
      if dims.all Dimension.isNumber then .fixed dims else .dynamic dims := rfl
  rw [chosen, sizeCall, text_arraySize]
  cases numbers : dims.all Dimension.isNumber with
  | true =>
    refine congrArg (sizeClassCall "FixedSize") (map_congr_left fun d hd => ?_)
    cases d with
    | number n => rfl
    | named name => exact absurd (all_eq_true.mp numbers _ hd) Bool.false_ne_true
  | false =>
    refine congrArg (sizeClassCall "DynamicSize") (map_congr_left fun d hd => ?_)
    cases d with
    | number n => rfl
    | named name => exact quoted name (by simpa using h _ hd name rfl)

theorem not_mem_sizeClassCall {className : String} {arguments : List String}
    (hc : '<' ∉ className.toList) (ha : ∀ a ∈ arguments, '<' ∉ a.toList) :
    '<' ∉ (sizeClassCall className arguments).toList := by
  have joined : (joinWith ", " arguments).toList =
      intercalate ", ".toList (arguments.map String.toList) := String.toList_intercalate
  have place : '<' ∉ sizePlace.toList := by decide
  intro hin
  simp only [sizeClassCall, String.toList_append, joined, mem_append] at hin
  rcases hin with ((((hin | hin) | hin) | hin) | hin) | hin
  · exact place hin
  · exact absurd hin (by decide)
  · exact hc hin
  · exact absurd hin (by decide)
  · rcases mem_intercalate hin with comma | ⟨text, ht, inside⟩
    · exact absurd comma (by decide)
    · obtain ⟨argument, hm, rfl⟩ := mem_map.mp ht
      exact ha argument hm inside
  · exact absurd hin (by decide)

theorem stays_sizeCall {dims : List Dimension} (h : ∀ d ∈ dims, d.IsAnnotatable) :
    Stays (sizeCall dims).toList := by
  refine stays_of_not_mem (not_mem_sizeClassCall ?_ ?_)
  · split
    · decide
    · decide
  · rw [forall_mem_map]
    intro d hd hin
    cases d with
    | number n => exact absurd (Source.mem_toString hin) (by decide)
    | named name =>
      rcases h _ hd name rfl with rfl | rfl
      · exact absurd hin (by decide)
      · exact absurd hin (by decide)

namespace Inspection

variable {s : Setting} {site : Site} {p q : Progress} {array element : QualifiedName} {dims : List Dimension}
  {flags : List QualifiedName} {hs : List HintSyntax}

theorem givesAt_sizeValue (annotatable : ∀ d ∈ dims, d.IsAnnotatable) :
    GivesAt s .outside (sizeValue (.ofDimensions dims)) (⟨sizeCall dims, false⟩ = ·) := by
  have text : (Value.mk (ArraySize.ofDimensions dims).text false).withoutAddresses =
      ⟨sizeCall dims, false⟩ := by
    rw [text_ofDimensions annotatable, withoutAddresses_of_stays (stays_sizeCall annotatable)]
  rw [sizeValue, text]
  exact (givesAt_sizeType _).followedBy (.pure _)

/-- The size of an array, unless an integer among its dimensions is too long. -/
def sizeHints (dims : List Dimension) : List Hint :=
  if ∀ d ∈ dims, d.IsShort then [.expression (.value ⟨sizeCall dims, false⟩)] else []

theorem givesAt_annotatedSize (nonempty : dims ≠ []) (annotatable : ∀ d ∈ dims, d.IsAnnotatable) :
    GivesAt s .outside (annotatedSize (some (dims.map Dimension.hint))) (sizeHints dims = ·) := by
  have accepted : ∀ name, .named name ∈ dims → (name = "n" || name = "m") = true := by
    intro name hd
    simpa using annotatable _ hd name rfl
  have denoted := Dimension.dimensions?_hints accepted
  rw [annotatedSize, denoted, sizeHints]
  obtain ⟨d, ds, rfl⟩ := exists_cons_of_ne_nil nonempty
  by_cases short : ∀ d' ∈ d :: ds, d'.IsShort
  · rw [if_pos short, if_pos short]
    exact (givesAt_sizeValue annotatable).followedBy (.pure _)
  · rw [if_neg short, if_neg short]
    exact .pure _

def flagHint (array flag : QualifiedName) : Hint :=
  .type (if array = denseArray then ⟨array.parts ++ flag.parts⟩ else flag) none

theorem array_entering (number : element ∈ numberTypes) (flagged : ∀ f ∈ flags, f ∈ arrayFlags) :
    ((Hint.type array (some (arrayParts element dims flags))).inside
        Site.outside.path).withQualifiedFlags.withElementType Site.outside.path =
      .type array (some (.type element (some (dims.map Dimension.hint)) ::
        flags.map (flagHint array))) := by
  have others : ∀ name ∈ numberTypes, arrayFlags.contains name = false := by decide
  have inside : array.inside Site.outside.path = array := QualifiedName.inside_root array
  have same : (if array = denseArray then (arrayParts element dims flags).map qualifiedFlag
      else arrayParts element dims flags) =
      .type element (some (dims.map Dimension.hint)) :: flags.map (flagHint array) := by
    by_cases dense : array = denseArray
    · rw [if_pos dense, arrayParts, map_cons, qualifiedFlag, others element number,
        if_neg Bool.false_ne_true, map_map]
      refine congrArg (_ :: ·) (map_congr_left fun f hf => ?_)
      rw [Function.comp_apply, qualifiedFlag, flagHint, if_pos dense, dense,
        if_pos (contains_iff_mem.mpr (flagged f hf))]
    · rw [if_neg dense, arrayParts]
      refine congrArg (_ :: ·) (map_congr_left fun f hf => ?_)
      rw [flagHint, if_neg dense]
  rw [Hint.inside, inside, withQualifiedFlags, same, withElementType, isBareElementType]
  simp

theorem qualifyTyping_flagHint (array : QualifiedName) {flag : QualifiedName} (h : flag ∈ arrayFlags) :
    (flagHint array flag).qualifyTyping = flagHint array flag := by
  have long : 2 ≤ flag.length := (isOrdinary_arrayFlags flag h).several
  have several : (if array = denseArray then ⟨array.parts ++ flag.parts⟩ else flag).length ≠ 1 := by
    split
    · rw [QualifiedName.length, length_append]
      have : flag.parts.length = flag.length := rfl
      omega
    · omega
  rw [flagHint, qualifyTyping, QualifiedName.qualifyTyping_of_length several]

/-! Annotated types. -/

/-- An array as an annotated type: the array, its element type, its size and its flags. -/
def annotatedHint (array element : QualifiedName) (size : List Hint) (flags : List QualifiedName) :
    Hint :=
  .type ⟨["typing", "Annotated"]⟩
    (some ([.type array none, .type element none] ++ size ++ flags.map (flagHint array)))

theorem givesAt_annotatedArray (isArray : array ∈ denseArray :: sparseArrays)
    (number : element ∈ numberTypes) {dimensions : Option (List Hint)} {size : List Hint}
    (sized : GivesAt s .outside (annotatedSize dimensions) (size = ·)) (flags : List Hint) :
    GivesAt s .outside (annotatedArray (.type array (some (.type element dimensions :: flags))))
      (.type ⟨["Annotated"]⟩ (some ([.type array none, .type element none] ++ size ++ flags)) = ·) := by
  have known : ∀ array ∈ denseArray :: sparseArrays, wellKnownName array.text ⟨[]⟩ = array ∧
      array.Importable := by decide +kernel
  obtain ⟨same, importable⟩ := known array isArray
  have styled : ((array = denseArray || sparseArrays.contains array) &&
      numberTypes.contains element) = true := by
    simpa [number] using isArray
  have given : GivesAt s .outside (wellKnownType array.text) (.type array none = ·) :=
    givesAt_wellKnownType same importable
  rw [annotatedArray, if_pos styled]
  exact given.followedBy (sized.followedBy (.pure _))

theorem isWritten_arrays : ∀ array ∈ denseArray :: sparseArrays, array.IsWritten :=
  QualifiedName.areWritten (by decide +kernel)

theorem givesAt_annotatedText (style : s.options.arrays = .annotated)
    (isArray : array ∈ denseArray :: sparseArrays) (number : element ∈ numberTypes)
    (nonempty : dims ≠ []) (annotatable : ∀ d ∈ dims, d.IsAnnotatable)
    (flagged : ∀ f ∈ flags, f ∈ arrayFlags) :
    GivesAt s .outside (hintOfText (arrayText array element dims flags).toList)
      (annotatedHint array element (sizeHints dims) flags = ·) := by
  have full : ∀ array ∈ denseArray :: sparseArrays, array.qualifyTyping false = array := by decide
  have lettered : ∀ d ∈ dims, d.IsLettered := fun d hd => (annotatable d hd).isLettered
  have styled {hint hint' : Hint} (h : GivesAt s .outside (annotatedArray hint) (hint' = ·)) :
      GivesAt s .outside (styledArray hint) (hint' = ·) := givesAt_options (by rw [style]; exact h)
  have size : ∀ h ∈ sizeHints dims, h.qualifyTyping = h := by
    intro h hh
    rw [sizeHints] at hh
    split at hh
    · rw [mem_singleton.mp hh, qualifyTyping]
    · cases hh
  have qualified : qualifyTypingAll ([.type array none, .type element none] ++ sizeHints dims ++
      flags.map (flagHint array)) =
      [.type array none, .type element none] ++ sizeHints dims ++ flags.map (flagHint array) := by
    rw [qualifyTypingAll_eq_iff, forall_mem_append, forall_mem_append]
    refine ⟨⟨?_, size⟩, forall_mem_map.mpr fun f hf => qualifyTyping_flagHint array (flagged f hf)⟩
    rw [forall_mem_cons, forall_mem_singleton, qualifyTyping, qualifyTyping,
      full array isArray, (isOrdinary_numberTypes element number).qualifyTyping]
    exact ⟨rfl, rfl⟩
  have leaving : (Hint.type ⟨["Annotated"]⟩ (some ([.type array none, .type element none] ++
      sizeHints dims ++ flags.map (flagHint array)))).withoutSparseParameters.qualifyTyping.plainCollection =
      annotatedHint array element (sizeHints dims) flags := by
    rw [withoutSparseParameters, if_neg (by simp), qualifyTyping, qualified]
    rfl
  refine givesAt_arrayText (isWritten_arrays array isArray) number nonempty lettered flagged
    (fun name letter => letter) (fun name _ => styled (.pure _)) ?_
  rw [Dimension.map_renamed_self]
  exact givesAt_refine_styled (array_entering number flagged)
    (styled (givesAt_annotatedArray isArray number (givesAt_annotatedSize nonempty annotatable) _)) rfl
    leaving (.inr (.inr (by decide)))

/-- In the annotated style, an array type keeps its element type, its dimensions and its flags in order.
Only a size with an integer that is too long to be read is left out. -/
theorem annotated_array_keeps_parts (style : s.options.arrays = .annotated) (hp : IsOutside p)
    (isArray : array ∈ denseArray :: sparseArrays) (number : element ∈ numberTypes)
    (nonempty : dims ≠ []) (annotatable : ∀ d ∈ dims, d.IsAnnotatable)
    (flagged : ∀ f ∈ flags, f ∈ arrayFlags) :
    ∃ q, (hintOfText (arrayText array element dims flags).toList).outcome s p =
      (.ok (annotatedHint array element (sizeHints dims) flags), q) := by
  have gives := givesAt_annotatedText style isArray number nonempty annotatable flagged
  exact gives.returns p (isAt_outside.mpr hp) _ rfl

def annotating : Setting := ⟨{ arrays := .annotated }, .ofModules []⟩

def csrMatrix : QualifiedName := ⟨["scipy", "sparse", "csr_matrix"]⟩

theorem sparse_array_keeps_parts :
    arrayText csrMatrix ⟨["numpy", "int8"]⟩ [.number (-3), .named "n"] [⟨["flags", "writeable"]⟩] =
      "scipy.sparse.csr_matrix[numpy.int8[-3, n], flags.writeable]" ∧
    sizeCall [.number (-3), .named "n"] = "pybind11_stubgen.typing_ext.DynamicSize(-3, 'n')" ∧
    ∃ q, (hintOfText (arrayText csrMatrix ⟨["numpy", "int8"]⟩ [.number (-3), .named "n"]
        [⟨["flags", "writeable"]⟩]).toList).outcome annotating outside =
      (.ok (.type ⟨["typing", "Annotated"]⟩ (some [.type csrMatrix none, .type ⟨["numpy", "int8"]⟩ none,
        .expression (.value ⟨sizeCall [.number (-3), .named "n"], false⟩),
        .type ⟨["flags", "writeable"]⟩ none])), q) := by
  have annotatable : ∀ d ∈ [Dimension.number (-3), .named "n"], d.IsAnnotatable := by
    simp [Dimension.IsAnnotatable]
  have short : ∀ d ∈ [Dimension.number (-3), .named "n"], d.IsShort := by decide
  have size : sizeHints [.number (-3), .named "n"] =
      [.expression (.value ⟨sizeCall [.number (-3), .named "n"], false⟩)] := if_pos short
  have whole : annotatedHint csrMatrix ⟨["numpy", "int8"]⟩ (sizeHints [.number (-3), .named "n"])
      [⟨["flags", "writeable"]⟩] = .type ⟨["typing", "Annotated"]⟩ (some [.type csrMatrix none,
        .type ⟨["numpy", "int8"]⟩ none,
        .expression (.value ⟨sizeCall [.number (-3), .named "n"], false⟩),
        .type ⟨["flags", "writeable"]⟩ none]) := by
    rw [size]
    rfl
  rw [← whole]
  exact ⟨by decide, by decide, annotated_array_keeps_parts rfl isOutside_outside
    (by decide) (by decide) (cons_ne_nil _ _) annotatable (by decide)⟩

/-- The size of an array is lost if one of its dimensions is too long. -/
theorem long_dimension_lost :
    ¬ ∃ q, (hintOfText (arrayText denseArray ⟨["numpy", "int8"]⟩
        [.number (10 ^ Source.maxIntegerDigits)] []).toList).outcome annotating outside =
      (.ok (annotatedHint denseArray ⟨["numpy", "int8"]⟩
        [.expression (.value ⟨sizeCall [.number (10 ^ Source.maxIntegerDigits)], false⟩)] []), q) := by
  have long : ¬ Source.IsShort (10 ^ Source.maxIntegerDigits) := long_pow (by decide)
  generalize (10 : Int) ^ Source.maxIntegerDigits = n at long
  have annotatable : ∀ d ∈ [Dimension.number n], d.IsAnnotatable := by simp [Dimension.IsAnnotatable]
  have gives : GivesAt annotating .outside
      (hintOfText (arrayText denseArray ⟨["numpy", "int8"]⟩ [.number n] []).toList)
      (annotatedHint denseArray ⟨["numpy", "int8"]⟩ (sizeHints [.number n]) [] = ·) :=
    givesAt_annotatedText rfl (by decide) (by decide) (cons_ne_nil _ _) annotatable (by decide)
  rintro ⟨q, read⟩
  have same := (gives.only outside (isAt_outside.mpr isOutside_outside).isIn _ q read).1
  rw [sizeHints, if_neg fun short => long (short _ mem_cons_self)] at same
  exact absurd same (by simp [annotatedHint])

/-! Shapes. -/

/-- The type of a dimension in the shape of an array: a literal or a type variable. -/
def dimensionHint : Dimension → Hint
  | .number n => .type ⟨["typing", "Literal"]⟩ (some [.expression (.value ⟨toString n, false⟩)])
  | .named name => .type ⟨[name.toUpper]⟩ none

/-- The shape of an array. It is unknown if one of the dimensions is too long. -/
def shapeHint (dims : List Dimension) : Hint :=
  if ∀ d ∈ dims, d.IsShort then .type ⟨["tuple"]⟩ (some (dims.map dimensionHint))
  else .type ⟨["typing", "Any"]⟩ none

def shapedHint (element : QualifiedName) (dims : List Dimension) : Hint :=
  .type denseArray (some [shapeHint dims, .type elementTypeName (some [.type element none])])

theorem givesAt_dimensionTypes (lettered : ∀ d ∈ dims, d.IsLettered) :
    GivesAt s .outside (dimensionTypes (dims.map (·.renamed String.toUpper)))
      (dims.map dimensionHint = ·) := by
  have single : ∀ c ∈ letters, QualifiedName.ofText (String.singleton c) = ⟨[String.singleton c]⟩ :=
    forall_of_all (by decide +kernel)
  induction dims with
  | nil => exact .pure []
  | cons d dims ih =>
    obtain ⟨first, others⟩ := forall_mem_cons.mp lettered
    have type : GivesAt s .outside (dimensionType (d.renamed String.toUpper)) (dimensionHint d = ·) := by
      cases d with
      | number n =>
        have literal : GivesAt s .outside (wellKnown "Literal") (⟨["typing", "Literal"]⟩ = ·) :=
          givesAt_wellKnown_of_eq (by decide +kernel) (by decide)
        exact literal.followedBy (.pure _)
      | named name =>
        obtain ⟨c, alpha, same⟩ := (first name rfl).upper
        have text : QualifiedName.ofText name.toUpper = ⟨[name.toUpper]⟩ := by
          rw [same]
          exact single c (mem_letters alpha)
        rw [Dimension.renamed, dimensionType, text]
        exact .pure _
    rw [map_cons, dimensionTypes]
    exact type.followedBy ((ih others).followedBy (.pure _))

theorem givesAt_shapeType (nonempty : dims ≠ []) (lettered : ∀ d ∈ dims, d.IsLettered) :
    GivesAt s .outside (shapeType (some ((dims.map (·.renamed String.toUpper)).map Dimension.hint)))
      (shapeHint dims = ·) := by
  have any : GivesAt s .outside (wellKnownType "Any") (.type ⟨["typing", "Any"]⟩ none = ·) :=
    givesAt_wellKnownType (by decide) (by decide)
  have tuple : GivesAt s .outside (wellKnown "Tuple") (⟨["tuple"]⟩ = ·) :=
    givesAt_wellKnown_of_eq (by decide +kernel) (by decide)
  have denoted : dimensions? (fun _ => true)
      ((dims.map (·.renamed String.toUpper)).map Dimension.hint) =
      if ∀ d ∈ dims, d.IsShort then some (dims.map (·.renamed String.toUpper)) else none := by
    rw [Dimension.dimensions?_hints fun _ _ => rfl]
    simp only [forall_mem_map, Dimension.isShort_renamed]
  have types : GivesAt s .outside (dimensionTypes (dims.map (·.renamed String.toUpper)))
      (dims.map dimensionHint = ·) := givesAt_dimensionTypes lettered
  obtain ⟨d, ds, rfl⟩ := exists_cons_of_ne_nil nonempty
  refine any.followedBy ?_
  simp only [map_cons] at denoted types ⊢
  rw [denoted, shapeHint]
  by_cases short : ∀ d' ∈ d :: ds, d'.IsShort
  · rw [if_pos short, if_pos short]
    exact tuple.followedBy (types.followedBy (.pure _))
  · rw [if_neg short, if_neg short]
    exact .pure _

theorem givesAt_variableArray (number : element ∈ numberTypes) (nonempty : dims ≠ [])
    (lettered : ∀ d ∈ dims, d.IsLettered) (flags : List Hint) :
    GivesAt s .outside (variableArray (.type denseArray (some (.type element
        (some ((dims.map (·.renamed String.toUpper)).map Dimension.hint)) :: flags))))
      (shapedHint element dims = ·) := by
  have letter : denseArray.letter? = none := by decide
  have listed : numberTypes.contains element = true := by simpa using number
  have shaped : GivesAt s .outside (shapedArray (some (.type element
        (some ((dims.map (·.renamed String.toUpper)).map Dimension.hint)) :: flags)))
      (some [shapeHint dims, .type elementTypeName (some [.type element none])] = ·) := by
    rw [shapedArray, if_pos listed]
    exact (givesAt_shapeType nonempty lettered).followedBy (.pure _)
  rw [variableArray, letterVariable, letter, pure_bind, if_pos rfl]
  exact shaped.followedBy (.pure _)

theorem givesAt_letterVariable {name : String} (h : IsLetter name) :
    GivesAt s site (variableArray (.type ⟨[name]⟩ none)) (.type ⟨[name.toUpper]⟩ none = ·) := by
  have other : (⟨[name.toUpper]⟩ : QualifiedName) ≠ denseArray := by simp [denseArray]
  simp only [variableArray, letterVariable, h.letter?, bind_assoc, pure_bind, if_neg other]
  exact (givesAt_addDimension _).followedBy (.pure _)

theorem qualifyTyping_dimensionHint {d : Dimension} (h : d.IsLettered) :
    (dimensionHint d).qualifyTyping = dimensionHint d := by
  cases d with
  | number n =>
    rw [dimensionHint, qualifyTyping, qualifyTypingAll, qualifyTypingAll, qualifyTyping]
    rfl
  | named name => rw [dimensionHint, qualifyTyping, (h name rfl).upper.qualifyTyping]

theorem qualifyTyping_shapeHint (lettered : ∀ d ∈ dims, d.IsLettered) :
    (shapeHint dims).qualifyTyping = shapeHint dims := by
  have dimensions : qualifyTypingAll (dims.map dimensionHint) = dims.map dimensionHint := by
    rw [qualifyTypingAll_eq_iff]
    exact forall_mem_map.mpr fun d hd => qualifyTyping_dimensionHint (lettered d hd)
  have tuple : (⟨["tuple"]⟩ : QualifiedName).qualifyTyping true = ⟨["tuple"]⟩ := by decide +kernel
  have any : (⟨["typing", "Any"]⟩ : QualifiedName).qualifyTyping false = ⟨["typing", "Any"]⟩ := rfl
  rw [shapeHint]
  split
  · rw [qualifyTyping, dimensions, tuple]
  · rw [qualifyTyping, any]

theorem givesAt_shapedText (style : s.options.arrays = .typeVariables) (number : element ∈ numberTypes)
    (nonempty : dims ≠ []) (lettered : ∀ d ∈ dims, d.IsLettered)
    (flagged : ∀ f ∈ flags, f ∈ arrayFlags) :
    GivesAt s .outside (hintOfText (arrayText denseArray element dims flags).toList)
      (shapedHint element dims = ·) := by
  have styled {hint hint' : Hint} (h : GivesAt s .outside (variableArray hint) (hint' = ·)) :
      GivesAt s .outside (styledArray hint) (hint' = ·) := givesAt_options (by rw [style]; exact h)
  have elementType : (Hint.type elementTypeName (some [.type element none])).qualifyTyping =
      .type elementTypeName (some [.type element none]) := by
    rw [qualifyTyping, qualifyTypingAll, qualifyTypingAll, qualifyTyping,
      (isOrdinary_numberTypes element number).qualifyTyping]
    rfl
  have leaving : (shapedHint element dims).withoutSparseParameters.qualifyTyping.plainCollection =
      shapedHint element dims := by
    rw [shapedHint, withoutSparseParameters, if_neg (by decide), qualifyTyping,
      qualifyTypingAll, qualifyTypingAll, qualifyTypingAll,
      qualifyTyping_shapeHint lettered, elementType]
    rfl
  refine givesAt_arrayText (isWritten_arrays _ mem_cons_self) number nonempty lettered flagged
    (fun name letter => letter.upper) (fun name letter => styled (givesAt_letterVariable letter)) ?_
  exact givesAt_refine_styled (array_entering number flagged)
    (styled (givesAt_variableArray number nonempty lettered _)) rfl leaving (.inr (.inr (by decide)))

/-! The letters of the dimensions. -/

variable {α : Type} {x : Inspection α}

theorem Plain.findsLetters (hx : Plain x) {a : α} (h : x.outcome s p = (.ok a, q)) :
    FindsLetters p q := (Enclosed.plain hx).keeps (keepsInside_findsLetters s) h

theorem FindsLetters.dimensions (h : FindsLetters p q) : p.dimensions ⊆ q.dimensions := by
  obtain ⟨new, letters⟩ := h.letters
  intro letter old
  rw [dimensions_append letters, mem_foldl_found]
  exact .inl old

/-- A step is run on the way from a state to another, and letters are only found on the way. -/
def RunsBetween (s : Setting) (x : Inspection α) (p q : Progress) : Prop :=
  ∃ p' a q', FindsLetters p p' ∧ x.outcome s p' = (.ok a, q') ∧ FindsLetters q' q

theorem RunsBetween.within {p₀ q₀ : Progress} (h : RunsBetween s x p q) (before : FindsLetters p₀ p)
    (after : FindsLetters q q₀) : RunsBetween s x p₀ q₀ := by
  obtain ⟨p', a, q', first, run, last⟩ := h
  exact ⟨p', a, q', before.trans first, run, last.trans after⟩

theorem runsBetween_hintsOfSyntax {h : HintSyntax} (hin : h ∈ hs)
    {hints : List Hint} (run : (hintsOfSyntax hs).outcome s p = (.ok hints, q)) :
    RunsBetween s (hintOfSyntax h) p q := by
  induction hs generalizing p hints with
  | nil => cases hin
  | cons first others ih =>
    rw [hintsOfSyntax] at run
    obtain ⟨hint, r, here, rest⟩ := bind_ok_iff.mp run
    obtain ⟨tail, r', there, done⟩ := bind_ok_iff.mp rest
    cases done
    rcases mem_cons.mp hin with rfl | hin
    · exact ⟨p, hint, r, .of_same rfl rfl, here, (plain_hintsOfSyntax _).findsLetters there⟩
    · exact (ih hin there).within ((plain_hintOfSyntax _).findsLetters here) (.of_same rfl rfl)

theorem runsBetween_parameter {name : QualifiedName} {h : HintSyntax} (hin : h ∈ hs)
    (run : RunsBetween s (hintOfSyntax (.single (.named name (some hs)))) p q) :
    RunsBetween s (hintOfSyntax h) p q := by
  obtain ⟨p', hint, q', before, run, after⟩ := run
  rw [hintOfSyntax, typeOfSyntax, bind_assoc] at run
  obtain ⟨ps, r, parameters, rest⟩ := bind_ok_iff.mp run
  rw [pure_bind] at rest
  exact (runsBetween_hintsOfSyntax hin parameters).within before
    (((plain_refine _).findsLetters rest).trans after)

theorem mem_dimensions_of_runs (style : s.options.arrays = .typeVariables) {name : String}
    (letter : IsLetter name) (root : p.modulePath = ⟨[]⟩)
    (run : RunsBetween s (hintOfSyntax (.single (.named ⟨[name]⟩ none))) p q) :
    name.toUpper ∈ q.dimensions := by
  obtain ⟨p', hint, q', before, run, after⟩ := run
  rw [hintOfSyntax, typeOfSyntax, pure_bind] at run
  obtain ⟨same, found⟩ := refine_letters style run
  rw [before.modulePath, root] at same found
  have here : hint.letter? = some name.toUpper :=
    same.trans ((congrArg letter? (letter_entering letter)).trans letter.letter?)
  apply after.dimensions
  rw [dimensions_append found, letterEvents, here]
  exact (mem_foldl_found _ _ _ _).mpr (.inr (.head _))

/-- In the style with type variables, a dense array gets a shape that follows its dimensions one by one,
and its letters wait to become type variables. Only a shape with an integer that is too long to be read
is left open. -/
theorem array_shape_follows_dimensions (style : s.options.arrays = .typeVariables) (hp : IsOutside p)
    (number : element ∈ numberTypes) (nonempty : dims ≠ []) (lettered : ∀ d ∈ dims, d.IsLettered)
    (flagged : ∀ f ∈ flags, f ∈ arrayFlags) :
    ∃ q, (hintOfText (arrayText denseArray element dims flags).toList).outcome s p =
        (.ok (shapedHint element dims), q) ∧
      ∀ name, .named name ∈ dims → name.toUpper ∈ q.dimensions := by
  have gives := givesAt_shapedText style number nonempty lettered flagged
  obtain ⟨q, read⟩ := gives.returns p (isAt_outside.mpr hp) _ rfl
  refine ⟨q, read, fun name named => ?_⟩
  rw [hintOfText, ofText_arrayText (isWritten_arrays _ mem_cons_self) number nonempty lettered
    flagged] at read
  have whole : RunsBetween s _ p q := ⟨p, _, q, .of_same rfl rfl, read, .of_same rfl rfl⟩
  have dimension := runsBetween_parameter (mem_map.mpr ⟨_, named, rfl⟩)
    (runsBetween_parameter mem_cons_self whole)
  have letter := lettered _ named name rfl
  have text : HintSyntax.ofText (Dimension.named name).text.toList = .single (.named ⟨[name]⟩ none) :=
    letter.isWritten.ofText_name
  rw [text] at dimension
  exact mem_dimensions_of_runs style letter hp.modulePath dimension

def sizingLetters : Setting := ⟨{ arrays := .typeVariables }, .ofModules []⟩

theorem lettered_array_shape :
    arrayText denseArray ⟨["numpy", "float64"]⟩ [.number 3, .named "n"] [⟨["flags", "c_contiguous"]⟩] =
      "numpy.ndarray[numpy.float64[3, n], flags.c_contiguous]" ∧
    ∃ q, (hintOfText (arrayText denseArray ⟨["numpy", "float64"]⟩ [.number 3, .named "n"]
        [⟨["flags", "c_contiguous"]⟩]).toList).outcome sizingLetters outside =
      (.ok (.type denseArray (some [.type ⟨["tuple"]⟩ (some
          [.type ⟨["typing", "Literal"]⟩ (some [.expression (.value ⟨"3", false⟩)]), .type ⟨["N"]⟩ none]),
        .type ⟨["numpy", "dtype"]⟩ (some [.type ⟨["numpy", "float64"]⟩ none])])), q) ∧
      "N" ∈ q.dimensions := by
  have lettered : ∀ d ∈ [Dimension.number 3, .named "n"], d.IsLettered := by
    rw [forall_mem_cons, forall_mem_singleton]
    constructor
    · intro name same
      cases same
    · intro name same
      cases same
      exact ⟨'n', rfl, rfl⟩
  have short : ∀ d ∈ [Dimension.number 3, .named "n"], d.IsShort := by decide
  have upper : "n".toUpper = "N" := by decide +kernel
  have three : toString (3 : Int) = "3" := rfl
  obtain ⟨q, read, pending⟩ : ∃ q, (hintOfText (arrayText denseArray ⟨["numpy", "float64"]⟩
        [.number 3, .named "n"] [⟨["flags", "c_contiguous"]⟩]).toList).outcome sizingLetters outside =
      (.ok (shapedHint ⟨["numpy", "float64"]⟩ [.number 3, .named "n"]), q) ∧
      ∀ name, .named name ∈ [Dimension.number 3, .named "n"] → name.toUpper ∈ q.dimensions :=
    array_shape_follows_dimensions rfl isOutside_outside (by decide) (cons_ne_nil _ _) lettered
      (by decide)
  rw [shapedHint, shapeHint, if_pos short, map_cons, map_cons, map_nil, dimensionHint,
    dimensionHint, upper, three] at read
  exact ⟨by decide +kernel, q, read, upper ▸ pending "n" (.tail _ (.head _))⟩

/-- The shape of an array is lost if one of its dimensions is too long. -/
theorem long_shape_lost :
    ¬ ∃ q, (hintOfText (arrayText denseArray ⟨["numpy", "int8"]⟩
        [.number (10 ^ Source.maxIntegerDigits)] []).toList).outcome sizingLetters outside =
      (.ok (.type denseArray (some [.type ⟨["tuple"]⟩
          (some [dimensionHint (.number (10 ^ Source.maxIntegerDigits))]),
        .type ⟨["numpy", "dtype"]⟩ (some [.type ⟨["numpy", "int8"]⟩ none])])), q) := by
  have long : ¬ Source.IsShort (10 ^ Source.maxIntegerDigits) := long_pow (by decide)
  generalize (10 : Int) ^ Source.maxIntegerDigits = n at long
  have lettered : ∀ d ∈ [Dimension.number n], d.IsLettered := by
    rw [forall_mem_singleton]
    intro name same
    cases same
  have gives : GivesAt sizingLetters .outside
      (hintOfText (arrayText denseArray ⟨["numpy", "int8"]⟩ [.number n] []).toList)
      (shapedHint ⟨["numpy", "int8"]⟩ [.number n] = ·) :=
    givesAt_shapedText rfl (by decide) (cons_ne_nil _ _) lettered (by decide)
  rintro ⟨q, read⟩
  have same := (gives.only outside (isAt_outside.mpr isOutside_outside).isIn _ q read).1
  rw [shapedHint, shapeHint, if_neg fun short => long (short _ mem_cons_self)] at same
  simp at same

end Inspection

end TypeStubs
