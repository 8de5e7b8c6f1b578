import TypeStubs.Proofs.DisplayedTypes
import TypeStubs.Proofs.EnumPlaces
import TypeStubs.Proofs.TypeVariables
import TypeStubs.Proofs.WrittenValues

/-! The texts of array types, and how their parts are read outside of every module, whatever style of
arrays the options ask for. -/

namespace TypeStubs

open List

variable {d : Dimension} {dims : List Dimension} {flags : List QualifiedName}

/-! Integers. -/

theorem dropWhile_eq_self {p : Char → Bool} {cs : List Char} (h : ∀ c ∈ cs, p c = false) :
    cs.dropWhile p = cs := by
  cases cs with
  | nil => rfl
  | cons c cs => rw [dropWhile_cons, h c mem_cons_self, if_neg Bool.false_ne_true]

theorem readInteger?_toString {n : Int} (short : Source.IsShort n) :
    readInteger? (toString n).toList = some n := by
  have margin : ∀ c ∈ "-0123456789".toList, isMargin c = false := forall_of_all (by decide)
  have chars : ∀ c ∈ (toString n).toList, isMargin c = false :=
    fun c hc => margin c (Source.mem_toString hc)
  have natural : readNatural? (Nat.toDigits 10 n.natAbs) = some n.natAbs := by
    rw [readNatural?_digits Nat.toDigits_ne_nil (Source.isDigit_toDigits _) short,
      Binary.natOfDigits_toDigits]
  rw [readInteger?, dropWhile_eq_self chars,
    dropWhile_eq_self fun c hc => chars c (mem_reverse.mp hc), reverse_reverse,
    Source.toList_toString, DecimalText.signed]
  by_cases negative : n < 0
  · rw [if_pos (decide_eq_true negative)]
    simp only [natural]
    exact congrArg some (by omega : -(n.natAbs : Int) = n)
  · have digit := Source.isDigit_toDigits n.natAbs
    rw [if_neg (by simpa using negative)]
    split
    · rename_i cs shape
      exact absurd (digit '-' (shape ▸ mem_cons_self)) (by decide)
    · rename_i cs shape
      exact absurd (digit '+' (shape ▸ mem_cons_self)) (by decide)
    · rw [natural]
      exact congrArg some (by omega : (n.natAbs : Int) = n)

theorem isSolid_integer (n : Int) : IsSolid (toString n).toList := by
  have plain : ∀ c ∈ "-0123456789".toList,
      isQuote c = false ∧ closer? c = none ∧ c ∉ ['|'] := forall_of_all (by decide)
  refine ⟨fun c hc => plain c (Source.mem_toString hc),
    fun c hc => isBlank_of_mem_integer (Source.mem_toString hc), ?_⟩
  intro first
  exact absurd (Source.mem_toString (mem_of_mem_head? first)) (by decide)

/-! Names of a single letter. -/

def IsLetter (text : String) : Prop := ∃ c : Char, c.isAlpha = true ∧ text = String.singleton c

def letters : List Char := "abcdefghijklmnopqrstuvwxyzABCDEFGHIJKLMNOPQRSTUVWXYZ".toList

theorem mem_letters {c : Char} (h : c.isAlpha = true) : c ∈ letters := by
  have alphabet : ∀ n < 128, (Char.ofNat n).isAlpha = true → Char.ofNat n ∈ letters := by
    decide +kernel
  have listed := alphabet c.toNat (toNat_lt_of_isAlpha h)
  rw [Char.ofNat_toNat] at listed
  exact listed h

theorem toUpper_singleton (c : Char) :
    (String.singleton c).toUpper = String.singleton c.toUpper := by
  rw [← String.toList_inj, String.toUpper, String.toList_map]
  simp

namespace IsLetter

variable {text : String} (h : IsLetter text)

include h

theorem letter? : (⟨[text]⟩ : QualifiedName).letter? = some text.toUpper := by
  obtain ⟨c, -, rfl⟩ := h
  simp [QualifiedName.letter?, toUpper_singleton]

theorem upper : IsLetter text.toUpper := by
  have all : ∀ c ∈ letters, c.toUpper.isAlpha = true := forall_of_all (by decide +kernel)
  obtain ⟨c, alpha, rfl⟩ := h
  exact ⟨c.toUpper, all c (mem_letters alpha), toUpper_singleton c⟩

theorem isWritten : (⟨[text]⟩ : QualifiedName).IsWritten := by
  have all : ∀ c ∈ letters, (⟨[String.singleton c]⟩ : QualifiedName).IsWritten :=
    forall_of_all (by decide +kernel)
  obtain ⟨c, alpha, rfl⟩ := h
  exact all c (mem_letters alpha)

theorem qualifyTyping : (⟨[text]⟩ : QualifiedName).qualifyTyping false = ⟨[text]⟩ := by
  have words : ∀ word ∈ typingNames ++ ["function", "object", "handle"], word.toList.length ≠ 1 := by
    decide +kernel
  obtain ⟨c, -, rfl⟩ := h
  have other : String.singleton c ∉ typingNames ++ ["function", "object", "handle"] := by
    intro hin
    exact words _ hin (by simp)
  simp only [mem_append, mem_cons, not_mem_nil, or_false, not_or] at other
  simp [QualifiedName.qualifyTyping, other]

end IsLetter

/-! Dimensions. -/

namespace Dimension

variable {accepts : String → Bool}

/-- The dimension as it stands behind the element type of an array. -/
def text : Dimension → String
  | .number n => toString n
  | .named name => name

/-- The dimension with another name, if it has a name. -/
def renamed (rename : String → String) : Dimension → Dimension
  | .number n => .number n
  | .named name => .named (rename name)

/-- The dimension is a name, or an integer with few enough digits to be read. -/
def IsShort : Dimension → Prop
  | .number n => Source.IsShort n
  | .named _ => True

instance (d : Dimension) : Decidable d.IsShort := by
  cases d with
  | number n => exact inferInstanceAs (Decidable (Source.IsShort n))
  | named name => exact inferInstanceAs (Decidable True)

/-- The hint that a dimension is read as. An integer that is too long is invalid. -/
def hint : Dimension → Hint
  | .number n => .expression (.ofText (toString n).toList)
  | .named name => .type ⟨[name]⟩ none

def IsLettered (d : Dimension) : Prop := ∀ name, d = .named name → IsLetter name

theorem dimension?_hint (h : ∀ name, d = .named name → accepts name = true) :
    d.hint.dimension? accepts = if d.IsShort then some d else none := by
  cases d with
  | number n =>
    rw [hint, Expression.ofText_integer]
    by_cases short : Source.IsShort n
    · rw [if_pos short, Hint.dimension?, readInteger?_toString short, Option.map_some, if_pos]
      exact short
    · rw [if_neg short, Hint.dimension?, if_neg]
      exact short
  | named name =>
    have display : (Hint.type ⟨[name]⟩ none).display = name := Hint.display_name _
    rw [hint, Hint.dimension?, display, if_pos (h name rfl), if_pos]
    trivial

theorem dimensions?_hints (h : ∀ name, .named name ∈ dims → accepts name = true) :
    Hint.dimensions? accepts (dims.map hint) =
      if ∀ d ∈ dims, d.IsShort then some dims else none := by
  induction dims with
  | nil => rfl
  | cons d dims ih =>
    have first := dimension?_hint fun name hd => h name (hd ▸ mem_cons_self)
    have others := ih fun name hd => h name (.tail _ hd)
    simp only [map_cons, Hint.dimensions?, first, others, forall_mem_cons]
    by_cases hd : d.IsShort
    · by_cases hds : ∀ d ∈ dims, d.IsShort
      · rw [if_pos hd, if_pos hds, if_pos ⟨hd, hds⟩]
        rfl
      · have long : ¬ (d.IsShort ∧ ∀ d ∈ dims, d.IsShort) := fun h => hds h.2
        rw [if_pos hd, if_neg hds, if_neg long]
        rfl
    · have long : ¬ (d.IsShort ∧ ∀ d ∈ dims, d.IsShort) := fun h => hd h.1
      rw [if_neg hd, if_neg long]
      rfl

theorem IsLettered.renamed {rename : String → String} (h : d.IsLettered)
    (letters : ∀ name, IsLetter name → IsLetter (rename name)) : (d.renamed rename).IsLettered := by
  cases d with
  | number n =>
    intro name same
    cases same
  | named name =>
    intro name' same
    cases same
    exact letters name (h name rfl)

theorem map_renamed_self (dims : List Dimension) : dims.map (·.renamed fun name => name) = dims := by
  refine map_id'' (fun d => ?_) dims
  cases d with
  | number n => rfl
  | named name => rfl

theorem isShort_renamed (rename : String → String) (d : Dimension) :
    (d.renamed rename).IsShort ↔ d.IsShort := by
  cases d with
  | number n => exact Iff.rfl
  | named name => exact Iff.rfl

theorem qualifyTyping_hint (h : d.IsLettered) : d.hint.qualifyTyping = d.hint := by
  cases d with
  | number n => rw [hint, Hint.qualifyTyping]
  | named name => rw [hint, Hint.qualifyTyping, (h name rfl).qualifyTyping]

theorem closed_text (h : d.IsLettered) : Closed [',', ']', '|'] d.text.toList := by
  cases d with
  | number n => exact closed_integer n
  | named name =>
    have written := (h name rfl).isWritten.1.closed (Subset.refl _)
    exact written

end Dimension

/-! The texts of array types. -/

def QualifiedName.withParameters (name : QualifiedName) (parameters : List String) : String :=
  name.text ++ "[" ++ joinWith ", " parameters ++ "]"

/-- The text of an array type: the element type with the dimensions behind it, and then the flags. -/
def arrayText (array element : QualifiedName) (dims : List Dimension) (flags : List QualifiedName) :
    String :=
  array.withParameters
    (element.withParameters (dims.map Dimension.text) :: flags.map QualifiedName.text)

namespace QualifiedName

theorem toList_withParameters (name : QualifiedName) (parameters : List String) :
    (name.withParameters parameters).toList = name.text.toList ++
      '[' :: (intercalate ", ".toList (parameters.map String.toList) ++ [']']) := by
  have joined : (joinWith ", " parameters).toList =
      intercalate ", ".toList (parameters.map String.toList) := String.toList_intercalate
  simp [withParameters, joined]

namespace IsWritten

variable {name : QualifiedName} (written : name.IsWritten) {parameters : List String}

include written

theorem closed : Closed [',', ']', '|'] name.text.toList := written.1.closed (Subset.refl _)

theorem closed_withParameters (closed : ∀ t ∈ parameters, Closed [',', ']', '|'] t.toList) :
    Closed [',', ']', '|'] (name.withParameters parameters).toList := by
  have inside : Closed [']'] (intercalate ", ".toList (parameters.map String.toList)) :=
    closed_intercalate (.of_plain (forall_of_all (by decide)))
      (forall_mem_map.mpr fun t ht => (closed t ht).mono (by simp))
  rw [toList_withParameters]
  exact written.closed.append (inside.bracketed _)

theorem ofText_name : HintSyntax.ofText name.text.toList = .single (.named name none) := by
  rw [HintSyntax.ofText_of_closed (written.closed.mono (by simp)), written.ofText]

theorem ofText_withParameters (hne : parameters ≠ [])
    (closed : ∀ t ∈ parameters, Closed [',', ']', '|'] t.toList) :
    HintSyntax.ofText (name.withParameters parameters).toList =
      .single (.named name (some (parameters.map fun t => HintSyntax.ofText t.toList))) := by
  have whole := written.closed_withParameters closed
  obtain ⟨t, ts, rfl⟩ := exists_cons_of_ne_nil hne
  have pieces : ∀ x ∈ t.toList :: ts.map String.toList, Closed [','] x := by
    rw [← map_cons]
    exact forall_mem_map.mpr fun t ht => (closed t ht).mono (by simp)
  rw [HintSyntax.ofText_of_closed (whole.mono (by simp)), toList_withParameters, map_cons,
    written.ofText_bracketed pieces, map_cons, map_map, map_cons]
  rfl

end IsWritten

end QualifiedName

theorem ofText_arrayText {array element : QualifiedName}
    (written : array.IsWritten) (number : element ∈ numberTypes) (nonempty : dims ≠ [])
    (lettered : ∀ d ∈ dims, d.IsLettered) (flagged : ∀ f ∈ flags, f ∈ arrayFlags) :
    HintSyntax.ofText (arrayText array element dims flags).toList =
      .single (.named array (some
        (.single (.named element (some (dims.map fun d => .ofText d.text.toList))) ::
          flags.map fun f => .single (.named f none)))) := by
  have numbers : ∀ name ∈ numberTypes, name.IsWritten := QualifiedName.areWritten (by decide +kernel)
  have marks : ∀ name ∈ arrayFlags, name.IsWritten := QualifiedName.areWritten (by decide)
  have dimsClosed : ∀ t ∈ dims.map Dimension.text, Closed [',', ']', '|'] t.toList :=
    forall_mem_map.mpr fun d hd => Dimension.closed_text (lettered d hd)
  have partsClosed : ∀ t ∈ element.withParameters (dims.map Dimension.text) ::
      flags.map QualifiedName.text, Closed [',', ']', '|'] t.toList := by
    refine forall_mem_cons.mpr ⟨(numbers _ number).closed_withParameters dimsClosed, ?_⟩
    exact forall_mem_map.mpr fun f hf => (marks f (flagged f hf)).closed
  have flagTexts : (flags.map QualifiedName.text).map (fun t => HintSyntax.ofText t.toList) =
      flags.map fun f => .single (.named f none) := by
    rw [map_map]
    exact map_congr_left fun f hf => (marks f (flagged f hf)).ofText_name
  rw [arrayText, written.ofText_withParameters (cons_ne_nil _ _) partsClosed, map_cons,
    (numbers _ number).ofText_withParameters (by simpa using nonempty) dimsClosed, map_map,
    flagTexts]
  rfl

/-- A name of several parts that neither the rules of reading nor the styles of arrays are about. -/
structure QualifiedName.IsOrdinary (name : QualifiedName) : Prop where
  several : 2 ≤ name.length
  outside : name.head ∉ ["typing", "dtype", "scipy"]
  notArray : name ≠ denseArray
  notElement : name.parts.take 2 ≠ elementTypeName.parts
  starts : startsModule name.head = true

instance (name : QualifiedName) : Decidable name.IsOrdinary :=
  decidable_of_iff (2 ≤ name.length ∧ name.head ∉ ["typing", "dtype", "scipy"] ∧ name ≠ denseArray ∧
      name.parts.take 2 ≠ elementTypeName.parts ∧ startsModule name.head = true)
    ⟨fun ⟨several, outside, notArray, notElement, starts⟩ =>
      ⟨several, outside, notArray, notElement, starts⟩,
      fun h => ⟨h.several, h.outside, h.notArray, h.notElement, h.starts⟩⟩

theorem isOrdinary_numberTypes : ∀ name ∈ numberTypes, name.IsOrdinary := by decide

theorem isOrdinary_arrayFlags : ∀ name ∈ arrayFlags, name.IsOrdinary := by decide

namespace QualifiedName.IsOrdinary

variable {name : QualifiedName} (h : name.IsOrdinary)

include h

theorem shape : ∃ a b rest, name = ⟨a :: b :: rest⟩ ∧ a ≠ "typing" ∧ a ≠ "dtype" ∧ a ≠ "scipy" := by
  have outside := h.outside
  obtain ⟨_ | ⟨a, _ | ⟨b, rest⟩⟩⟩ := name
  · exact absurd h.several (by decide)
  · exact absurd h.several (Nat.not_succ_le_self 1)
  · simp only [head, headD_cons, mem_cons, not_mem_nil, or_false, not_or] at outside
    exact ⟨a, b, rest, rfl, outside⟩

protected theorem qualifyTyping (b : Bool) : name.qualifyTyping b = name :=
  qualifyTyping_of_length (fun one => absurd h.several (by omega)) b

protected theorem plainCollection : name.plainCollection = name := by
  obtain ⟨a, b, rest, rfl, typing, -⟩ := h.shape
  unfold QualifiedName.plainCollection
  split
  · rename_i same
    exact absurd (List.cons.inj same).1 typing
  · rfl

theorem not_bare (parameters : Option (List Hint)) :
    Hint.isBareElementType name parameters = false := by
  have element := h.notElement
  obtain ⟨a, b, rest, rfl, -, dtype, -⟩ := h.shape
  simp only [Hint.isBareElementType, element, Bool.and_eq_false_iff]
  exact .inl (by simpa using dtype)

theorem not_sparse : name.parts.take 2 ≠ ["scipy", "sparse"] := by
  obtain ⟨a, b, rest, rfl, -, -, scipy⟩ := h.shape
  simp [scipy]

theorem not_mem_sparseArrays : name ∉ sparseArrays := by
  have sparse : ∀ array ∈ sparseArrays, array.parts.take 2 = ["scipy", "sparse"] := by decide
  exact fun hin => h.not_sparse (sparse name hin)

end QualifiedName.IsOrdinary

/-! Reading outside of every module. -/

namespace Inspection

variable {s : Setting} {site : Site} {α β γ : Type} {name : QualifiedName}

theorem givesAt_wellKnown_of_eq {text : String}
    (same : wellKnownName text site.path = name) (importable : name.Importable) :
    GivesAt s site (wellKnown text) (name = ·) := by
  subst same
  exact givesAt_wellKnown importable

theorem givesAt_wellKnownType {text : String}
    (same : wellKnownName text site.path = name) (importable : name.Importable) :
    GivesAt s site (wellKnownType text) (.type name none = ·) :=
  (givesAt_wellKnown_of_eq same importable).followedBy (.pure _)

theorem givesAt_single {t : TypeSyntax} {raw hint : Hint}
    (type : GivesAt s site (typeOfSyntax t) (raw = ·)) (refined : GivesAt s site (refine raw) (hint = ·)) :
    GivesAt s site (hintOfSyntax (.single t)) (hint = ·) := by
  rw [hintOfSyntax]
  exact type.followedBy refined

theorem givesAt_parameters (name : QualifiedName) {hs : List HintSyntax} {ps : List Hint}
    (h : GivesAt s site (hintsOfSyntax hs) (ps = ·)) :
    GivesAt s site (typeOfSyntax (.named name (some hs))) (.type name (some ps) = ·) := by
  rw [typeOfSyntax]
  exact h.followedBy (.pure _)

theorem givesAt_hintsOfSyntax_map {texts : List γ} {syntaxOf : γ → HintSyntax} {hintOf : γ → Hint}
    (h : ∀ t ∈ texts, GivesAt s site (hintOfSyntax (syntaxOf t)) (hintOf t = ·)) :
    GivesAt s site (hintsOfSyntax (texts.map syntaxOf)) (texts.map hintOf = ·) := by
  induction texts with
  | nil => exact .pure []
  | cons t texts ih =>
    obtain ⟨first, others⟩ := forall_mem_cons.mp h
    rw [map_cons, hintsOfSyntax]
    exact first.followedBy ((ih others).followedBy (.pure _))

theorem givesAt_styledArray_ordinary (h : name.IsOrdinary) (parameters : Option (List Hint)) :
    GivesAt s site (styledArray (.type name parameters)) (.type name parameters = ·) := by
  have dense := h.notArray
  have sparse := h.not_mem_sparseArrays
  refine givesAt_options ?_
  cases s.options.arrays with
  | asWritten => exact .pure _
  | annotated =>
    simp only [annotatedArray]
    split
    · rename_i element dimensions flags same
      cases same
      rw [if_neg (by simp [dense, sparse])]
      exact .pure _
    · exact .pure _
  | typeVariables =>
    have letter : name.letter? = none :=
      QualifiedName.letter?_of_length fun one => absurd h.several (by omega)
    simp only [variableArray, letterVariable, letter, pure_bind, if_neg dense]
    exact .pure _
  | bare =>
    simp only [Hint.withoutArrayParameters, if_neg dense]
    exact .pure _

theorem givesAt_refine_ordinary (h : name.IsOrdinary) {parameters : Option (List Hint)}
    (qualified : (Hint.type name parameters).qualifyTyping = .type name parameters) :
    GivesAt s .outside (refine (.type name parameters)) (.type name parameters = ·) := by
  have entered : (((Hint.type name parameters).inside Site.outside.path).withQualifiedFlags.withElementType
      Site.outside.path) = .type name parameters := by
    have inside : (Hint.type name parameters).inside Site.outside.path = .type name parameters :=
      congrArg (Hint.type · parameters) (QualifiedName.inside_root name)
    have flagged : (Hint.type name parameters).withQualifiedFlags = .type name parameters := by
      cases parameters with
      | none => rfl
      | some ps => rw [Hint.withQualifiedFlags, if_neg h.notArray]
    rw [inside, flagged, Hint.withElementType, h.not_bare, if_neg Bool.false_ne_true]
  have left : (Hint.type name parameters).withoutSparseParameters.qualifyTyping.plainCollection =
      .type name parameters := by
    rw [Hint.withoutSparseParameters, if_neg h.not_sparse, qualified, Hint.plainCollection,
      h.plainCollection]
  exact givesAt_refine_styled entered (givesAt_styledArray_ordinary h parameters) rfl left
    (.inr (.inr h.starts))

theorem letter_entering {name : String} (h : IsLetter name) :
    ((Hint.type ⟨[name]⟩ none).inside Site.outside.path).withQualifiedFlags.withElementType
      Site.outside.path = .type ⟨[name]⟩ none := by
  have inside : (⟨[name]⟩ : QualifiedName).inside Site.outside.path = ⟨[name]⟩ :=
    QualifiedName.inside_root _
  have other : name ≠ "dtype" := by
    obtain ⟨c, -, rfl⟩ := h
    intro same
    exact absurd (congrArg (·.toList.length) same) (by simp)
  rw [Hint.inside, inside, Hint.withQualifiedFlags, Hint.withElementType, Hint.isBareElementType]
  · simp [other, elementTypeName]
  · simp

theorem givesAt_refine_letter {name name' : String} (h : IsLetter name) (h' : IsLetter name')
    (style : GivesAt s .outside (styledArray (.type ⟨[name]⟩ none)) (.type ⟨[name']⟩ none = ·)) :
    GivesAt s .outside (refine (.type ⟨[name]⟩ none)) (.type ⟨[name']⟩ none = ·) := by
  have leaving : (Hint.type ⟨[name']⟩ none).withoutSparseParameters.qualifyTyping.plainCollection =
      .type ⟨[name']⟩ none := by
    rw [Hint.withoutSparseParameters, if_neg (by simp), Hint.qualifyTyping, h'.qualifyTyping,
      Hint.plainCollection, QualifiedName.plainCollection]
    simp
  exact givesAt_refine_styled (letter_entering h) style rfl leaving (.inr (.inl (Nat.le_refl 1)))

theorem givesAt_integer (n : Int) : GivesAt s site (hintOfSyntax (.ofText (toString n).toList))
    (.expression (.ofText (toString n).toList) = ·) := by
  have solid := isSolid_integer n
  have value : HintSyntax.ofText (toString n).toList = .single (.value (toString n).toList) := by
    rw [HintSyntax.ofText_of_closed ((closed_integer n).mono (by simp)), ofText_integer]
  have marked : GivesAt s site (markSafe (Expression.ofText (toString n).toList))
      (Expression.ofText (toString n).toList = ·) := by
    rw [Expression.ofText_integer]
    split
    · exact .pure _
    · exact .pure _
  have sized : (Hint.expression (.ofText (toString n).toList)).withFixedSize? =
      some (.expression (.ofText (toString n).toList)) := by
    rw [Expression.ofText_integer]
    split
    · simp only [Hint.withFixedSize?, fixedSizeText?_integer]
    · rfl
  have expression : GivesAt s site (expressionOfText (toString n).toList)
      (Expression.ofText (toString n).toList = ·) := by
    rw [solid.expressionOfText]
    exact (givesAt_plainExpression _).followedBy marked
  have type : GivesAt s site (typeOfSyntax (.value (toString n).toList))
      (.expression (.ofText (toString n).toList) = ·) := by
    rw [typeOfSyntax]
    exact expression.followedBy (.pure _)
  exact value ▸ givesAt_single type (givesAt_refine_expression sized)

variable {rename : String → String}

theorem givesAt_dimension (lettered : d.IsLettered)
    (letters : ∀ name, IsLetter name → IsLetter (rename name)) (names : ∀ name, IsLetter name →
      GivesAt s .outside (styledArray (.type ⟨[name]⟩ none)) (.type ⟨[rename name]⟩ none = ·)) :
    GivesAt s .outside (hintOfSyntax (.ofText d.text.toList)) ((d.renamed rename).hint = ·) := by
  cases d with
  | number n => exact givesAt_integer n
  | named name =>
    have letter := lettered name rfl
    have text : HintSyntax.ofText name.toList = .single (.named ⟨[name]⟩ none) :=
      letter.isWritten.ofText_name
    rw [Dimension.text, text, hintOfSyntax, typeOfSyntax, pure_bind]
    exact givesAt_refine_letter letter (letters name letter) (names name letter)

def arrayParts (element : QualifiedName) (dims : List Dimension) (flags : List QualifiedName) :
    List Hint :=
  .type element (some (dims.map Dimension.hint)) :: flags.map (.type · none)

theorem givesAt_arrayText {array element : QualifiedName}
    {hint : Hint} (written : array.IsWritten) (number : element ∈ numberTypes)
    (nonempty : dims ≠ []) (lettered : ∀ d ∈ dims, d.IsLettered)
    (flagged : ∀ f ∈ flags, f ∈ arrayFlags)
    (letters : ∀ name, IsLetter name → IsLetter (rename name)) (names : ∀ name, IsLetter name →
      GivesAt s .outside (styledArray (.type ⟨[name]⟩ none)) (.type ⟨[rename name]⟩ none = ·))
    (whole : GivesAt s .outside
      (refine (.type array (some (arrayParts element (dims.map (·.renamed rename)) flags)))) (hint = ·)) :
    GivesAt s .outside (hintOfText (arrayText array element dims flags).toList) (hint = ·) := by
  have dimsRead : GivesAt s .outside (hintsOfSyntax (dims.map fun d => .ofText d.text.toList))
      ((dims.map (·.renamed rename)).map Dimension.hint = ·) := by
    rw [map_map]
    exact givesAt_hintsOfSyntax_map fun d hd => givesAt_dimension (lettered d hd) letters names
  have flagsRead : GivesAt s .outside (hintsOfSyntax (flags.map fun f => .single (.named f none)))
      (flags.map (.type · none) = ·) := by
    refine givesAt_hintsOfSyntax_map fun f hf => ?_
    have ordinary := isOrdinary_arrayFlags f (flagged f hf)
    rw [hintOfSyntax, typeOfSyntax, pure_bind]
    exact givesAt_refine_ordinary ordinary (by rw [Hint.qualifyTyping, ordinary.qualifyTyping])
  have ordinary := isOrdinary_numberTypes element number
  have qualified : Hint.qualifyTypingAll ((dims.map (·.renamed rename)).map Dimension.hint) =
      (dims.map (·.renamed rename)).map Dimension.hint := by
    rw [Hint.qualifyTypingAll_eq_iff, map_map]
    exact forall_mem_map.mpr fun d hd =>
      Dimension.qualifyTyping_hint ((lettered d hd).renamed letters)
  have elementRead := givesAt_single (givesAt_parameters element dimsRead)
    (givesAt_refine_ordinary ordinary (by rw [Hint.qualifyTyping, ordinary.qualifyTyping, qualified]))
  rw [hintOfText, ofText_arrayText written number nonempty lettered flagged]
  refine givesAt_single (givesAt_parameters array ?_) whole
  rw [hintsOfSyntax]
  exact elementRead.followedBy (flagsRead.followedBy (.pure _))

end Inspection

end TypeStubs
