import TypeStubs.Proofs.PlacedHints

/-! How the name of a type without parameters stands in a module, for each style of arrays. Bare element
types and, where arrays have shapes, bare arrays are given parameters. Nothing else is. -/

namespace TypeStubs

variable {name : QualifiedName}

namespace QualifiedName

/-- A letter alone is in upper case. -/
def lettered (name : QualifiedName) : QualifiedName :=
  (name.letter?.map fun letter => ⟨[letter]⟩).getD name

/-- The name that is left in a module. Letters are type variables if the style has them. -/
def shortened (name : QualifiedName) (style : ArrayStyle) (path : QualifiedName) : QualifiedName :=
  if style = .typeVariables then (name.inside path).lettered else name.inside path

def standing (name : QualifiedName) (style : ArrayStyle) (path : QualifiedName) : QualifiedName :=
  if Hint.isBareElementType (name.inside path) none then elementTypeName
  else ((name.shortened style path).qualifyTyping false).plainCollection

/-- The parameters that a type without parameters is given. -/
def given (name : QualifiedName) (style : ArrayStyle) (path : QualifiedName) : Option (List Hint) :=
  let any := Hint.type ((wellKnownName "Any" path).qualifyTyping false) none
  if Hint.isBareElementType (name.inside path) none then some [any]
  else if style = .typeVariables ∧ name.inside path = denseArray then
    some [any, .type elementTypeName (some [any])]
  else none

theorem lettered_cases (name : QualifiedName) :
    name.lettered = name ∨ ∃ letter, name.letter? = some letter ∧ name.lettered = ⟨[letter]⟩ := by
  unfold lettered
  cases name.letter? with
  | none => exact .inl rfl
  | some letter => exact .inr ⟨letter, rfl, rfl⟩

theorem lettered_eq_denseArray : name.lettered = denseArray ↔ name = denseArray := by
  constructor
  · intro h
    rcases lettered_cases name with same | ⟨letter, -, short⟩
    · rw [← same, h]
    · rw [short] at h
      cases congrArg length h
  · rintro rfl
    rfl

theorem Importable.qualifyTyping (h : name.Importable) (b : Bool) :
    (name.qualifyTyping b).Importable := by
  have typing : startsModule "typing" = true := by decide
  unfold QualifiedName.qualifyTyping
  split
  · split
    · refine .inr ?_
      simp only [head, List.headD_cons]
      split
      · decide
      · exact typing
    · split
      · exact .inr typing
      · split
        · exact .inr typing
        · exact h
  · exact h

theorem Importable.plainCollection (h : name.Importable) : name.plainCollection.Importable := by
  unfold QualifiedName.plainCollection
  split
  · split
    · exact .inl (Nat.le_refl 1)
    · exact h
  · exact h

/-- A name whose every end can be looked for can be looked for wherever it stands. -/
theorem importable_standing
    (h : ∀ k ≤ name.length, (⟨name.parts.drop k⟩ : QualifiedName).Importable) (style : ArrayStyle)
    (path : QualifiedName) : (name.standing style path).Importable := by
  have inside : (name.inside path).Importable := importable_inside path h
  have short : (name.shortened style path).Importable := by
    unfold shortened
    split
    · rcases lettered_cases (name.inside path) with same | ⟨letter, -, single⟩
      · rwa [same]
      · rw [single]
        exact .inl (Nat.le_refl 1)
    · exact inside
  unfold standing
  split
  · decide
  · exact (short.qualifyTyping false).plainCollection

end QualifiedName

theorem Hint.written_name (name : QualifiedName) :
    (Hint.type name none).withFixedSize?.map (·.withoutSparseParameters.qualifyTyping.plainCollection) =
      some (.type (name.qualifyTyping false).plainCollection none) := by
  simp only [withFixedSize?, Option.map_some, withoutSparseParameters, ite_self]
  rfl

namespace Inspection

variable {s : Setting} {site : Site}

theorem givesAt_letterVariable_lettered (name : QualifiedName) :
    GivesAt s site (letterVariable name) (name.lettered = ·) := by
  unfold letterVariable QualifiedName.lettered
  cases name.letter? with
  | none => exact .pure _
  | some letter =>
    exact (givesAt_addDimension letter).followedBy (.pure _)

theorem givesAt_wellKnownType_any :
    GivesAt s site (wellKnownType "Any") (Hint.type (wellKnownName "Any" site.path) none = ·) := by
  have any : (wellKnownName "Any" site.path).Importable := importable_wellKnownName _ (by decide)
  exact (givesAt_wellKnown any).followedBy (.pure _)

theorem givesAt_styledArray_elementType (any : QualifiedName) :
    GivesAt s site (styledArray (.type elementTypeName (some [.type any none])))
      (Hint.type elementTypeName (some [.type any none]) = ·) := by
  have other : elementTypeName ≠ denseArray := by decide
  have dense : elementTypeName ∉ sparseArrays := by decide
  refine .of_outcome fun p _ => ?_
  rw [styledArray, bind_of_ok (outcome_options s p)]
  cases s.options.arrays with
  | asWritten => rfl
  | annotated => simp [annotatedArray, other, dense]
  | typeVariables => rfl
  | bare => simp [Hint.withoutArrayParameters, other]

theorem givesAt_styledArray_name (name : QualifiedName) :
    GivesAt s site (styledArray (.type name none))
      (Hint.type (if s.options.arrays = .typeVariables then name.lettered else name)
        (if s.options.arrays = .typeVariables ∧ name = denseArray then
          some [.type (wellKnownName "Any" site.path) none,
            .type elementTypeName (some [.type (wellKnownName "Any" site.path) none])]
        else none) = ·) := by
  refine givesAt_options ?_
  by_cases style : s.options.arrays = .typeVariables
  · simp only [style, true_and, if_true]
    rw [variableArray]
    refine (givesAt_letterVariable_lettered name).followedBy ?_
    by_cases dense : name = denseArray
    · have array : name.lettered = denseArray := QualifiedName.lettered_eq_denseArray.mpr dense
      rw [if_pos array, if_pos dense, array]
      have shape : GivesAt s site (shapedArray none) (some [.type (wellKnownName "Any" site.path) none,
          .type elementTypeName (some [.type (wellKnownName "Any" site.path) none])] = ·) :=
        givesAt_wellKnownType_any.followedBy (givesAt_wellKnownType_any.followedBy (.pure _))
      exact shape.followedBy (.pure _)
    · rw [if_neg (mt QualifiedName.lettered_eq_denseArray.mp dense), if_neg dense]
      exact .pure _
  · simp only [style, false_and, if_false]
    cases arrays : s.options.arrays with
    | asWritten => exact .pure _
    | annotated => exact .pure _
    | typeVariables => exact absurd arrays style
    | bare =>
      simp only [Hint.withoutArrayParameters, ite_self]
      exact .pure _

/-- At a site the name of a type is read as the name that it has there, if this name can be reached. -/
theorem givesAt_refine_name (name : QualifiedName) :
    GivesAt s site (refine (.type name none)) fun hint =>
      Hint.type (name.standing s.options.arrays site.path) (name.given s.options.arrays site.path) = hint ∧
        site.Reaches s.world (name.standing s.options.arrays site.path) := by
  have reached (name' : QualifiedName) (ps : Option (List Hint)) (hint : Hint) :
      some (Hint.type name' ps) = some hint ∧ hint.Reachable s.world site ↔
        Hint.type name' ps = hint ∧ site.Reaches s.world name' := by
    rw [Option.some.injEq]
    exact and_congr_right fun same => same ▸ Iff.rfl
  cases bare : Hint.isBareElementType (name.inside site.path) none with
  | true =>
    have start : ((Hint.type name none).inside site.path).withQualifiedFlags.withElementType site.path =
        .type elementTypeName (some [.type (wellKnownName "Any" site.path) none]) := by
      simp only [Hint.inside, Hint.withQualifiedFlags, Hint.withElementType, bare, if_true]
    rw [QualifiedName.standing, QualifiedName.given, bare, if_pos rfl, if_pos rfl]
    exact (givesAt_refine_of_styled start (givesAt_styledArray_elementType _)).iff fun hint =>
      reached elementTypeName _ hint
  | false =>
    have start : ((Hint.type name none).inside site.path).withQualifiedFlags.withElementType site.path =
        .type (name.inside site.path) none := Hint.withElementType_of_not_bare bare site.path
    rw [QualifiedName.standing, QualifiedName.given, bare, if_neg Bool.false_ne_true,
      if_neg Bool.false_ne_true]
    refine (givesAt_refine_of_styled start (givesAt_styledArray_name _)).iff fun hint => ?_
    rw [← reached, QualifiedName.shortened]
    by_cases array : s.options.arrays = .typeVariables ∧ name.inside site.path = denseArray
    · simp only [array.1, array.2, and_self, if_true]
      rfl
    · rw [if_neg array, if_neg array, Hint.written_name]

end Inspection

end TypeStubs
