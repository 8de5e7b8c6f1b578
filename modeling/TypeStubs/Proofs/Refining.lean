import TypeStubs.Proofs.Runs

/-! What a hint becomes when it is made fit for a module. The imports and reports on the way do not
decide about it: it depends on the hint and on the path of the module alone. -/

namespace TypeStubs

open List Option Hint

variable {name path : QualifiedName} {h hint hint' : Hint}

def QualifiedName.inside (name path : QualifiedName) : QualifiedName := (path.dropBase? name).getD name

/-- The name of a type that every stub may use, as it stands in the module with a path. -/
def wellKnownName (text : String) (path : QualifiedName) : QualifiedName :=
  (((QualifiedName.ofText text).inside path).qualifyTyping false).plainCollection

/-- The name of the union of types that are written with bars between them, as it stands in the module
with a path. It is empty inside what has this name itself. -/
def unionName (path : QualifiedName) : QualifiedName :=
  if path = ⟨["typing", "Union"]⟩ then ⟨[]⟩ else ⟨["typing", "Union"]⟩

def integers? : List (List Char) → Option (List Dimension)
  | [] => some []
  | text :: texts =>
    match readInteger? text with
    | some n => (integers? texts).map (.number n :: ·)
    | none => none

namespace Hint

def isFlag : Hint → Bool
  | .type name _ => arrayFlags.contains name
  | .expression _ => false

def inside (path : QualifiedName) : Hint → Hint
  | .type name parameters => .type (name.inside path) parameters
  | hint => hint

def withElementType (path : QualifiedName) : Hint → Hint
  | .type name parameters =>
    if isBareElementType name parameters then
      .type elementTypeName (some [.type (wellKnownName "Any" path) none])
    else .type name parameters
  | hint => hint

def withFixedSize? : Hint → Option Hint
  | .expression (.value v) =>
    match Inspection.fixedSizeText? v.text with
    | none => some (.expression (.value v))
    | some inside => (integers? (splitAtChar ',' inside)).map fun dims =>
      .expression (.value (Value.mk (ArraySize.fixed dims).text false).withoutAddresses)
  | hint => some hint

def refined? (path : QualifiedName) (hint : Hint) : Option Hint :=
  ((hint.inside path).withQualifiedFlags.withElementType path).withFixedSize?.map
    (·.withoutSparseParameters.qualifyTyping.plainCollection)

end Hint

namespace QualifiedName

theorem qualifyTyping_of_length (h : name.length ≠ 1) (b : Bool) : name.qualifyTyping b = name := by
  unfold qualifyTyping
  split
  · rename_i word hw
    simp [length, hw] at h
  · rfl

theorem qualifyTyping_idem (name : QualifiedName) (b : Bool) :
    (name.qualifyTyping b).qualifyTyping b = name.qualifyTyping b := by
  by_cases h : (name.qualifyTyping b).length = 1
  · have same : name.qualifyTyping b = name := by
      unfold qualifyTyping at h ⊢
      split
      · rename_i word hw
        simp only [hw] at h
        split at h
        · cases h
        · rename_i h₁
          rw [if_neg h₁]
          split at h
          · cases h
          · rename_i h₂
            rw [if_neg h₂]
            split at h
            · cases h
            · rename_i h₃
              rw [if_neg h₃]
      · rfl
    rw [same, same]
  · exact qualifyTyping_of_length h b

theorem qualifyTyping_collection {word : String} (h : word ∈ collectionNames) (b : Bool) :
    (⟨[word.map Char.toLower]⟩ : QualifiedName).qualifyTyping b = ⟨[word.map Char.toLower]⟩ := by
  simp only [collectionNames, mem_cons, not_mem_nil, or_false] at h
  rcases h with rfl | rfl | rfl | rfl | rfl | rfl <;> cases b <;> decide +kernel

theorem qualifyTyping_plainCollection {b : Bool} (h : name.qualifyTyping b = name) :
    name.plainCollection.qualifyTyping b = name.plainCollection := by
  unfold plainCollection
  split
  · split
    · rename_i word _ hw
      exact qualifyTyping_collection (by simpa using hw) b
    · exact h
  · exact h

end QualifiedName

theorem inside_typing_union (path : QualifiedName) :
    (⟨["typing", "Union"]⟩ : QualifiedName).inside path =
      if path = ⟨["typing"]⟩ then ⟨["Union"]⟩ else unionName path := by
  obtain ⟨parts⟩ := path
  match parts with
  | [] => rfl
  | [a] =>
    by_cases ha : a = "typing"
    · subst ha
      rfl
    · simp [QualifiedName.inside, QualifiedName.dropBase?, unionName, ha]
  | [a, b] =>
    by_cases ha : a = "typing"
    · by_cases hb : b = "Union"
      · subst ha hb
        rfl
      · simp [QualifiedName.inside, QualifiedName.dropBase?, unionName, hb]
    · simp [QualifiedName.inside, QualifiedName.dropBase?, unionName, ha]
  | a :: b :: c :: rest =>
    simp [QualifiedName.inside, QualifiedName.dropBase?, unionName]

theorem wellKnownName_union (path : QualifiedName) :
    wellKnownName "typing.Union" path = unionName path := by
  have text : QualifiedName.ofText "typing.Union" = ⟨["typing", "Union"]⟩ := by decide
  rw [wellKnownName, text, inside_typing_union]
  split
  · rename_i h
    subst h
    decide
  · unfold unionName
    split
    · rfl
    · rfl

theorem Hint.refined?_union (path : QualifiedName) (ms : List Hint) :
    (Hint.type (unionName path) (some ms)).refined? path =
      some (.type (unionName path) (some (qualifyTypingAll ms))) := by
  have inside : (unionName path).inside path =
      if path = ⟨["typing"]⟩ then ⟨["Union"]⟩ else unionName path := by
    by_cases h : path = ⟨["typing", "Union"]⟩
    · subst h
      rfl
    · rw [← inside_typing_union, unionName, if_neg h]
  simp only [refined?, Hint.inside, inside]
  split
  · rename_i h
    subst h
    rfl
  · unfold unionName
    split
    · rfl
    · rfl

mutual

theorem Hint.qualifyTyping_idem (h : Hint) : h.qualifyTyping.qualifyTyping = h.qualifyTyping := by
  match h with
  | .type name none => simp only [qualifyTyping, QualifiedName.qualifyTyping_idem]
  | .type name (some ps) =>
    simp only [qualifyTyping, QualifiedName.qualifyTyping_idem, qualifyTypingAll_idem ps]
  | .expression e => simp only [qualifyTyping]

theorem Hint.qualifyTypingAll_idem (hs : List Hint) :
    qualifyTypingAll (qualifyTypingAll hs) = qualifyTypingAll hs := by
  match hs with
  | [] => simp only [qualifyTypingAll]
  | h :: hs =>
    simp only [qualifyTypingAll, qualifyTyping_idem h, qualifyTypingAll_idem hs]

end

theorem Hint.qualifyTyping_plainCollection (hq : h.qualifyTyping = h) :
    h.plainCollection.qualifyTyping = h.plainCollection := by
  match h with
  | .type name none =>
    simp only [qualifyTyping, Hint.type.injEq, and_true] at hq
    simp only [plainCollection, qualifyTyping, QualifiedName.qualifyTyping_plainCollection hq]
  | .type name (some ps) =>
    simp only [qualifyTyping, Hint.type.injEq, some.injEq] at hq
    simp only [plainCollection, qualifyTyping,
      QualifiedName.qualifyTyping_plainCollection hq.1, hq.2]
  | .expression e => rfl

theorem Hint.qualifyTyping_refined {h' : Hint} (hr : h.refined? path = some h') :
    h'.qualifyTyping = h' := by
  obtain ⟨_, _, rfl⟩ := map_eq_some_iff.mp hr
  exact qualifyTyping_plainCollection (qualifyTyping_idem _)

namespace Hint

variable {parameters : Option (List Hint)}

theorem refined?_expression (path : QualifiedName) (e : Expression) :
    (Hint.expression e).refined? path = (Hint.expression e).withFixedSize? := by
  cases e with
  | invalid text => rfl
  | value v =>
    simp only [refined?, inside, withQualifiedFlags, withElementType, withFixedSize?]
    split
    · rfl
    · rw [Option.map_map]
      rfl

theorem withElementType_of_not_bare
    (bare : isBareElementType name parameters = false) (path : QualifiedName) :
    (Hint.type name parameters).withElementType path = .type name parameters := by
  rw [withElementType, if_neg (Bool.eq_false_iff.mp bare)]

theorem refined?_name (bare : isBareElementType (name.inside path) none = false) :
    (Hint.type name none).refined? path =
      some (.type ((name.inside path).qualifyTyping false).plainCollection none) := by
  have start : ((Hint.type name none).inside path).withQualifiedFlags =
      .type (name.inside path) none := rfl
  rw [refined?, start, withElementType_of_not_bare bare]
  simp only [withFixedSize?, map_some, withoutSparseParameters, ite_self]
  rfl

theorem refined?_parameters {ps : List Hint}
    (bare : isBareElementType (name.inside path) (some ps) = false) :
    (Hint.type name (some ps)).refined? path =
      if (name.inside path).parts.take 2 = ["scipy", "sparse"] then
        some (.type ((name.inside path).qualifyTyping false).plainCollection none)
      else some (.type ((name.inside path).qualifyTyping true).plainCollection
        (some (qualifyTypingAll
          (if name.inside path = denseArray then ps.map qualifiedFlag else ps)))) := by
  have bare' : isBareElementType (name.inside path)
      (some (if name.inside path = denseArray then ps.map qualifiedFlag else ps)) = false := by
    split
    · simpa [isBareElementType] using bare
    · exact bare
  rw [refined?, inside, withQualifiedFlags, withElementType_of_not_bare bare']
  simp only [withFixedSize?, map_some, withoutSparseParameters]
  split
  · rfl
  · rfl

theorem refined?_bare (bare : isBareElementType (name.inside path) parameters = true) :
    (Hint.type name parameters).refined? path = some (.type elementTypeName
      (some [.type ((wellKnownName "Any" path).qualifyTyping false) none])) := by
  have empty : parameters = none ∨ parameters = some [] := by
    have none := (Bool.and_eq_true_iff.mp bare).2
    cases parameters with
    | none => exact .inl rfl
    | some ps => exact .inr (congrArg some (isEmpty_iff.mp none))
  have complete : ((Hint.type name parameters).inside path).withQualifiedFlags.withElementType path =
      .type elementTypeName (some [.type (wellKnownName "Any" path) none]) := by
    rcases empty with rfl | rfl
    · simp only [inside, withQualifiedFlags, withElementType, bare, if_true]
    · simp only [inside, withQualifiedFlags, map_nil, ite_self, withElementType, bare, if_true]
  rw [refined?, complete]
  rfl

theorem qualifyTypingAll_eq_iff {hs : List Hint} :
    qualifyTypingAll hs = hs ↔ ∀ h ∈ hs, h.qualifyTyping = h := by
  induction hs with
  | nil => simp [qualifyTypingAll]
  | cons h hs ih => simp [qualifyTypingAll, ih]

theorem mem_qualifyTypingAll {hs : List Hint} (hh : h ∈ qualifyTypingAll hs) :
    ∃ g ∈ hs, g.qualifyTyping = h := by
  induction hs with
  | nil => simp [qualifyTypingAll] at hh
  | cons g gs ih =>
    rw [qualifyTypingAll, mem_cons] at hh
    rcases hh with rfl | hh
    · exact ⟨g, mem_cons_self, rfl⟩
    · obtain ⟨g', hg', he⟩ := ih hh
      exact ⟨g', .tail _ hg', he⟩

theorem qualifiedFlag_qualifyTyping (hq : h.qualifyTyping = h) :
    h.qualifiedFlag.qualifyTyping = h.qualifiedFlag := by
  match h with
  | .expression e => rfl
  | .type name none =>
    simp only [qualifiedFlag]
    split
    · rename_i flag
      simp only [qualifyTyping, type.injEq, and_true]
      exact QualifiedName.qualifyTyping_of_length (by simp [QualifiedName.length, denseArray]) _
    · exact hq
  | .type name (some ps) =>
    simp only [qualifiedFlag]
    split
    · rename_i flag
      simp only [qualifyTyping, type.injEq, some.injEq] at hq ⊢
      exact ⟨QualifiedName.qualifyTyping_of_length (by simp [QualifiedName.length, denseArray]) _, hq.2⟩
    · exact hq

/-- In the module with a path, no rule for single types changes more of a hint than that words of the
typing module get their full names: the name stays, no element type is missing, the array is not
sparse and has no short flags, and the value is no fixed size. -/
def Unaffected (path : QualifiedName) : Hint → Prop
  | .type name parameters =>
    ((name.inside path).qualifyTyping parameters.isSome).plainCollection =
        name.qualifyTyping parameters.isSome ∧
      isBareElementType (name.inside path) parameters = false ∧
      ∀ ps ∈ parameters, (name.inside path).parts.take 2 ≠ ["scipy", "sparse"] ∧
        (name.inside path = denseArray → ∀ p ∈ ps, p.isFlag = false)
  | .expression (.value v) => Inspection.fixedSizeText? v.text = none
  | .expression (.invalid _) => True

theorem qualifyTyping_qualifiedFlag (h : Hint) :
    h.qualifiedFlag.qualifyTyping = h.qualifyTyping ↔ h.isFlag = false := by
  match h with
  | .expression e => simp [qualifiedFlag, isFlag]
  | .type name ps =>
    rw [isFlag, qualifiedFlag]
    cases flag : arrayFlags.contains name with
    | false => simp
    | true =>
      have short : name.length = 2 := by
        simp only [arrayFlags, map_cons, map_nil, contains_eq_mem, mem_cons,
          not_mem_nil, or_false, decide_eq_true_eq] at flag
        rcases flag with rfl | rfl | rfl <;> rfl
      have long : (⟨denseArray.parts ++ name.parts⟩ : QualifiedName).length = 4 := by
        simp only [QualifiedName.length, length_append] at short ⊢
        rw [short]
        rfl
      have differs : (⟨denseArray.parts ++ name.parts⟩ : QualifiedName) ≠ name := by
        intro same
        rw [same, short] at long
        cases long
      have keep (b : Bool) : name.qualifyTyping b = name :=
        QualifiedName.qualifyTyping_of_length (by omega) b
      have keep' (b : Bool) : (⟨denseArray.parts ++ name.parts⟩ : QualifiedName).qualifyTyping b =
          ⟨denseArray.parts ++ name.parts⟩ := QualifiedName.qualifyTyping_of_length (by omega) b
      cases ps <;> simp [qualifyTyping, keep, keep', differs]

theorem qualifyTypingAll_qualifiedFlag (ps : List Hint) :
    qualifyTypingAll (ps.map qualifiedFlag) = qualifyTypingAll ps ↔
      ∀ p ∈ ps, p.isFlag = false := by
  induction ps with
  | nil => simp
  | cons p ps ih => simp [qualifyTypingAll, qualifyTyping_qualifiedFlag, ih]

theorem withFixedSize?_ne {v : Value} {inside : List Char}
    (h : Inspection.fixedSizeText? v.text = some inside) :
    (Hint.expression (.value v)).withFixedSize? ≠ some (.expression (.value v)) := by
  intro same
  rw [withFixedSize?, h] at same
  obtain ⟨dims, -, call⟩ := map_eq_some_iff.mp same
  have text : withoutAddresses (ArraySize.fixed dims).text = v.text := by
    injection call with call
    injection call with call
    simpa only [Value.withoutAddresses] using congrArg Value.text call
  have front : hasFront "FixedSize(" v.text = true := by
    simp only [Inspection.fixedSizeText?] at h
    split at h
    · rename_i both
      exact (Bool.and_eq_true_iff.mp both).1
    · cases h
  rw [← text] at front
  simp only [hasFront, withoutAddresses, String.toList_ofList] at front
  have module : ArraySize.moduleName.toList = 'p' :: "ybind11_stubgen.typing_ext".toList := by decide
  have call : ∃ rest, (ArraySize.fixed dims).text.toList = 'p' :: rest := by
    simp only [ArraySize.text, String.toList_append, module, cons_append]
    exact ⟨_, rfl⟩
  obtain ⟨rest, call⟩ := call
  rw [call] at front
  cases front

/-- A single type is changed in no other way than one of several, exactly if no rule applies. -/
theorem refined?_eq_qualifyTyping_iff (path : QualifiedName) (h : Hint) :
    h.refined? path = some h.qualifyTyping ↔ h.Unaffected path := by
  match h with
  | .expression (.invalid text) => exact ⟨fun _ => trivial, fun _ => rfl⟩
  | .expression (.value v) =>
    rw [refined?_expression, qualifyTyping, Unaffected]
    cases size : Inspection.fixedSizeText? v.text with
    | none => simp [withFixedSize?, size]
    | some inside => simp [withFixedSize?_ne size]
  | .type name parameters =>
    cases bare : isBareElementType (name.inside path) parameters with
    | true =>
      have affected : ¬ (Hint.type name parameters).Unaffected path := fun h => by
        rw [Unaffected, bare] at h
        exact Bool.noConfusion h.2.1
      rw [refined?_bare bare]
      refine ⟨fun same => ?_, fun h => absurd h affected⟩
      cases parameters with
      | none => simp [qualifyTyping] at same
      | some ps =>
        have empty : ps = [] := isEmpty_iff.mp (Bool.and_eq_true_iff.mp bare).2
        simp [qualifyTyping, empty, qualifyTypingAll] at same
    | false =>
      cases parameters with
      | none => simp [refined?_name bare, qualifyTyping, Unaffected, bare]
      | some ps =>
        rw [refined?_parameters bare, qualifyTyping, Unaffected]
        by_cases sparse : (name.inside path).parts.take 2 = ["scipy", "sparse"]
        · simp [sparse]
        · by_cases dense : name.inside path = denseArray
          · have flags : (name.inside path = denseArray → ∀ p ∈ ps, p.isFlag = false) ↔
                ∀ p ∈ ps, p.isFlag = false := ⟨fun h => h dense, fun h _ => h⟩
            rw [if_neg sparse, if_pos dense]
            simp only [isSome_some, mem_some_iff, forall_eq', flags]
            simp [sparse, bare, qualifyTypingAll_qualifiedFlag]
          · simp [sparse, dense, bare]

end Hint

namespace Inspection

variable {s : Setting} {p q : Progress}

theorem Plain.grows {α : Type} {x : Inspection α} (hx : Plain x) {a : α}
    (h : x.outcome s p = (.ok a, q)) : Grows p q := (Composed.plain hx).keeps (keeps_grows s) h

theorem outcome_withoutModule (name : QualifiedName) (s : Setting) (p : Progress) :
    (withoutModule name).outcome s p = (.ok (name.inside p.modulePath), p) := rfl

theorem wellKnown_ok {text : String} (h : (wellKnown text).outcome s p = (.ok name, q)) :
    name = wellKnownName text p.modulePath ∧ (requireImport name).outcome s p = (.ok (), q) := by
  rw [wellKnown, outcome_bind, outcome_withoutModule] at h
  obtain ⟨_, r, hr, h⟩ := bind_ok_iff.mp h
  cases h
  exact ⟨rfl, hr⟩

theorem outcome_styledArray (ha : s.options.arrays = .asWritten) (hint : Hint) (p : Progress) :
    (styledArray hint).outcome s p = (.ok hint, p) := by
  simp only [styledArray, outcome_bind, outcome_options, ha, outcome_pure]

theorem outcome_hintWithoutModule (hint : Hint) (s : Setting) (p : Progress) :
    (hintWithoutModule hint).outcome s p = (.ok (hint.inside p.modulePath), p) := by
  cases hint with
  | type name parameters => rfl
  | expression e => rfl

end Inspection

end TypeStubs
