import TypeStubs.Proofs.FixedSizes
import TypeStubs.Proofs.FormedTexts
import TypeStubs.Proofs.RereadHints

/-! The text of a hint that was read is a normal form: what is read from it has the same text, unless
a closing bracket stands outside in a value between brackets, or a flag of a dense array is hidden. -/

namespace TypeStubs

open List Option

variable {hs : List Hint}

/-! Names that the rules leave as they are. -/

namespace QualifiedName

variable {name : QualifiedName}

theorem plainCollection_cases (name : QualifiedName) : name.plainCollection = name ∨
    ∃ word ∈ ["dict", "list", "set", "tuple", "frozenset", "type"],
      name.plainCollection = ⟨[word]⟩ := by
  have lower : ∀ word ∈ collectionNames, word.map Char.toLower ∈
      ["dict", "list", "set", "tuple", "frozenset", "type"] := by decide +kernel
  unfold plainCollection
  split
  · split
    · rename_i word _ known
      exact .inr ⟨_, lower word (by simpa using known), rfl⟩
    · exact .inl rfl
  · exact .inl rfl

theorem plainCollection_idem (name : QualifiedName) :
    name.plainCollection.plainCollection = name.plainCollection := by
  rcases plainCollection_cases name with same | ⟨word, -, single⟩
  · rw [same, same]
  · have other (w : String) : (⟨[w]⟩ : QualifiedName).plainCollection = ⟨[w]⟩ := by
      simp [plainCollection]
    rw [single, other]

/-- The name of a type is kept, or it becomes one that starts with another word than the names of
arrays and of element types. -/
theorem fitted_cases (name : QualifiedName) (b : Bool) :
    (name.qualifyTyping b).plainCollection = name ∨
      ∃ word ∈ ["typing", "typing_extensions", "dict", "list", "set", "tuple", "frozenset", "type"],
        (name.qualifyTyping b).plainCollection.parts.head? = some word := by
  have qualified : name.qualifyTyping b = name ∨
      ∃ word ∈ ["typing", "typing_extensions"],
        (name.qualifyTyping b).parts.head? = some word := by
    unfold qualifyTyping
    split
    · split
      · refine .inr ⟨_, ?_, rfl⟩
        split <;> simp
      · split
        · exact .inr ⟨_, by simp, rfl⟩
        · split
          · exact .inr ⟨_, by simp, rfl⟩
          · exact .inl rfl
    · exact .inl rfl
  rcases plainCollection_cases (name.qualifyTyping b) with same | ⟨word, hw, single⟩
  · rw [same]
    rcases qualified with same | ⟨word, hw, head⟩
    · exact .inl same
    · exact .inr ⟨word, mem_append_left _ hw, head⟩
  · rw [single]
    exact .inr ⟨word, mem_append_right ["typing", "typing_extensions"] hw, rfl⟩

theorem fitted_keeps {b : Bool} {first : String} (n : Nat)
    {rest : List String} (hfirst : first ∈ ["numpy", "dtype", "scipy"])
    (h : (name.qualifyTyping b).plainCollection.parts.take (n + 1) = first :: rest) :
    (name.qualifyTyping b).plainCollection = name := by
  rcases fitted_cases name b with same | ⟨word, hw, head⟩
  · exact same
  · have apart : ∀ word ∈ ["typing", "typing_extensions", "dict", "list", "set", "tuple",
        "frozenset", "type"], word ∉ ["numpy", "dtype", "scipy"] := by decide
    have same : word = first := by
      have front := congrArg head? h
      rw [head?_take, if_neg (Nat.succ_ne_zero n), head] at front
      exact some.inj front
    exact absurd (same ▸ hfirst) (apart word hw)

/-- No rule for the names of types changes the name, in the form that it has with parameters or
without. -/
structure Settled (hasParameters : Bool) (name : QualifiedName) : Prop where
  written : name.IsWritten
  qualified : name.qualifyTyping hasParameters = name
  plain : name.plainCollection = name
  importable : name.Importable

theorem Settled.fitted {b : Bool} (written : name.IsWritten)
    (importable : (name.qualifyTyping b).plainCollection.Importable) :
    (name.qualifyTyping b).plainCollection.Settled b where
  written := (written.qualifyTyping b).plainCollection
  qualified := qualifyTyping_plainCollection (qualifyTyping_idem name b)
  plain := plainCollection_idem _
  importable := importable

theorem Settled.flag (h : name ∈ arrayFlags) (b : Bool) :
    (⟨denseArray.parts ++ name.parts⟩ : QualifiedName).Settled b := by
  have names : ∀ name ∈ arrayFlags, ∀ b,
      (⟨denseArray.parts ++ name.parts⟩ : QualifiedName).IsWritten ∧
      (⟨denseArray.parts ++ name.parts⟩ : QualifiedName).qualifyTyping b =
        ⟨denseArray.parts ++ name.parts⟩ ∧
      (⟨denseArray.parts ++ name.parts⟩ : QualifiedName).plainCollection =
        ⟨denseArray.parts ++ name.parts⟩ ∧
      (⟨denseArray.parts ++ name.parts⟩ : QualifiedName).Importable := by decide +kernel
  obtain ⟨written, qualified, plain, importable⟩ := names name h b
  exact ⟨written, qualified, plain, importable⟩

end QualifiedName

/-! Hints that come back. -/

theorem Hint.allLegible_iff {inner avoided : List Char} :
    Hint.AllLegible inner avoided hs ↔ ∀ h ∈ hs, h.Legible inner avoided := by
  induction hs with
  | nil => simp [Hint.AllLegible]
  | cons h hs ih => rw [Hint.AllLegible, ih, forall_mem_cons]

theorem Hint.allSteady_iff : Hint.AllSteady hs ↔ ∀ h ∈ hs, h.Steady := by
  induction hs with
  | nil => simp [Hint.AllSteady]
  | cons h hs ih => rw [Hint.AllSteady, ih, forall_mem_cons, Hint.Steady]

theorem Hint.allSteadyInside_iff : Hint.AllSteadyInside hs ↔ ∀ h ∈ hs, h.SteadyInside := by
  induction hs with
  | nil => simp [Hint.AllSteadyInside]
  | cons h hs ih => rw [Hint.AllSteadyInside, ih, forall_mem_cons]

mutual

theorem Hint.Legible.mono {h : Hint} {inner avoided avoided' : List Char}
    (hl : h.Legible inner avoided) (hsub : avoided' ⊆ avoided) : h.Legible inner avoided' := by
  match h with
  | .expression (.value v) =>
    rw [Hint.Legible] at hl ⊢
    exact ⟨hl.read, hl.line, hl.source, hl.closed.mono (cons_subset_cons '|' hsub)⟩
  | .expression (.invalid _) => trivial
  | .type name none => exact hl
  | .type name (some ps) =>
    rw [Hint.Legible] at hl ⊢
    obtain ⟨written, hne, parameters⟩ := hl
    refine ⟨written, hne, ?_⟩
    split
    · rename_i bars
      rw [if_pos bars] at parameters
      exact parameters.mono hsub
    · rename_i brackets
      rwa [if_neg brackets] at parameters

theorem Hint.AllLegible.mono {hs : List Hint} {inner avoided avoided' : List Char}
    (hl : Hint.AllLegible inner avoided hs) (hsub : avoided' ⊆ avoided) :
    Hint.AllLegible inner avoided' hs := by
  match hs with
  | [] => trivial
  | h :: hs =>
    rw [Hint.AllLegible] at hl ⊢
    exact ⟨hl.1.mono hsub, hl.2.mono hsub⟩

end

/-- A hint that is read as it is written. Only its flags may change, and what stands after a closing
bracket in a value. -/
structure Hint.Normal (avoided : List Char) (h : Hint) : Prop where
  legible : h.Legible [','] avoided
  steady : h.Steady
  qualified : h.qualifyTyping = h

/-- What is read from a text between bars. -/
def Hint.HasNormalParts (avoided : List Char) : Hint → Prop
  | .expression (.value v) => v.IsLegible avoided
  | .expression (.invalid _) => True
  | .type name none => name.IsWritten
  | .type name (some ps) => name.IsWritten ∧ ps ≠ [] ∧ ∀ p ∈ ps, p.Normal [',']

namespace Hint

variable {avoided : List Char} {name : QualifiedName} {ps : List Hint}

theorem normal_invalid (text : String) : (Hint.expression (.invalid text)).Normal avoided where
  legible := trivial
  steady := by
    refine ⟨fun a ha => ?_, trivial⟩
    cases ha
    exact ⟨trivial, trivial⟩
  qualified := rfl

theorem normal_value {v : Value} (hl : v.IsLegible avoided)
    (hf : Inspection.fixedSizeText? v.text = none) :
    (Hint.expression (.value v)).Normal avoided where
  legible := hl
  steady := by
    refine ⟨fun a ha => ?_, trivial⟩
    cases ha
    exact ⟨hf, trivial⟩
  qualified := rfl

theorem normal_name (settled : name.Settled false) (bare : isBareElementType name none = false) :
    (Hint.type name none).Normal avoided where
  legible := settled.written
  steady := by
    refine ⟨fun a ha => ?_, trivial⟩
    cases ha
    refine ⟨?_, settled.importable⟩
    rw [Unaffected, QualifiedName.inside_root]
    refine ⟨?_, bare, fun ps hps => ?_⟩
    · rw [isSome_none, settled.qualified, settled.plain]
    · cases hps
  qualified := by rw [qualifyTyping, settled.qualified]

theorem normal_parameters (hav : avoided ⊆ [',']) (settled : name.Settled true) (hne : ps ≠ [])
    (normal : ∀ p ∈ ps, p.Normal [',']) (sparse : name.parts.take 2 ≠ ["scipy", "sparse"])
    (flags : name = denseArray → ∀ p ∈ ps, p.isFlag = false) :
    (Hint.type name (some ps)).Normal avoided where
  legible := by
    have inner : AllLegible [','] [','] ps := allLegible_iff.mpr fun p hp => (normal p hp).legible
    rw [Legible]
    refine ⟨settled.written, hne, ?_⟩
    split
    · exact inner.mono hav
    · exact inner
  steady := by
    have whole : AllSteady ps := allSteady_iff.mpr fun p hp => (normal p hp).steady
    have inner : AllSteadyInside ps := allSteadyInside_iff.mpr fun p hp => (normal p hp).steady.2
    rw [Steady, only?, SteadyInside]
    cases bars : barred? name ps with
    | none =>
      refine ⟨fun a ha => ?_, whole⟩
      cases ha
      refine ⟨?_, settled.importable⟩
      rw [Unaffected, QualifiedName.inside_root]
      refine ⟨?_, by simp [isBareElementType, hne], fun qs hqs => ?_⟩
      · rw [isSome_some, settled.qualified, settled.plain]
      · cases hqs
        exact ⟨sparse, flags⟩
    | some more =>
      refine ⟨fun a ha => ?_, inner⟩
      obtain _ | ⟨p, _ | ⟨q, qs⟩⟩ := ps
      · cases more <;> cases ha
      · cases more with
        | nil => exact (normal p mem_cons_self).steady.1 a ha
        | cons => cases ha
      · cases more <;> cases ha
  qualified := by
    rw [qualifyTyping, settled.qualified,
      qualifyTypingAll_eq_iff.mpr fun p hp => (normal p hp).qualified]

theorem Normal.parameters (h : (Hint.type name (some ps)).Normal avoided)
    (brackets : barred? name ps = none) : ps ≠ [] ∧ ∀ p ∈ ps, p.Normal [','] := by
  obtain ⟨legible, ⟨-, steady⟩, qualified⟩ := h
  rw [Legible, brackets, isSome_none, if_neg Bool.false_ne_true] at legible
  rw [SteadyInside, brackets, isSome_none, if_neg Bool.false_ne_true] at steady
  rw [qualifyTyping] at qualified
  injection qualified with _ settled
  injection settled with settled
  exact ⟨legible.2.1, fun p hp => ⟨allLegible_iff.mp legible.2.2 p hp,
    allSteady_iff.mp steady p hp, qualifyTypingAll_eq_iff.mp settled p hp⟩⟩

theorem Normal.qualifiedFlag {h : Hint} (hn : h.Normal [',']) :
    h.qualifiedFlag.Normal [','] ∧ h.qualifiedFlag.isFlag = false := by
  have names : ∀ name ∈ arrayFlags,
      name.text ≠ "typing.Optional" ∧ name.text ≠ "typing.Union" ∧
      isBareElementType ⟨denseArray.parts ++ name.parts⟩ none = false ∧
      (denseArray.parts ++ name.parts).take 2 ≠ ["scipy", "sparse"] ∧
      (⟨denseArray.parts ++ name.parts⟩ : QualifiedName) ≠ denseArray ∧
      arrayFlags.contains ⟨denseArray.parts ++ name.parts⟩ = false := by decide
  match h with
  | .expression e => exact ⟨hn, rfl⟩
  | .type name parameters =>
    cases flag : arrayFlags.contains name with
    | false =>
      rw [Hint.qualifiedFlag, flag, if_neg Bool.false_ne_true]
      exact ⟨hn, flag⟩
    | true =>
      have known : name ∈ arrayFlags := by simpa using flag
      obtain ⟨optional, union, bare, sparse, dense, other⟩ := names name known
      rw [Hint.qualifiedFlag, flag, if_pos rfl]
      refine ⟨?_, other⟩
      cases parameters with
      | none => exact normal_name (.flag known _) bare
      | some ps =>
        have brackets : barred? name ps = none := by
          rw [barred?, if_neg fun both => optional both.1, if_neg union]
        obtain ⟨hne, normal⟩ := hn.parameters brackets
        exact normal_parameters (Subset.refl _) (.flag known _) hne normal sparse
          fun same => absurd same dense

theorem normal_fixedSize (hav : avoided ⊆ [',']) {inside : List Char} {dims : List Dimension}
    (integers : integers? (splitAtChar ',' inside) = some dims) : (Hint.expression (.value
      (Value.mk (ArraySize.fixed dims).text false).withoutAddresses)).Normal avoided := by
  obtain ⟨ds, text, digits, source⟩ := fixedSize_text (splitAtChar_ne_nil _ _) integers
  have whole : (Value.mk (ArraySize.fixed dims).text false).withoutAddresses.text =
      String.ofList (Source.sizeText ds) := by rw [← text, String.ofList_toList]
  refine normal_value ⟨?_, ?_, ?_, ?_⟩ ?_
  · rw [text]
    exact Source.ofText_sizeText ds
  · rw [text]
    exact fun h => absurd (Source.mem_sizeText digits _ h) (by decide)
  · rw [text]
    exact source
  · rw [text]
    exact Source.closed_sizeText digits (avoided_marks
      (Subset.trans hav (subset_append_left [','] [']'])))
  · rw [whole]
    exact Source.fixedSizeText?_sizeText ds

theorem normal_anyElements (hav : avoided ⊆ [',']) : (Hint.type elementTypeName
    (some [.type ((wellKnownName "Any" ⟨[]⟩).qualifyTyping false) none])).Normal avoided := by
  have any : (wellKnownName "Any" ⟨[]⟩).qualifyTyping false = ⟨["typing", "Any"]⟩ := by decide
  have elements : (Hint.type ⟨["typing", "Any"]⟩ none).Normal [','] :=
    normal_name ⟨by decide +kernel, by decide, by decide, by decide⟩ (by decide)
  rw [any]
  refine normal_parameters hav ⟨by decide +kernel, by decide, by decide, by decide⟩
    (cons_ne_nil _ _) ?_ (by decide) fun same => absurd same (by decide)
  exact forall_mem_cons.mpr ⟨elements, nofun⟩

theorem not_bare_of_sparse (h : name.parts.take 2 = ["scipy", "sparse"]) :
    isBareElementType name none = false := by
  have first : name.parts.take 1 = ["scipy"] := by
    have front := congrArg (take 1) h
    rwa [take_take] at front
  simp [isBareElementType, first, h, elementTypeName]

theorem not_bare_fitted {b : Bool} (h : isBareElementType name none = false) :
    isBareElementType (name.qualifyTyping b).plainCollection none = false := by
  cases bare : isBareElementType (name.qualifyTyping b).plainCollection none with
  | false => rfl
  | true =>
    have front := (Bool.and_eq_true_iff.mp bare).1
    rw [Bool.or_eq_true, decide_eq_true_eq, decide_eq_true_eq] at front
    have kept : (name.qualifyTyping b).plainCollection = name := by
      rcases front with short | full
      · exact QualifiedName.fitted_keeps 0 (by decide) short
      · exact QualifiedName.fitted_keeps 1 (by decide) full
    rw [kept, h] at bare
    cases bare

theorem HasNormalParts.refined {raw h : Hint} (hav : avoided ⊆ [','])
    (parts : raw.HasNormalParts avoided) (fit : raw.refined? ⟨[]⟩ = some h)
    (importable : h.Importable) : h.Normal avoided := by
  match raw with
  | .expression (.invalid text) =>
    cases fit
    exact normal_invalid text
  | .expression (.value v) =>
    rw [refined?_expression, withFixedSize?] at fit
    cases size : Inspection.fixedSizeText? v.text with
    | none =>
      rw [size] at fit
      cases fit
      exact normal_value parts size
    | some inside =>
      rw [size] at fit
      obtain ⟨dims, integers, rfl⟩ := map_eq_some_iff.mp fit
      exact normal_fixedSize hav integers
  | .type name none =>
    have written : name.IsWritten := parts
    cases bare : isBareElementType (name.inside ⟨[]⟩) none with
    | true =>
      rw [refined?_bare bare] at fit
      cases fit
      exact normal_anyElements hav
    | false =>
      rw [refined?_name bare, QualifiedName.inside_root] at fit
      rw [QualifiedName.inside_root] at bare
      cases fit
      exact normal_name (.fitted written importable) (not_bare_fitted bare)
  | .type name (some ps) =>
    obtain ⟨written, hne, normal⟩ := parts
    have notBare : isBareElementType (name.inside ⟨[]⟩) (some ps) = false := by
      simp [isBareElementType, hne]
    have settled : qualifyTypingAll ps = ps :=
      qualifyTypingAll_eq_iff.mpr fun p hp => (normal p hp).qualified
    rw [refined?_parameters notBare, QualifiedName.inside_root] at fit
    by_cases sparse : name.parts.take 2 = ["scipy", "sparse"]
    · rw [if_pos sparse] at fit
      cases fit
      have bare : isBareElementType name none = false := not_bare_of_sparse sparse
      exact normal_name (.fitted written importable) (not_bare_fitted bare)
    · rw [if_neg sparse] at fit
      have sparse' :
          (name.qualifyTyping true).plainCollection.parts.take 2 ≠ ["scipy", "sparse"] :=
        fun h => sparse (by rwa [QualifiedName.fitted_keeps 1 (by decide) h] at h)
      by_cases dense : name = denseArray
      · have flags : qualifyTypingAll (ps.map Hint.qualifiedFlag) = ps.map Hint.qualifiedFlag :=
          qualifyTypingAll_eq_iff.mpr (forall_mem_map.mpr fun p hp =>
            (normal p hp).qualifiedFlag.1.qualified)
        rw [if_pos dense, flags] at fit
        cases fit
        exact normal_parameters hav (.fitted written importable) (by simpa using hne)
          (forall_mem_map.mpr fun p hp => (normal p hp).qualifiedFlag.1) sparse'
          fun _ => forall_mem_map.mpr fun p hp => (normal p hp).qualifiedFlag.2
      · rw [if_neg dense, settled] at fit
        cases fit
        refine normal_parameters hav (.fitted written importable) hne normal sparse' fun same => ?_
        have kept : (name.qualifyTyping true).plainCollection = name :=
          QualifiedName.fitted_keeps 1 (by decide) (congrArg (·.parts.take 2) same)
        exact absurd (kept.symm.trans same) dense

theorem HasNormalParts.qualified {raw : Hint} (hav : avoided ⊆ [','])
    (parts : raw.HasNormalParts avoided) :
    raw.qualifyTyping.Legible [','] avoided ∧ raw.qualifyTyping.SteadyInside := by
  match raw with
  | .expression (.invalid text) => exact ⟨trivial, trivial⟩
  | .expression (.value v) => exact ⟨parts, trivial⟩
  | .type name none =>
    have written : name.IsWritten := parts
    exact ⟨written.qualifyTyping false, trivial⟩
  | .type name (some ps) =>
    obtain ⟨written, hne, normal⟩ := parts
    have settled : qualifyTypingAll ps = ps :=
      qualifyTypingAll_eq_iff.mpr fun p hp => (normal p hp).qualified
    have legible : AllLegible [','] [','] ps := allLegible_iff.mpr fun p hp => (normal p hp).legible
    rw [qualifyTyping, settled, Legible, SteadyInside]
    refine ⟨⟨written.qualifyTyping true, hne, ?_⟩, ?_⟩
    · split
      · exact legible.mono hav
      · exact legible
    · split
      · exact allSteadyInside_iff.mpr fun p hp => (normal p hp).steady.2
      · exact allSteady_iff.mpr fun p hp => (normal p hp).steady

theorem normal_union {raws : List Hint} (hav : avoided ⊆ [',']) (several : 2 ≤ raws.length)
    (parts : ∀ raw ∈ raws, raw.HasNormalParts avoided) :
    (Hint.type (unionName ⟨[]⟩) (some (qualifyTypingAll raws))).Normal avoided := by
  have same : qualifyTypingAll raws = raws.map qualifyTyping := by
    clear several parts
    induction raws with
    | nil => rfl
    | cons raw raws ih => rw [qualifyTypingAll, ih, map_cons]
  have bars : barred? (unionName ⟨[]⟩) (qualifyTypingAll raws) = some [] := by
    rw [barred?, if_neg fun both => absurd both.1 (by decide), if_pos (by decide)]
  refine ⟨?_, ⟨?_, ?_⟩, qualifyTyping_refined (refined?_union ⟨[]⟩ raws)⟩
  · rw [Legible, bars, isSome_some, if_pos rfl, same]
    refine ⟨by decide +kernel, ?_, allLegible_iff.mpr (forall_mem_map.mpr fun raw hraw =>
      ((parts raw hraw).qualified hav).1)⟩
    intro none
    rw [map_eq_nil_iff.mp none] at several
    exact absurd several (Nat.not_succ_le_zero 1)
  · intro a ha
    rw [only?, bars, same] at ha
    obtain _ | ⟨raw, _ | ⟨raw', raws⟩⟩ := raws
    · cases several
    · exact absurd several (by simp)
    · cases ha
  · rw [SteadyInside, bars, isSome_some, if_pos rfl, same]
    exact allSteadyInside_iff.mpr (forall_mem_map.mpr fun raw hraw =>
      ((parts raw hraw).qualified hav).2)

end Hint

/-! Texts are read as normal hints. -/

mutual

theorem HintSyntax.Formed.normal {avoided : List Char} {h : HintSyntax} {hint : Hint}
    (hav : avoided ⊆ [',']) (hf : h.Formed avoided) (read : h.hint? ⟨[]⟩ = some hint)
    (importable : h.Importable) : hint.Normal avoided := by
  match h with
  | .malformed text =>
    rw [HintSyntax.hint?] at read
    cases read
    exact Hint.normal_invalid _
  | .single t =>
    rw [HintSyntax.Importable] at importable
    have fits := importable.2 hint read
    rw [HintSyntax.hint?, bind_eq_some_iff] at read
    obtain ⟨raw, first, fit⟩ := read
    rw [HintSyntax.Formed] at hf
    exact (TypeSyntax.Formed.normal hf first importable.1).refined hav fit fits
  | .union ts =>
    rw [HintSyntax.Importable] at importable
    rw [HintSyntax.hint?, map_eq_some_iff] at read
    obtain ⟨raws, types, rfl⟩ := read
    rw [HintSyntax.Formed] at hf
    refine Hint.normal_union hav ?_ (TypeSyntax.AllFormed.normal hf.2 types importable)
    rw [TypeSyntax.length_hints? types]
    exact hf.1

theorem TypeSyntax.Formed.normal {avoided : List Char} {t : TypeSyntax} {raw : Hint}
    (hf : t.Formed avoided) (read : t.hint? ⟨[]⟩ = some raw) (importable : t.Importable) :
    raw.HasNormalParts avoided := by
  match t with
  | .named name none =>
    rw [TypeSyntax.hint?] at read
    cases read
    exact hf
  | .named name (some hs) =>
    rw [TypeSyntax.Importable] at importable
    rw [TypeSyntax.hint?, map_eq_some_iff] at read
    obtain ⟨ps, parameters, rfl⟩ := read
    rw [TypeSyntax.Formed] at hf
    obtain ⟨written, hne, formed⟩ := hf
    obtain ⟨length, normal⟩ := HintSyntax.AllFormed.normal formed parameters importable
    refine ⟨written, fun none => hne ?_, normal⟩
    rw [none] at length
    exact length_eq_zero_iff.mp length.symm
  | .value text =>
    rw [TypeSyntax.hint?] at read
    rw [TypeSyntax.Formed] at hf
    obtain ⟨same, line, closed⟩ := hf
    rw [Expression.ofText, ← TypeSyntax.ofText_eq_value same] at read
    split at read
    · rename_i source
      cases read
      have chars : (String.ofList text).toList = text := String.toList_ofList
      rw [Hint.HasNormalParts]
      refine ⟨?_, ?_, ?_, ?_⟩
      all_goals rw [chars]
      · exact same
      · exact line
      · exact source
      · exact closed
    · cases read
      trivial

theorem TypeSyntax.AllFormed.normal {avoided : List Char} {ts : List TypeSyntax}
    {raws : List Hint} (hf : TypeSyntax.AllFormed avoided ts)
    (read : TypeSyntax.hints? ⟨[]⟩ ts = some raws) (importable : TypeSyntax.AllImportable ts) :
    ∀ raw ∈ raws, raw.HasNormalParts avoided := by
  match ts with
  | [] =>
    rw [TypeSyntax.hints?] at read
    cases read
    exact nofun
  | t :: ts =>
    rw [TypeSyntax.hints?, bind_eq_some_iff] at read
    obtain ⟨raw, first, read⟩ := read
    obtain ⟨rest, others, rfl⟩ := map_eq_some_iff.mp read
    rw [TypeSyntax.AllFormed] at hf
    rw [TypeSyntax.AllImportable] at importable
    exact forall_mem_cons.mpr ⟨hf.1.normal first importable.1, hf.2.normal others importable.2⟩

theorem HintSyntax.AllFormed.normal {hs : List HintSyntax} {hints : List Hint}
    (hf : HintSyntax.AllFormed [','] hs) (read : HintSyntax.hints? ⟨[]⟩ hs = some hints)
    (importable : HintSyntax.AllImportable hs) :
    hints.length = hs.length ∧ ∀ hint ∈ hints, hint.Normal [','] := by
  match hs with
  | [] =>
    rw [HintSyntax.hints?] at read
    cases read
    exact ⟨rfl, nofun⟩
  | h :: hs =>
    rw [HintSyntax.hints?, bind_eq_some_iff] at read
    obtain ⟨hint, first, read⟩ := read
    obtain ⟨rest, others, rfl⟩ := map_eq_some_iff.mp read
    rw [HintSyntax.AllFormed] at hf
    rw [HintSyntax.AllImportable] at importable
    obtain ⟨length, normal⟩ := HintSyntax.AllFormed.normal hf.2 others importable.2
    refine ⟨by rw [length_cons, length_cons, length], ?_⟩
    exact forall_mem_cons.mpr
      ⟨HintSyntax.Formed.normal (Subset.refl _) hf.1 first importable.1, normal⟩

end

/-! Closing brackets in values. -/

theorem Closed.concat {avoided cs : List Char} {d : Char} (h : Closed avoided cs)
    (h' : Closed [d] cs) : Closed (avoided ++ [d]) cs := by
  obtain ⟨ms, marks, outside⟩ := h
  obtain ⟨ms', marks', outside'⟩ := h'
  cases marks.symm.trans marks'
  refine ⟨ms, marks, fun c hc hin => ?_⟩
  rcases mem_append.mp hin with hin | hin
  · exact outside c hc hin
  · exact outside' c hc hin

mutual

/-- In no value between brackets a closing bracket stands outside. -/
def Hint.keepsBrackets (inside : Bool) : Hint → Bool
  | .expression (.value v) => !inside || decide (Closed [']'] v.text.toList)
  | .expression (.invalid _) => true
  | .type _ none => true
  | .type name (some ps) => Hint.allKeepBrackets (inside || (barred? name ps).isNone) ps

/-- In no value of the hints between brackets a closing bracket stands outside. -/
def Hint.allKeepBrackets (inside : Bool) : List Hint → Bool
  | [] => true
  | h :: hs => h.keepsBrackets inside && Hint.allKeepBrackets inside hs

end

mutual

theorem Hint.Legible.keeping {h : Hint} {avoided : List Char} {inside : Bool}
    (hl : h.Legible [','] avoided) (hk : h.keepsBrackets inside = true) :
    h.Legible [',', ']'] (if inside then avoided ++ [']'] else avoided) := by
  match h with
  | .expression (.value v) =>
    rw [Hint.Legible] at hl ⊢
    rw [Hint.keepsBrackets] at hk
    cases inside with
    | false => exact hl
    | true =>
      have closing : Closed [']'] v.text.toList := by simpa using hk
      exact ⟨hl.read, hl.line, hl.source, hl.closed.concat closing⟩
  | .expression (.invalid _) => trivial
  | .type name none => exact hl
  | .type name (some ps) =>
    rw [Hint.Legible] at hl ⊢
    rw [Hint.keepsBrackets] at hk
    obtain ⟨written, hne, parameters⟩ := hl
    refine ⟨written, hne, ?_⟩
    cases bars : barred? name ps with
    | some more =>
      rw [bars] at parameters hk
      rw [isNone_some, Bool.or_false] at hk
      exact parameters.keeping hk
    | none =>
      rw [bars] at parameters hk
      rw [isNone_none, Bool.or_true] at hk
      exact parameters.keeping hk

theorem Hint.AllLegible.keeping {hs : List Hint} {avoided : List Char} {inside : Bool}
    (hl : Hint.AllLegible [','] avoided hs) (hk : Hint.allKeepBrackets inside hs = true) :
    Hint.AllLegible [',', ']'] (if inside then avoided ++ [']'] else avoided) hs := by
  match hs with
  | [] => trivial
  | h :: hs =>
    rw [Hint.AllLegible] at hl ⊢
    rw [Hint.allKeepBrackets, Bool.and_eq_true] at hk
    exact ⟨hl.1.keeping hk.1, hl.2.keeping hk.2⟩

end

namespace Inspection

variable {s : Setting} {p p' q : Progress}

/-- Outside of every module, the text of a hint that was read is read again. It comes back as the
same text, if and only if no flag is hidden. -/
theorem printed_hint_normal (ho : s.options = {}) (hp : IsOutside p) {text : List Char}
    (line : '\n' ∉ text) {hint : Hint} (read : (hintOfText text).outcome s p = (.ok hint, q))
    (brackets : hint.keepsBrackets false = true) (hp' : IsOutside p') :
    ∃ hint' q', (hintOfText hint.printed).outcome s p' = (.ok hint', q') ∧
      (hint'.printed = hint.printed ↔ hint.hiddenFlags = 0) := by
  obtain ⟨⟨meaning, importable⟩, -⟩ := (gives_hintOfSyntax ho _ p hp).2 hint q read
  have formed : (HintSyntax.ofText text).Formed [] := HintSyntax.formed_ofText line id
  have normal : hint.Normal [] := formed.normal (nil_subset _) meaning importable
  have legible : hint.Legible [',', ']'] [] := normal.legible.keeping brackets
  obtain ⟨hint', meaning', importable', grown⟩ := normal.steady.readsBack legible normal.qualified
  obtain ⟨q', again⟩ := (gives_hintOfSyntax ho _ p' hp').1 hint' ⟨meaning', importable'⟩
  refine ⟨hint', q', ?_, grown.eq_iff⟩
  rw [hintOfText, legible.ofText]
  exact again

/-- No modules, and the default options. -/
def nowhere : Setting := ⟨{}, .ofModules []⟩

/-- The state in which a hint of something outside of every module is read. -/
def outside : Progress := { layers := [{ path := ⟨["x"]⟩ }] }

theorem isOutside_outside : IsOutside outside := ⟨cons_ne_nil _ _, rfl, rfl, rfl⟩

/-- A hint in which names are completed and bars are written is normal after that. -/
theorem optional_list_normal : ∃ hint q,
    (hintOfText "Optional[Union[List[int], 'a[']]".toList).outcome nowhere outside = (.ok hint, q) ∧
      hint.printed = "list[int] | 'a[' | None".toList ∧
      ∃ hint' q', (hintOfText hint.printed).outcome nowhere outside = (.ok hint', q') ∧
        hint'.printed = hint.printed := by
  have result : ((hintOfText "Optional[Union[List[int], 'a[']]".toList).outcome nowhere
      outside).1.toOption.map (fun h => (h.printed, h.keepsBrackets false, h.hiddenFlags)) =
        some ("list[int] | 'a[' | None".toList, true, 0) := by
    rw [nowhere, World.ofModules_eq]
    decide +kernel
  rcases h : (hintOfText "Optional[Union[List[int], 'a[']]".toList).outcome nowhere outside with
    ⟨e | hint, q⟩
  · rw [h] at result
    cases result
  · rw [h] at result
    injection Option.some.inj result with text result
    injection result with brackets flags
    obtain ⟨hint', q', again, same⟩ :=
      printed_hint_normal rfl isOutside_outside (by decide) h brackets isOutside_outside
    exact ⟨hint, q, rfl, text, hint', q', again, same.mpr flags⟩

/-- A mark after a backslash ends a quoted text, so that the bracket after it stands outside. The hint
is not read back: the bar in it cuts its text in two. -/
theorem escaped_mark_not_normal :
    ((hintOfText "A['a\\'] \\'', Union[b, c]]".toList).outcome nowhere outside).1.toOption.map
        (fun h => (h.printed, h.keepsBrackets false)) =
      some ("A['a\\'] \\'', b | c]".toList, false) ∧
    ((hintOfText "A['a\\'] \\'', b | c]".toList).outcome nowhere outside).1.toOption.map
        Hint.printed = some "... | ...".toList := by
  rw [nowhere, World.ofModules_eq]
  constructor
  · decide +kernel
  · decide +kernel

end Inspection

end TypeStubs
