import TypeStubs.Proofs.ArgumentTexts
import TypeStubs.Proofs.EnumPlaces

/-! Reading ends. Every function that reads texts calls others only to a smaller depth, so that the
calls that one text leads to are nested no deeper than its length allows, whatever the options and
the modules are. -/

namespace TypeStubs

open List

variable {text : List Char} {as : List ArgumentText}

/-! The texts of parameters. -/

namespace ArgumentText

theorem length_of_hint {ms : List (Char × Bool)} (h : (ofMarks ms).hint = some text) :
    text.length ≤ ms.length := by
  obtain ⟨i, -, rfl⟩ := Option.map_eq_some_iff.mp h
  rw [length_drop, length_take, length_map]
  omega

theorem length_of_split? {cs : List Char} {a : ArgumentText}
    (h : split? cs = some as) (ha : a ∈ as) (ht : a.hint = some text) :
    text.length ≤ cs.length := by
  obtain ⟨ms, marks, rfl⟩ := Option.map_eq_some_iff.mp (split?_eq cs ▸ h)
  obtain ⟨segment, hs, rfl⟩ := mem_map.mp ha
  obtain rfl := nestingFrom?_text marks
  rw [length_map]
  calc text.length
      ≤ segment.length := length_of_hint ht
    _ ≤ ms.length := (nesting?_of_mem_cutWhere marks (filled_subset _ hs)).2.1.length_le

end ArgumentText

namespace Inspection

/-! Depths of calls. -/

def Call.depth (style : ArrayStyle) : Call → Nat
  | .hint text => (HintSyntax.ofText text).depth (words style)
  | .type text => (TypeSyntax.ofText text).depth (words style)
  | .expression text => expressionDepth text
  | .arguments text => text.length + 7
  | .typeName _ => 2
  | .size _ => 0

def Call.length : Call → Nat
  | .hint text => text.length
  | .type text => text.length
  | .expression text => text.length
  | .arguments text => text.length
  | .typeName _ => 0
  | .size _ => 0

theorem Call.depth_lt (style : ArrayStyle) (c : Call) : c.depth style < c.length + 8 := by
  cases c with
  | hint text =>
    have bound := HintSyntax.depth_ofText_le (words style) text
    rw [depth, length]
    omega
  | type text =>
    have bound : (TypeSyntax.ofText text).depth (words style) ≤ text.length + 5 :=
      TypeSyntax.depth_ofText_le fun piece _ => HintSyntax.depth_ofText_le (words style) piece
    rw [depth, length]
    omega
  | expression text =>
    have bound := expressionDepth_le text
    rw [depth, length]
    omega
  | arguments text => exact Nat.lt_succ_self _
  | typeName type => exact (by decide : 2 < 0 + 8)
  | size size => exact Nat.zero_lt_succ _

def Answers.RightBelow (r : Answers) (s : Setting) (n : Nat) : Prop :=
  ∀ d : Call, d.depth s.options.arrays < n → Same s (r d) (answers d)

theorem Answers.RightBelow.mono {r : Answers} {s : Setting} {m n : Nat} (h : r.RightBelow s n)
    (hmn : m ≤ n) : r.RightBelow s m := fun d hd => h d (Nat.lt_of_lt_of_le hd hmn)

/-! What one step needs. -/

namespace Answers.RightBelow

variable {r : Answers} {s : Setting}

theorem word (h : r.RightBelow s 2) (name : QualifiedName) (hw : name ∈ words s.options.arrays) :
    Same s (r.hint name.text) (wellKnownType name.text) := by
  have word := isWord_of_mem hw
  have depth : (Call.hint name.text.toList).depth s.options.arrays = 1 := by
    rw [Call.depth, word.ofText, HintSyntax.depth, TypeSyntax.isAmong,
      if_pos (contains_iff_mem.mpr hw)]
  exact (h _ (by rw [depth]; decide)).trans word.hintOfText

theorem rightAbout (h : r.RightBelow s 3) : r.RightAbout s where
  any := (h.mono (by decide)).word ⟨["Any"]⟩ (by simp [words])
  tuple := name_of_hint ((h.mono (by decide)).word ⟨["Tuple"]⟩ (by simp [words]))
  literal := name_of_hint ((h.mono (by decide)).word ⟨["Literal"]⟩ (by simp [words]))
  array style name listed := by
    refine (h.mono (by decide)).word name (mem_append_right _ ?_)
    rw [if_pos style]
    exact listed
  className size := h (.typeName _) (Nat.lt_succ_self 2)
  size size := h (.size size) (Nat.zero_lt_succ 2)

theorem hint_word (h : r.RightBelow s 1) {piece : List Char} {name : QualifiedName}
    (hp : TypeSyntax.ofText piece = .named name none) (hw : name ∈ words s.options.arrays) :
    Same s (do r.refine (← r (.type piece))) (do Inspection.refine (← typeOfText piece)) := by
  have word := isWord_of_mem hw
  have type : typeOfText piece = pure (.type name none) := by
    rw [typeOfText, hp, typeOfSyntax]
  have depth : (Call.type piece).depth s.options.arrays = 0 := by
    rw [Call.depth, hp, TypeSyntax.depth]
  refine ((h (.type piece) (depth ▸ Nat.zero_lt_one)).bind_left _).trans ?_
  rw [answers, type, pure_bind, pure_bind]
  exact (word.refine r).trans word.refined.symm

theorem hintBody (h : r.RightBelow s ((HintSyntax.ofText text).depth (words s.options.arrays))) :
    Same s (r.hintBody text) (hintOfText text) := by
  have malformed (h : r.RightBelow s 3) :
      Same s (do
        report (.expression (String.ofList text))
        r.refine (.expression (.invalid (String.ofList text)))) (hintOfSyntax (.malformed text)) := by
    rw [hintOfSyntax]
    exact .bind_right _ fun _ => h.rightAbout.refine _
  rw [Answers.hintBody, hintOfText, HintSyntax.ofText_eq]
  rw [HintSyntax.ofText_eq] at h
  generalize pieces? '|' text = pieces at h ⊢
  rcases pieces with _ | _ | ⟨piece, _ | ⟨second, rest⟩⟩
  · exact malformed h
  · exact malformed h
  · simp only [HintSyntax.depth] at h
    rw [hintOfSyntax]
    -- the rules for single types may call for a word, so they must not call for one in a word
    split at h
    · rename_i among
      cases shape : TypeSyntax.ofText piece with
      | value text => simp [shape, TypeSyntax.isAmong] at among
      | named name parameters =>
        cases parameters with
        | some hs => simp [shape, TypeSyntax.isAmong] at among
        | none =>
          simp only [shape, TypeSyntax.isAmong, contains_iff_mem] at among
          exact shape ▸ h.hint_word shape among
    · have about := (h.mono (Nat.le_max_left 3 _)).rightAbout
      have type := h (.type piece) (Nat.lt_of_lt_of_le (Nat.lt_succ_self _) (Nat.le_max_right 3 _))
      exact type.bind fun _ => about.refine _
  · simp only [HintSyntax.depth] at h
    have low : r.RightBelow s 3 := h.mono (Nat.le_max_left 3 _)
    have union := name_of_hint ((low.mono (by decide)).word ⟨["typing", "Union"]⟩ (by simp [words]))
    have types : Same s (hints (fun piece => r (.type piece)) (piece :: second :: rest))
        (typesOfSyntax ((piece :: second :: rest).map TypeSyntax.ofText)) := by
      rw [← hints_typeOfText]
      refine same_hints fun t ht => h (.type t) ?_
      refine Nat.lt_of_lt_of_le (Nat.lt_succ_of_le ?_) (Nat.le_max_right 3 _)
      exact TypeSyntax.highest_le_iff.mp (Nat.le_refl _) _ (mem_map_of_mem ht)
    rw [hintOfSyntax]
    exact union.bind fun _ => types.bind fun _ => low.rightAbout.refine _

theorem typeBody (h : r.RightBelow s ((TypeSyntax.ofText text).depth (words s.options.arrays))) :
    Same s (r.typeBody text) (typeOfText text) := by
  rw [Answers.typeBody, typeOfText, TypeSyntax.ofText_eq]
  rw [TypeSyntax.ofText_eq] at h
  generalize trim (cutName (trim text)).2 = rest at h ⊢
  cases rest with
  | nil =>
    rw [typeOfSyntax]
    exact .refl _
  | cons c rest =>
    simp only at h ⊢
    generalize (bracketed? (c :: rest)).bind (pieces? ',') = pieces at h ⊢
    rcases pieces with _ | pieces
    · simp only [TypeSyntax.depth] at h
      rw [typeOfSyntax]
      exact (h (.expression (trim text)) (Nat.lt_succ_self _)).bind_left _
    · simp only [TypeSyntax.depth] at h
      rw [typeOfSyntax, ← hints_hintOfText]
      refine Same.bind_left (same_hints fun piece hp => h (.hint piece) ?_) _
      exact Nat.lt_succ_of_le (HintSyntax.highest_le_iff.mp (Nat.le_refl _) _ (mem_map_of_mem hp))

theorem placedEnum? (h : r.RightBelow s 4) {cs : List Char} {e : EnumText}
    (he : EnumText.read? cs = some e) {places : List (Regex × String)}
    (hp : ∀ place ∈ places, IsPlace place.2) :
    Same s (r.placedEnum? e places) (Inspection.placedEnum? e places) := by
  induction places with
  | nil => exact .refl _
  | cons place places ih =>
    obtain ⟨first, others⟩ := forall_mem_cons.mp hp
    have solid := first.isSolid he
    -- the text may be longer than that of the enumeration, but it is none itself
    have read : Same s (r.hint (place.2 ++ "." ++ e.className))
        (dottedHint (place.2 ++ "." ++ e.className).toList) := by
      rw [← solid.hintOfText]
      exact h (.hint _) (Nat.lt_succ_of_le (solid.depth_le _))
    refine .ite (fun _ => read.bind fun hint => ?_) fun _ => ih others
    cases hint with
    | type name parameters => exact .refl _
    | expression e => exact ih others

theorem expressionBody (h : r.RightBelow s (expressionDepth text))
    (hp : ∀ place ∈ s.options.enumPlaces, IsPlace place.2) :
    Same s (r.expressionBody text) (expressionOfText text) := by
  rw [Answers.expressionBody, expressionOfText]
  cases he : EnumText.read? (trim text) with
  | none => exact .refl _
  | some e =>
    rw [expressionDepth, he] at h
    intro p
    simp only
    rw [bind_of_ok (outcome_options s p), bind_of_ok (outcome_options s p)]
    exact (h.placedEnum? he hp).bind_left _ p

theorem argumentsOfTexts (h : r.RightBelow s (text.length + 7))
    (ha : ∀ a ∈ as, ∀ t, a.hint = some t → t.length ≤ text.length) (read : List Argument)
    (keywordOnly : Bool) :
    Same s (r.argumentsOfTexts read keywordOnly as) (Inspection.argumentsOfTexts read keywordOnly as) := by
  induction as generalizing read keywordOnly with
  | nil => exact .refl _
  | cons a as ih =>
    obtain ⟨first, others⟩ := forall_mem_cons.mp ha
    have hint : Same s (r.hint? a.hint) (hintOfText? a.hint) := by
      cases ht : a.hint with
      | none => exact .refl _
      | some t =>
        have short := first t ht
        have depth := HintSyntax.depth_ofText_le (words s.options.arrays) t
        have read := h (.hint t) (by rw [Call.depth]; omega)
        exact read.bind_left _
    have default : Same s (r.expression? a.default) (expressionOfText? a.default) := by
      cases a.default with
      | none => exact .refl _
      | some t =>
        have depth := expressionDepth_le t
        have read := h (.expression t) (by rw [Call.depth]; omega)
        exact read.bind_left _
    rw [Answers.argumentsOfTexts, Inspection.argumentsOfTexts]
    refine .ite (fun _ => ih others _ _) fun _ => .ite (fun _ => ih others _ _) fun _ => ?_
    rcases ArgumentText.starredName? a.name with _ | ⟨stars, name⟩
    · exact .refl _
    · exact hint.bind fun _ => default.bind fun _ => ih others _ _

theorem argumentsBody (h : r.RightBelow s (text.length + 7)) :
    Same s (r.argumentsBody text) (argumentsOfText text) := by
  rw [Answers.argumentsBody, argumentsOfText]
  cases cut : ArgumentText.split? text with
  | none => exact .refl _
  | some as => exact h.argumentsOfTexts (fun a ha t ht => ArgumentText.length_of_split? cut ha ht) [] false

theorem builtinTypeName (h : r.RightBelow s 2) (parts : List String) :
    Same s (r.builtinTypeName parts) (Inspection.builtinTypeName parts) := by
  have callable : Same s (r.name "typing.Callable") (wellKnown "typing.Callable") :=
    name_of_hint (h.word ⟨["typing", "Callable"]⟩ (by simp [words]))
  cases parts with
  | nil => exact .refl _
  | cons first rest =>
    by_cases nothing : first = "NoneType"
    · subst nothing
      exact .refl _
    by_cases function : first = "function"
    · subst function
      exact callable
    by_cases method : first = "builtin_function_or_method"
    · subst method
      exact callable
    · have left : r.builtinTypeName (first :: rest) = pure ⟨first :: rest⟩ := by
        simp [Answers.builtinTypeName, nothing, function, method]
      have right : Inspection.builtinTypeName (first :: rest) = pure ⟨first :: rest⟩ := by
        simp [Inspection.builtinTypeName, nothing, function, method]
      rw [left, right]
      exact .refl _

theorem fullTypeName (h : r.RightBelow s 2) (type : TypeName) :
    Same s (r.fullTypeName type) (Inspection.fullTypeName type) := by
  rw [Answers.fullTypeName, Inspection.fullTypeName]
  cases type.module? with
  | none => exact .refl _
  | some m =>
    refine .ite (fun _ => .refl _) fun _ => ?_
    rcases splitText '.' m ++ splitText '.' type.qualified with _ | ⟨first, parts⟩
    · exact .refl _
    · by_cases builtin : first = "builtins"
      · subst builtin
        exact h.builtinTypeName parts
      · simp only [List.cons.injEq, builtin, false_and, imp_self, implies_true]
        exact .refl _

theorem typeNameBody (h : r.RightBelow s 2) (type : TypeName) :
    Same s (r.typeNameBody type) (typeName type) := (h.fullTypeName type).bind_left _

end Answers.RightBelow

theorem Answers.RightBelow.onward {r : Answers} {s : Setting} {c : Call}
    (h : r.RightBelow s (c.depth s.options.arrays))
    (hp : ∀ place ∈ s.options.enumPlaces, IsPlace place.2) : Same s (r.onward c) (answers c) := by
  cases c with
  | hint text => exact h.hintBody
  | type text => exact h.typeBody
  | expression text => exact h.expressionBody hp
  | arguments text => exact h.argumentsBody
  | typeName type => exact h.typeNameBody type
  | size size => exact .refl _

/-! Whole runs. -/

/-- What a function answers to the first call depends on how the second is answered. -/
def Calls (s : Setting) (c d : Call) : Prop :=
  ∃ r : Answers, (∀ e, e ≠ d → r e = answers e) ∧ ¬ Same s (r.onward c) (answers.onward c)

theorem Calls.depth_lt {s : Setting} {c d : Call} (h : Calls s c d)
    (hp : ∀ place ∈ s.options.enumPlaces, IsPlace place.2) :
    d.depth s.options.arrays < c.depth s.options.arrays := by
  obtain ⟨r, others, differs⟩ := h
  -- a call that is not below does not matter, because all that are below are answered as before
  by_contra deep
  have right : r.RightBelow s (c.depth s.options.arrays) := by
    intro e he
    have other : e ≠ d := by
      rintro rfl
      exact deep he
    rw [others e other]
    exact .refl _
  have all : answers.RightBelow s (c.depth s.options.arrays) := fun e _ => .refl _
  exact differs ((right.onward hp).trans (all.onward hp).symm)

theorem calls_union (s : Setting) {first second : List Char} {rest : List (List Char)}
    (h : pieces? '|' text = some (first :: second :: rest)) :
    Calls s (.hint text) (.hint "typing.Union".toList) := by
  classical
  -- one of two failures is not that of the functions themselves
  obtain ⟨f, hf⟩ : ∃ f : Failure, (answers.onward (.hint text)).outcome s {} ≠ (.error f, {}) := by
    by_contra none
    push Not at none
    cases (none .noPattern).symm.trans (none .missingAttribute)
  refine ⟨fun e => if e = .hint "typing.Union".toList then throw f else answers e,
    fun e he => if_neg he, fun same => hf ?_⟩
  rw [← same {}, Answers.onward, Answers.hintBody, h, Answers.name, Answers.hint, if_pos rfl]
  rfl

theorem Answers.rightBelow_within {s : Setting}
    (hp : ∀ place ∈ s.options.enumPlaces, IsPlace place.2) (bottom : Answers) (n : Nat) :
    (bottom.within n).RightBelow s n := by
  induction n with
  | zero => exact fun d hd => absurd hd (Nat.not_lt_zero _)
  | succ n ih => exact fun d hd => (ih.mono (Nat.le_of_lt_succ hd)).onward hp

/-- Under the options of any command line, and with any modules, reading ends. The functions answer
as they do when they call each other, no call leads to itself again, and the calls are nested no
deeper than the text is long and eight more: what would answer deeper calls never matters. -/
theorem reading_ends {arguments : List String} {c : CommandLine} {s : Setting}
    (hc : CommandLine.ofArguments arguments = .ok c) (ho : c.options = .ok s.options) :
    (∀ call, Same s (answers.onward call) (answers call)) ∧
      WellFounded (fun d c => Calls s c d) ∧
      ∀ (bottom : Answers) (call : Call) (n : Nat), call.length + 8 ≤ n →
        Same s (bottom.within n call) (answers call) := by
  have hp := Options.isPlace_of_mem_enumPlaces hc ho
  refine ⟨fun call => ?_, ?_, fun bottom call n hn => ?_⟩
  · have all : answers.RightBelow s (call.depth s.options.arrays) := fun e _ => .refl _
    exact all.onward hp
  · exact Subrelation.wf (fun h => Calls.depth_lt h hp)
      (measure fun c : Call => c.depth s.options.arrays).wf
  · exact Answers.rightBelow_within hp bottom n call (Nat.lt_of_lt_of_le (call.depth_lt _) hn)

/-- A place for enumerations and a style of arrays, an array and an enumeration, and a word that is
longer than the text that calls for it. -/
theorem placed_reading_ends :
    ∃ c o, CommandLine.ofArguments
        ["--enum-class-locations", "C:m", "--numpy-array-use-type-var", "m"] = .ok c ∧
      c.options = .ok o ∧ o.arrays = .typeVariables ∧ o.enumPlaces.map Prod.snd = ["m"] ∧
      ∀ w, Calls ⟨o, w⟩ (.hint "A|B".toList) (.hint "typing.Union".toList) ∧
        WellFounded (fun d c => Calls ⟨o, w⟩ c d) ∧
        Same ⟨o, w⟩ (Answers.within (fun _ => throw .noPattern) 60
            (.hint "numpy.ndarray[numpy.float64[n, 1]] | <C.a: 0>".toList))
          (hintOfText "numpy.ndarray[numpy.float64[n, 1]] | <C.a: 0>".toList) := by
  obtain ⟨c, o, hc, ho, style, places⟩ : ∃ c o, CommandLine.ofArguments
        ["--enum-class-locations", "C:m", "--numpy-array-use-type-var", "m"] = .ok c ∧
      c.options = .ok o ∧ o.arrays = .typeVariables ∧ o.enumPlaces.map Prod.snd = ["m"] :=
    ⟨_, _, rfl, rfl, rfl, rfl⟩
  refine ⟨c, o, hc, ho, style, places, fun w => ?_⟩
  obtain ⟨-, ends, bound⟩ := reading_ends (s := ⟨o, w⟩) hc ho
  have union : pieces? '|' "A|B".toList = some ["A".toList, "B".toList] := by decide
  exact ⟨calls_union _ union, ends, bound _ _ 60 (by decide)⟩

end Inspection

end TypeStubs
