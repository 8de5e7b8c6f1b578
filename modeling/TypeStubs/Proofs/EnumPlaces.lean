import TypeStubs.Proofs.EnumTexts
import TypeStubs.Proofs.IgnoredFlags
import TypeStubs.Proofs.ReadingDepth

/-! The places of enumerations are dotted names of identifiers, because a command line that gives
another place is rejected. What is read for an enumeration in such a place calls for no enumeration
again. -/

namespace TypeStubs

open List String

variable {c : CommandLine} {place : String} {arguments : List String}

/-! Where a command line places enumerations. -/

def IsPlace (place : String) : Prop := (splitAtChar '.' place.toList).all isIdentifierChars = true

theorem isPlace_of_locationValue {f : Flag} {value : String} {l : Regex × String}
    (h : f.locationValue value = .ok l) : IsPlace l.2 := by
  unfold Flag.locationValue at h
  cases cut : splitAtLast? ':' value.toList with
  | none =>
    rw [cut] at h
    cases h
  | some parts =>
    obtain ⟨source, place⟩ := parts
    simp only [cut] at h
    split at h
    · rename_i named
      split at h
      · cases h
        rw [IsPlace, toList_ofList]
        exact named
      · cases h
      · cases h
    · cases h

namespace CommandLine

/-- All places that were given are dotted names of identifiers. -/
def PlacesNamed (c : CommandLine) : Prop := ∀ l, .value l ∈ c.enumLocations → IsPlace l.2

theorem PlacesNamed.apply {f : Flag} {given : Given String} {d : CommandLine}
    (hc : c.PlacesNamed) (h : f.apply given c = .ok d) : d.PlacesNamed := by
  have chosen {style : ArrayStyle} (h : f.chooseArrays style c = .ok d) : d.PlacesNamed := by
    unfold Flag.chooseArrays at h
    split at h
    · split at h
      · cases h
        exact hc
      · cases h
    · cases h
      exact hc
  cases f with
  | enumLocations =>
    obtain ⟨location, read, h⟩ := bind_ok h
    cases h
    intro l hl
    rcases mem_append.mp hl with hl | hl
    · exact hc l hl
    · cases mem_singleton.mp hl
      cases given with
      | nothing => cases read
      | value text =>
        obtain ⟨_, value, read⟩ := bind_ok read
        cases read
        exact isPlace_of_locationValue value
  | help => cases h
  | annotatedArrays => exact chosen h
  | typeVariableArrays => exact chosen h
  | bareArrays => exact chosen h
  | ignoreExpressions | ignoreIdentifiers | ignoreNames | safeValues | extension =>
    obtain ⟨_, -, h⟩ := bind_ok h
    cases h
    exact hc
  | outputDirectory | rootSuffix | ignoreAll | invalidAsIs | exitCode | dryRun =>
    cases h
    exact hc

theorem PlacesNamed.applyAll {flags : List (Flag × Given String)} {d : CommandLine}
    (hc : c.PlacesNamed) (h : applyAll flags c = .ok d) : d.PlacesNamed := by
  induction flags generalizing c with
  | nil =>
    cases h
    exact hc
  | cons g flags ih =>
    obtain ⟨c', applied, h⟩ := bind_ok h
    exact ih (hc.apply applied) h

theorem placesNamed_of_ofArguments (h : ofArguments arguments = .ok c) : c.PlacesNamed := by
  obtain ⟨flags, line, -, applied, same⟩ := ofArguments_others h
  have places : c.hearingAll.enumLocations = line.enumLocations := by rw [same]
  have none : PlacesNamed {} := by
    intro l hl
    cases hl
  intro l hl
  exact none.applyAll applied l (places ▸ hl)

theorem mem_of_locationsFrom {position : Nat} {given : List (Given (Regex × String))}
    {ls : List (Regex × String)} (h : locationsFrom position given = .ok ls) {l : Regex × String}
    (hl : l ∈ ls) : .value l ∈ given := by
  induction given generalizing position ls with
  | nil =>
    cases h
    cases hl
  | cons g given ih =>
    cases g with
    | nothing => cases h
    | value l' =>
      obtain ⟨rest, read, h⟩ := bind_ok h
      cases h
      rcases mem_cons.mp hl with rfl | hl
      · exact mem_cons_self
      · exact .tail _ (ih read hl)

end CommandLine

namespace Options

theorem forall_mem_enumPlaces {o : Options} {P : String → Prop}
    (h : ∀ l ∈ o.enumLocations, P l.2) : ∀ place ∈ o.enumPlaces, P place.2 := by
  refine foldlRecOn
    (motive := fun places : List (Regex × String) => ∀ place ∈ places, P place.2) _ _ ?_ ?_
  · intro place hp
    cases hp
  · intro places named l hl
    split
    · refine forall_mem_map.mpr fun place hp => ?_
      split
      · exact h l hl
      · exact named place hp
    · exact forall_mem_append.mpr ⟨named, forall_mem_singleton.mpr (h l hl)⟩

theorem isPlace_of_mem_enumPlaces {o : Options}
    (hc : CommandLine.ofArguments arguments = .ok c) (ho : c.options = .ok o) :
    ∀ place ∈ o.enumPlaces, IsPlace place.2 := by
  refine forall_mem_enumPlaces fun l hl => ?_
  obtain ⟨locations, read, ho⟩ := bind_ok ho
  obtain ⟨_, -, ho⟩ := bind_ok ho
  obtain ⟨_, -, ho⟩ := bind_ok ho
  obtain ⟨_, -, ho⟩ := bind_ok ho
  cases ho
  exact CommandLine.placesNamed_of_ofArguments hc l (CommandLine.mem_of_locationsFrom read hl)

end Options

/-! Texts of placed names. -/

/-- No mark that a text is cut at, and no mark of an enumeration in front. -/
structure IsSolid (cs : List Char) : Prop where
  marks : ∀ c ∈ cs, isQuote c = false ∧ closer? c = none ∧ c ∉ ['|']
  blanks : ∀ c ∈ cs, isBlank c = false
  start : cs.head? ≠ some '<'

theorem isIdentifierContinue_of_isBlank {c : Char} (h : isBlank c = true) :
    isIdentifierContinue c = false := by
  have codes : ∀ n ∈ blankCodes, isIdentifierContinue (Char.ofNat n) = false := by decide +kernel
  simpa using codes _ (mem_blankCodes h)

def InName (c : Char) : Prop :=
  isWord c = true ∨ isIdentifierStart c = true ∨ isIdentifierContinue c = true ∨ c = '.'

theorem InName.not_mark {c : Char} (h : InName c) :
    isQuote c = false ∧ closer? c = none ∧ c ∉ ['|'] := by
  have marks : ∀ c ∈ ['"', '\'', '(', '[', '\x7b', '|'], isWord c = false ∧
      isIdentifierStart c = false ∧ isIdentifierContinue c = false ∧ c ≠ '.' :=
    forall_of_all (by decide)
  have other : c ∉ ['"', '\'', '(', '[', '\x7b', '|'] := by
    intro mark
    obtain ⟨word, start, continues, dot⟩ := marks c mark
    simp [InName, word, start, continues, dot] at h
  simp only [mem_cons, not_mem_nil, or_false, not_or] at other
  simp [isQuote, closer?, other]

theorem InName.not_blank {c : Char} (h : InName c) : isBlank c = false := by
  refine Bool.eq_false_iff.mpr fun blank => ?_
  rcases h with word | start | continues | rfl
  · simp [isWord_of_isBlank blank] at word
  · simp [isIdentifierStart_of_isBlank blank] at start
  · simp [isIdentifierContinue_of_isBlank blank] at continues
  · cases blank

theorem inName_of_isIdentifierChars {cs : List Char} (h : isIdentifierChars cs = true) :
    ∀ c ∈ cs, InName c := by
  cases cs with
  | nil => cases h
  | cons d cs =>
    obtain ⟨start, continues⟩ := Bool.and_eq_true_iff.mp h
    refine forall_mem_cons.mpr ⟨.inr (.inl start), fun c hc => ?_⟩
    exact .inr (.inr (.inl (all_eq_true.mp continues c hc)))

theorem EnumText.inName_className {cs : List Char} {e : EnumText} (h : read? cs = some e) :
    ∀ c ∈ e.className.toList, InName c := by
  intro c hc
  rcases (isDotted_iff.mp (starts_of_read? h).1.className).1 c hc with word | dot
  · exact .inl word
  · exact .inr (.inr (.inr dot))

theorem IsPlace.inName (h : IsPlace place) : ∀ c ∈ place.toList, InName c := by
  intro c hc
  rw [← intercalate_splitAtChar '.' place.toList] at hc
  rcases mem_intercalate hc with dot | ⟨part, hp, hin⟩
  · exact .inr (.inr (.inr (mem_singleton.mp dot)))
  · exact inName_of_isIdentifierChars (all_eq_true.mp h part hp) c hin

theorem IsPlace.start (h : IsPlace place) :
    ∃ c rest, place.toList = c :: rest ∧ isIdentifierStart c = true := by
  obtain ⟨first, others, cut⟩ := exists_cons_of_ne_nil (splitAtChar_ne_nil '.' place.toList)
  have text := intercalate_splitAtChar '.' place.toList
  rw [IsPlace, cut, all_cons, Bool.and_eq_true] at h
  cases first with
  | nil => cases h.1
  | cons c part =>
    refine ⟨c, part ++ (intercalate ['.'] ([] :: others)), ?_, (Bool.and_eq_true_iff.mp h.1).1⟩
    rw [← text, cut]
    cases others with
    | nil => simp
    | cons next others => simp

theorem IsPlace.isSolid (h : IsPlace place) {cs : List Char} {e : EnumText}
    (he : EnumText.read? cs = some e) : IsSolid (place ++ "." ++ e.className).toList := by
  have named : ∀ c ∈ (place ++ "." ++ e.className).toList, InName c := by
    intro c hc
    rw [toList_append, toList_append] at hc
    rcases mem_append.mp hc with hc | hc
    · rcases mem_append.mp hc with hc | hc
      · exact h.inName c hc
      · exact .inr (.inr (.inr (mem_singleton.mp hc)))
    · exact EnumText.inName_className he c hc
  refine ⟨fun c hc => (named c hc).not_mark, fun c hc => (named c hc).not_blank, ?_⟩
  obtain ⟨c, rest, text, start⟩ := h.start
  rw [toList_append, toList_append, text]
  rintro ⟨⟩
  exact absurd start (by decide)

namespace IsSolid

variable {cs : List Char} (h : IsSolid cs)

include h

theorem trim : trim cs = cs :=
  trim_eq_self (fun c hc => h.blanks c (mem_of_mem_head? hc))
    fun c hc => h.blanks c (mem_of_getLast? hc)

theorem ofText : HintSyntax.ofText cs =
    .single (match cutName cs with
      | (name, []) => .named (nameOfText name) none
      | _ => .value cs) := by
  have part : (cutName cs).2 ⊆ cs := drop_subset _ _
  have rest : TypeStubs.trim (cutName cs).2 = (cutName cs).2 :=
    trim_eq_self (fun c hc => h.blanks c (part (mem_of_mem_head? hc)))
      fun c hc => h.blanks c (part (mem_of_getLast? hc))
  rw [HintSyntax.ofText_of_closed (.of_plain h.marks), TypeSyntax.ofText_eq, h.trim, rest]
  rcases cut : cutName cs with ⟨name, _ | ⟨c, rest⟩⟩
  · rfl
  · have mark := (h.marks c (part (cut ▸ mem_cons_self))).2.1
    have unbracketed : bracketed? (c :: rest) = none := by
      unfold bracketed?
      split
      · rename_i same
        cases same
        cases mark
      · rfl
    simp only [unbracketed, Option.bind_none]

theorem read?_eq_none : EnumText.read? cs = none := by
  have front : dropFront? ['<'] cs = none := by
    cases cs with
    | nil => rfl
    | cons c cs =>
      have other : '<' ≠ c := fun same => h.start (congrArg some same.symm)
      simp [dropFront?, other]
  rw [EnumText.read?, front]
  rfl

theorem expressionOfText : Inspection.expressionOfText cs = (do
    Inspection.markSafe (← Inspection.plainExpression cs)) := by
  rw [Inspection.expressionOfText, h.trim, h.read?_eq_none]
  rfl

theorem hintOfText : Inspection.hintOfText cs = Inspection.dottedHint cs := by
  rw [Inspection.hintOfText, h.ofText, Inspection.hintOfSyntax, Inspection.dottedHint]
  rcases cutName cs with ⟨name, _ | ⟨c, rest⟩⟩
  · rw [Inspection.typeOfSyntax, pure_bind]
  · rw [Inspection.typeOfSyntax, h.expressionOfText]
    simp only [bind_assoc, pure_bind]

theorem depth_le (names : List QualifiedName) : (HintSyntax.ofText cs).depth names ≤ 3 := by
  have value : expressionDepth cs = 0 := by
    rw [expressionDepth, h.trim, h.read?_eq_none]
    rfl
  obtain ⟨t, ht, shallow⟩ : ∃ t, HintSyntax.ofText cs = .single t ∧ t.depth names ≤ 1 := by
    refine ⟨_, h.ofText, ?_⟩
    rcases cutName cs with ⟨name, _ | ⟨c, rest⟩⟩
    · rw [TypeSyntax.depth]
      exact Nat.zero_le 1
    · rw [TypeSyntax.depth, value]
  rw [ht, HintSyntax.depth]
  split <;> omega

end IsSolid

end TypeStubs
