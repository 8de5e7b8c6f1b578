import TypeStubs.Proofs.ArrayTexts
import TypeStubs.Proofs.DefinedClasses
import TypeStubs.Proofs.RecoveredOverloads
import TypeStubs.Proofs.StandingNames
import TypeStubs.Proofs.StringDefaults

/-! The hint of the object itself in the methods that docstrings give. It is left out if and only if the
name that it has in the module is any type or an end of the path of the class. The end may be the name of
another class. -/

namespace TypeStubs

open List

/-- The parameters of the overloads from a number on. -/
def overloadTexts (pattern : Regex) (number : Nat) : List String → List (List Char)
  | [] => []
  | line :: lines =>
    match pattern.match? line.toList with
    | none => overloadTexts pattern number lines
    | some c =>
      if c.named? "overload_number" = some (toString number).toList then
        (c.named? "args").getD [] :: overloadTexts pattern (number + 1) lines
      else overloadTexts pattern number lines

/-- The parameters of the signatures in the lines of a docstring. -/
def signatureTexts (name : String) : List String → List (List Char)
  | [] => []
  | first :: lines =>
    match (Regex.read (signaturePattern name)).toOption.bind (·.match? first.toList) with
    | none => []
    | some c =>
      if lines.head? = some overloadsLine then
        match (Regex.read (overloadPattern name)).toOption with
        | none => []
        | some pattern => overloadTexts pattern 1 (lines.drop 1)
      else [(c.named? "args").getD []]

/-- The first parameter is `self`, with a name and nothing else for its hint. -/
def NamesSelf (text : List Char) (name : QualifiedName) : Prop :=
  ∃ a as hint, ArgumentText.split? text = some (a :: as) ∧ trim a.name = "self".toList ∧
    a.hint = some hint ∧ HintSyntax.ofText hint = .single (.named name none)

/-- The name is any type, or the name of the class at a path or an end of it. -/
def QualifiedName.SaysNothing (name path : QualifiedName) : Prop :=
  name.parts = ["Any"] ∨ name.parts = ["typing", "Any"] ∨ name.parts ≠ [] ∧ name.parts <:+ path.parts

instance (name path : QualifiedName) : Decidable (name.SaysNothing path) :=
  inferInstanceAs (Decidable (_ ∨ _ ∨ _))

theorem isRedundantSelf_iff {className name : QualifiedName} {parameters : Option (List Hint)}
    (inClass : className.parts ≠ []) (h : parameters ≠ some []) :
    isRedundantSelf className (.type name parameters) = true ↔
      parameters = none ∧ name.SaysNothing className := by
  have bare : (parameters.getD []).isEmpty = true ↔ parameters = none := by
    rcases parameters with _ | _ | _
    · simp
    · exact absurd rfl h
    · simp
  have ending : (name = className ∨ name.parts = if name.length = 0 then className.parts
      else className.parts.drop (className.length - name.length)) ↔
        name.parts ≠ [] ∧ name.parts <:+ className.parts := by
    rw [suffix_iff_eq_drop]
    constructor
    · rintro (rfl | same)
      · exact ⟨inClass, by simp⟩
      · split at same
        · rename_i empty
          exact absurd (same.symm.trans (length_eq_zero_iff.mp empty)) inClass
        · rename_i nonempty
          exact ⟨fun empty => nonempty (length_eq_zero_iff.mpr empty), same⟩
    · rintro ⟨nonempty, same⟩
      refine .inr (same.trans (if_neg ?_).symm)
      exact mt length_eq_zero_iff.mp nonempty
  simp only [isRedundantSelf, Bool.and_eq_true, Bool.or_eq_true, decide_eq_true_eq, bare, or_assoc,
    ending, QualifiedName.SaysNothing]

namespace Inspection

variable {s : Setting} {site : Site} {p q : Progress} {name : String} {lines : List String}
  {c : Captures} {f : Function} {fs : List Function}

/-! The parameters of each function are read from those of its signature. -/

theorem returned_argumentsOfText {x : List Argument → Inspection Function}
    (hx : ∀ as p q f, (x as).outcome s p = (.ok f, q) → f.arguments = as) (hp : IsAt site p)
    (h : (do x (← argumentsOfText (← groupText c "args"))).outcome s p = (.ok f, q)) :
    Returned s site (argumentsOfText ((c.named? "args").getD [])) f.arguments := by
  obtain ⟨text, r, group, h⟩ := bind_ok_iff.mp h
  obtain ⟨arguments, r', read, h⟩ := bind_ok_iff.mp h
  have at' := (plain_groupText c "args").isAt group hp
  have found : (c.named? "args").getD [] = text := by
    unfold groupText at group
    cases named : c.named? "args" with
    | none =>
      rw [named] at group
      cases group
    | some text' =>
      rw [named] at group
      cases group
      rfl
  rw [found, hx _ _ _ _ h]
  exact ⟨r, r', at', read⟩

theorem returned_functionOfMatch {doc : List String} (hp : IsAt site p)
    (h : (functionOfMatch name c doc).outcome s p = (.ok f, q)) :
    Returned s site (argumentsOfText ((c.named? "args").getD [])) f.arguments := by
  obtain ⟨returns, r, read, h⟩ := bind_ok_iff.mp h
  refine returned_argumentsOfText ?_ ((plain_hintOfText? _).isAt read hp) h
  intro as p q f h
  cases h
  rfl

theorem returned_overloadOfMatch (hp : IsAt site p)
    (h : (overloadOfMatch name c).outcome s p = (.ok f, q)) :
    Returned s site (argumentsOfText ((c.named? "args").getD [])) f.arguments := by
  refine returned_argumentsOfText ?_ hp h
  intro as p q f h
  obtain ⟨_, _, _, h⟩ := bind_ok_iff.mp h
  obtain ⟨_, _, _, h⟩ := bind_ok_iff.mp h
  obtain ⟨_, _, _, h⟩ := bind_ok_iff.mp h
  cases h
  rfl

def AreSigned (s : Setting) (site : Site) (texts : List (List Char)) (fs : List Function) : Prop :=
  Forall₂ (fun text f => Returned s site (argumentsOfText text) f.arguments) texts fs

theorem areSigned_overloadsOfLines {pattern : Regex} {number : Nat}
    {r : List String × List Function} (hp : IsAt site p)
    (h : (overloadsOfLines pattern name number lines).outcome s p = (.ok r, q)) :
    AreSigned s site (overloadTexts pattern number lines) r.2 := by
  induction lines generalizing number p r with
  | nil =>
    cases h
    exact .nil
  | cons line lines ih =>
    rw [overloadsOfLines] at h
    rw [overloadTexts]
    cases found : pattern.match? line.toList with
    | none =>
      rw [found] at h
      obtain ⟨rest, _, later, h⟩ := bind_ok_iff.mp h
      cases h
      have signed := ih hp later
      exact signed
    | some c =>
      rw [found] at h
      dsimp only at h ⊢
      rw [outcome_ite] at h
      split at h
      · rename_i numbered
        obtain ⟨f, r₁, read, h⟩ := bind_ok_iff.mp h
        obtain ⟨rest, r₂, later, h⟩ := bind_ok_iff.mp h
        cases h
        rw [if_pos numbered]
        have signed := returned_overloadOfMatch hp read
        exact .cons signed (ih ((plain_overloadOfMatch _ c).isAt read hp) later)
      · rename_i other
        obtain ⟨rest, _, later, h⟩ := bind_ok_iff.mp h
        cases h
        rw [if_neg other]
        have signed := ih hp later
        exact signed

theorem patternOf_ok {source : String} {pattern : Regex}
    (h : (patternOf source).outcome s p = (.ok pattern, q)) :
    (Regex.read source).toOption = some pattern := by
  unfold patternOf at h
  split at h
  · rename_i read
    cases h
    rw [read]
    rfl
  · cases h
  · cases h

theorem areSigned_functionsOfLines (hp : IsAt site p)
    (h : (functionsOfLines name lines).outcome s p = (.ok fs, q)) :
    AreSigned s site (signatureTexts name lines) fs := by
  cases lines with
  | nil =>
    cases h
    exact .nil
  | cons first lines =>
    obtain ⟨pattern, r, read, h⟩ := bind_ok_iff.mp h
    have hr := (plain_patternOf _).isAt read hp
    unfold signatureTexts
    dsimp only
    rw [patternOf_ok read, Option.bind_some]
    cases found : pattern.match? first.toList with
    | none =>
      rw [found] at h
      cases h
      exact .nil
    | some c =>
      rw [found] at h
      dsimp only at h ⊢
      rw [outcome_ite] at h
      split at h
      · rename_i several
        obtain ⟨pattern', r', read', h⟩ := bind_ok_iff.mp h
        obtain ⟨_, _, overloads, h⟩ := bind_ok_iff.mp h
        cases h
        rw [if_pos several, patternOf_ok read']
        exact areSigned_overloadsOfLines ((plain_patternOf _).isAt read' hr) overloads
      · rename_i single
        obtain ⟨f, r', given, h⟩ := bind_ok_iff.mp h
        cases h
        rw [if_neg single]
        exact .cons (returned_functionOfMatch hr given) .nil

/-! The first parameter. -/

/-- The first of the parameters is `self`, and its hint is as given, or the parameters are those of a
function that takes anything. -/
def HasSelf (hint : Option Hint) (arguments : List Argument) : Prop :=
  arguments = genericArguments ∨ ∃ first rest, arguments = first :: rest ∧
    first.name = some "self" ∧ first.hint = hint

theorem hasSelf_argumentsOfText {text : List Char} {as : List Argument} {name : QualifiedName}
    (h : Returned s site (argumentsOfText text) as) (named : NamesSelf text name) :
    HasSelf (some (.type (name.standing s.options.arrays site.path)
      (name.given s.options.arrays site.path))) as := by
  obtain ⟨p, q, hp, h⟩ := h
  obtain ⟨⟨self, _, default⟩, as, hint, cut, isSelf, rfl, single⟩ := named
  have starred : ArgumentText.starredName? self = some (0, "self".toList) := by
    rw [ArgumentText.starredName?, isSelf]
    decide
  rw [argumentsOfText, cut] at h
  dsimp only at h
  rw [argumentsOfTexts_plain self _ (by rw [isSelf]; decide) (by rw [isSelf]; decide) starred] at h
  obtain ⟨hint', r, read, h⟩ := bind_ok_iff.mp h
  obtain ⟨default', r', -, h⟩ := bind_ok_iff.mp h
  obtain ⟨raw, r'', read, done⟩ := bind_ok_iff.mp read
  cases done
  rw [hintOfText, single, hintOfSyntax, typeOfSyntax, pure_bind] at read
  obtain ⟨rfl, -⟩ := ((givesAt_refine_name name).only p hp.isIn _ _ read).1
  refine (argumentsOfTexts_keeps (g := fun a => (a.name, a.hint)) (fun _ => rfl) h).imp_right ?_
  rintro ⟨rest, whole⟩
  rw [nil_append, map_singleton, singleton_append] at whole
  obtain ⟨first, rest', rfl, same, -⟩ := map_eq_cons_iff.mp whole.symm
  obtain ⟨isNamed, hinted⟩ := Prod.mk.inj same
  exact ⟨first, rest', rfl, isNamed, hinted⟩

theorem given_ne_some_nil (name : QualifiedName) (style : ArrayStyle) (path : QualifiedName) :
    name.given style path ≠ some [] := by
  unfold QualifiedName.given
  dsimp only
  split
  · rintro ⟨⟩
  · split
    · rintro ⟨⟩
    · rintro ⟨⟩

theorem hasSelf_withoutSelfHint {className : QualifiedName} {hint : Hint}
    (h : HasSelf (some hint) f.arguments) :
    HasSelf (if isRedundantSelf className hint then none else some hint)
      (f.withoutSelfHint className).arguments := by
  obtain ⟨name, arguments, returns, doc, decorators⟩ := f
  rcases h with rfl | ⟨first, rest, rfl, named, hinted⟩
  · exact .inl rfl
  · refine .inr ?_
    simp only [Function.withoutSelfHint, named, hinted, Option.any_some, decide_true, Bool.true_and]
    split
    · exact ⟨_, rest, rfl, rfl, rfl⟩
    · exact ⟨first, rest, rfl, named, hinted⟩

/-- What the object says of itself is that it takes anything. -/
def TakesAnything (s : Setting) (name : String) (o : Object) : Prop :=
  ∀ p f q, (signedFunction name o).outcome s p = (.ok f, q) → f.arguments = genericArguments

theorem areSigned_functionsOf {path : QualifiedName} {o : Object} {doc : String}
    (generic : TakesAnything s path.last o) (documented : o.doc? = some doc)
    (found : signatureTexts path.last (textLines doc) ≠ [])
    (h : (functionsOf path o).outcome s p = (.ok fs, q)) :
    AreSigned s (siteOf p) (signatureTexts path.last (textLines doc)) fs := by
  obtain ⟨r, inside, -⟩ := outcome_withLayer_ok_iff.mp h
  obtain ⟨f, r₁, signed, inside⟩ := bind_ok_iff.mp inside
  rw [if_pos (generic _ _ _ signed), documented] at inside
  obtain ⟨fs', r₂, read, inside⟩ := bind_ok_iff.mp inside
  have signed' := areSigned_functionsOfLines
    ((plain_signedFunction _ o).isAt signed ((isIn_siteOf p).pushed path)) read
  cases inside
  cases fs' with
  | nil => exact absurd (forall₂_nil_right_iff.mp signed') found
  | cons => exact signed'

/-- In the class at a path, the hint of `self` that a signature in the docstring gives is left out if
and only if the name that it has in the module is any type, or is the path of the class or an end of it,
and has no parameters there. Otherwise the hint is kept. Overloads correspond to their signatures in
order. -/
theorem self_hint_left_out_iff {path : QualifiedName} {o : Object} {doc : String} {ms : List Method}
    (inClass : path.parent.parts ≠ []) (shown : path.last ∉ hiddenMethods)
    (generic : TakesAnything s path.last o) (documented : o.doc? = some doc)
    (found : signatureTexts path.last (textLines doc) ≠ [])
    (h : (methodsOf path o).outcome s p = (.ok ms, q)) :
    ∃ fs, Forall₂ (fun text f => ∀ name, NamesSelf text name → ∃ hint, HasSelf hint f.arguments ∧
        (hint = none ↔ name.given s.options.arrays p.modulePath = none ∧
          (name.standing s.options.arrays p.modulePath).SaysNothing path.parent) ∧
        ∀ h ∈ hint, h = .type (name.standing s.options.arrays p.modulePath)
          (name.given s.options.arrays p.modulePath))
      (signatureTexts path.last (textLines doc)) fs ∧
      ms.map Method.function =
        fs.filter fun f => !(f.name = "__init__" && f.doc = some inheritedInitDoc) := by
  obtain ⟨r, inside, -⟩ := outcome_withLayer_ok_iff.mp h
  rw [outcome_ite, if_neg (by simpa using shown)] at inside
  obtain ⟨fs, r', read, inside⟩ := bind_ok_iff.mp inside
  cases inside
  have signed := areSigned_functionsOf generic documented found read
  refine ⟨fs.map (·.withoutSelfHint path.parent), ?_, ?_⟩
  · refine forall₂_map_right_iff.mpr (signed.imp fun text f returned name named => ?_)
    refine ⟨_, hasSelf_withoutSelfHint (hasSelf_argumentsOfText returned named), ?_, ?_⟩
    · rw [← isRedundantSelf_iff inClass (given_ne_some_nil name _ _)]
      split
      · rename_i redundant
        exact iff_of_true rfl redundant
      · rename_i kept
        exact iff_of_false (by simp) kept
    · split
      · exact fun _ none => by cases none
      · rintro _ ⟨⟩
        rfl
  · rw [filter_map, map_map, filter_map]
    rfl

def ownDoc : String := "f(*args, **kwargs)\n" ++ overloadsLine ++ "\n\n" ++
  "1. f(self:m.A.B) -> None\n2. f(self:m.C, x: int) -> None"

def ownPath : QualifiedName := ⟨["m", "A", "B", "f"]⟩

theorem namesSelf_of_isWritten {name : QualifiedName} {text : List Char} {a : ArgumentText}
    {as : List ArgumentText} (split : ArgumentText.split? text = some (a :: as))
    (isSelf : trim a.name = "self".toList) (hinted : a.hint = some name.text.toList)
    (written : name.IsWritten) : NamesSelf text name :=
  ⟨a, as, _, split, isSelf, hinted, written.ofText_name⟩

/-- The class itself is left out, and another class is kept. -/
theorem other_class_kept : ∃ ms q f g,
    (methodsOf ownPath (nativeRoutine "f" ownDoc)).outcome ⟨{}, .ofModules []⟩ insideModule =
      (.ok ms, q) ∧
    ms.map Method.function =
      [f, g].filter (fun f => !(f.name = "__init__" && f.doc = some inheritedInitDoc)) ∧
    HasSelf none f.arguments ∧ HasSelf (some (.type ⟨["C"]⟩ none)) g.arguments := by
  have returns : ((methodsOf ownPath (nativeRoutine "f" ownDoc)).outcome
      ⟨{}, .ofModules []⟩ insideModule).1.isOk = true := by
    rw [World.ofModules_eq]
    decide +kernel
  have texts : signatureTexts ownPath.last (textLines ownDoc) =
      ["self:m.A.B".toList, "self:m.C, x: int".toList] := by decide +kernel
  have one : ArgumentText.split? "self:m.A.B".toList =
      some [⟨"self".toList, some "m.A.B".toList, none⟩] := by decide +kernel
  have two : ArgumentText.split? "self:m.C, x: int".toList =
      some [⟨"self".toList, some "m.C".toList, none⟩, ⟨" x".toList, some " int".toList, none⟩] := by
    decide +kernel
  have own : NamesSelf "self:m.A.B".toList ⟨["m", "A", "B"]⟩ :=
    namesSelf_of_isWritten one (by decide) (by decide +kernel) (by decide +kernel)
  have other : NamesSelf "self:m.C, x: int".toList ⟨["m", "C"]⟩ :=
    namesSelf_of_isWritten two (by decide) (by decide +kernel) (by decide +kernel)
  have generic : TakesAnything ⟨{}, .ofModules []⟩ ownPath.last (nativeRoutine "f" ownDoc) := by
    intro p f q h
    cases h
    rfl
  have found : signatureTexts ownPath.last (textLines ownDoc) ≠ [] := texts ▸ cons_ne_nil _ _
  rcases h : (methodsOf ownPath (nativeRoutine "f" ownDoc)).outcome
      ⟨{}, .ofModules []⟩ insideModule with ⟨e | ms, q⟩
  · rw [h] at returns
    cases returns
  · obtain ⟨fs, each, same⟩ := self_hint_left_out_iff (by decide) (by decide) generic rfl found h
    rw [texts] at each
    cases each with
    | cons first each =>
      cases each with
      | cons second each =>
        cases each
        obtain ⟨hint, leftOut, omitted, -⟩ := first _ own
        obtain ⟨hint', kept, omitted', isStanding⟩ := second _ other
        obtain rfl := omitted.mpr (by decide +kernel)
        have isSome : hint' ≠ none := mt omitted'.mp (by decide +kernel)
        obtain ⟨hint', rfl⟩ := Option.ne_none_iff_exists'.mp isSome
        obtain rfl : hint' = .type ⟨["C"]⟩ none := (isStanding hint' rfl).trans (by decide +kernel)
        exact ⟨ms, q, _, _, rfl, same, leftOut, kept⟩

def namesakes : Object := .moduleDef "m" none
  [("A", classOfM "A" "A" [("B", classOfM "B" "A.B" [])]), ("B", classOfM "B" "B" [])]

/-- In the class `m.A.B` the class `m.B` is taken for the class itself. -/
theorem namesake_left_out :
    ((methodsOf ⟨["m", "A", "B", "f"]⟩ (nativeRoutine "f" "f(self: m.B) -> None")).outcome
      (worldOf namesakes) insideModule).1.toOption.map
        (·.map fun m => m.function.arguments.map fun a => (a.name, a.hint)) =
          some [[(some "self", none)]] ∧
    [⟨["m", "A", "B"]⟩, ⟨["m", "B"]⟩].map (fun path => ((worldOf namesakes).world.objectAt?
      (worldOf namesakes).world.reach path).map (·.site)) =
        [some ⟨["m", "A", "B"]⟩, some ⟨["m", "B"]⟩] := by
  rw [worldOf, World.ofModules_eq]
  decide +kernel

end Inspection

end TypeStubs
