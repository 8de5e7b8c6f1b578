import Mathlib
import TypeStubs.Proofs.BoundMembers
import TypeStubs.Proofs.Nestings

/-! The letters that stand for sizes of arrays, on their way from hints to type variables. A letter is
found in one module and taken by the module that is done next, which may be another one. -/

namespace TypeStubs

open List

variable {hint : Hint} {events : List LetterEvent} {r : Progress} {m : Module}

/-! Letters in names. -/

/-- The type variable that a hint is named by. -/
def Hint.letter? : Hint → Option String
  | .type name _ => name.letter?
  | .expression _ => none

namespace QualifiedName

variable {name : QualifiedName} {letter : String}

theorem letter?_of_letter? (h : name.letter? = some letter) :
    (⟨[letter]⟩ : QualifiedName).letter? = some letter := by
  unfold letter? at h
  split at h
  · split at h
    · cases h
      simp [letter?]
    · cases h
  · cases h

theorem letter?_of_length (h : name.length ≠ 1) : name.letter? = none := by
  unfold letter?
  split
  · rename_i part hp
    simp [length, hp] at h
  · rfl

theorem letter?_qualifyTyping (name : QualifiedName) (b : Bool) :
    (name.qualifyTyping b).letter? = name.letter? := by
  have words : ∀ word ∈ "function" :: "object" :: "handle" :: typingNames,
      (⟨[word]⟩ : QualifiedName).letter? = none := by decide +kernel
  have whole {word : String} (hw : name.parts = [word]) : name = ⟨[word]⟩ := by
    cases name
    exact congrArg QualifiedName.mk hw
  unfold qualifyTyping
  split
  · rename_i word hw
    rw [whole hw]
    split
    · rename_i known
      rw [words word (by simp_all), letter?_of_length (by simp [length])]
    · split
      · rename_i known
        rw [words word (by simp_all), letter?_of_length (by simp [length])]
      · split
        · rename_i known
          rw [words word (by simp_all), letter?_of_length (by simp [length])]
        · rfl
  · rfl

theorem letter?_plainCollection (name : QualifiedName) :
    name.plainCollection.letter? = name.letter? := by
  have words : ∀ word ∈ collectionNames,
      (⟨[word.map Char.toLower]⟩ : QualifiedName).letter? = none := by decide +kernel
  unfold plainCollection
  split
  · rename_i word hw
    split
    · rename_i known
      rw [words word (contains_iff_mem.mp known), letter?_of_length (by simp [length, hw])]
    · rfl
  · rfl

end QualifiedName

namespace Hint

theorem letter?_written (hint : Hint) :
    hint.withoutSparseParameters.qualifyTyping.plainCollection.letter? = hint.letter? := by
  cases hint with
  | expression e => rfl
  | type name parameters =>
    simp only [withoutSparseParameters]
    generalize (if name.parts.take 2 = ["scipy", "sparse"] then none else parameters) = left
    cases left with
    | none | some ps =>
      simp only [qualifyTyping, plainCollection, letter?, QualifiedName.letter?_plainCollection,
        QualifiedName.letter?_qualifyTyping]

end Hint

namespace Inspection

variable {α β : Type} {s : Setting} {p q : Progress} {path : QualifiedName} {x : Inspection α}

/-! Letters in hints. -/

/-- The step finds and takes no letters. -/
def LeavesLetters (x : Inspection α) : Prop :=
  ∀ s p, (x.outcome s p).2.letters = p.letters

namespace LeavesLetters

theorem pure (a : α) : LeavesLetters (Pure.pure a : Inspection α) := fun _ _ => rfl

theorem throw (e : Failure) : LeavesLetters (MonadExcept.throw e : Inspection α) := fun _ _ => rfl

theorem bind {f : α → Inspection β} (hx : LeavesLetters x)
    (hf : ∀ a, LeavesLetters (f a)) : LeavesLetters (x >>= f) := by
  intro s p
  have first := hx s p
  rw [outcome_bind]
  generalize x.outcome s p = r at first ⊢
  obtain ⟨e | a, q⟩ := r
  · exact first
  · exact (hf a s q).trans first

theorem ite {c : Prop} [Decidable c] {y : Inspection α} (hx : LeavesLetters x)
    (hy : LeavesLetters y) : LeavesLetters (if c then x else y) := by
  split
  · exact hx
  · exact hy

theorem requireImport (name : QualifiedName) : LeavesLetters (requireImport name) := by
  intro s p
  rcases requireImport_cases name s p with same | reported | ⟨origin, -, asked⟩
  · rw [same]
  · rw [reported]
    exact congrArg Scope.letters (report_frame (.name name) s p).1
  · rw [asked]

theorem wellKnown (text : String) : LeavesLetters (wellKnown text) :=
  .bind (fun _ _ => rfl) fun _ => .bind (.requireImport _) fun _ => .pure _

theorem wellKnownType (text : String) : LeavesLetters (wellKnownType text) :=
  .bind (.wellKnown text) fun _ => .pure _

theorem completeElementType (hint : Hint) : LeavesLetters (completeElementType hint) := by
  cases hint with
  | expression e => exact .pure _
  | type name parameters => exact .ite (.bind (.wellKnownType _) fun _ => .pure _) (.pure _)

theorem dimensionTypes (dimensions : List Dimension) :
    LeavesLetters (dimensionTypes dimensions) := by
  induction dimensions with
  | nil => exact .pure []
  | cons d ds ih =>
    refine .bind ?_ fun _ => .bind ih fun _ => .pure _
    cases d with
    | number n => exact .bind (.wellKnown _) fun _ => .pure _
    | named name => exact .pure _

theorem shapedArray (parameters : Option (List Hint)) : LeavesLetters (shapedArray parameters) := by
  have shape (dimensions : Option (List Hint)) : LeavesLetters (shapeType dimensions) := by
    refine .bind (.wellKnownType _) fun _ => ?_
    split
    · split
      · exact .bind (.wellKnown _) fun _ => .bind (.dimensionTypes _) fun _ => .pure _
      · exact .pure _
    · exact .pure _
  unfold Inspection.shapedArray
  split
  · exact .ite (.bind (shape _) fun _ => .pure _) (.pure _)
  · exact .pure _
  · exact .bind (.wellKnownType _) fun _ => .bind (.wellKnownType _) fun _ => .pure _

theorem sizeType (t : TypeName) : LeavesLetters (typeName t) := by
  have full : LeavesLetters (fullTypeName t) := by
    unfold fullTypeName
    split
    · exact .throw _
    · refine .ite (.pure _) ?_
      split
      · unfold builtinTypeName
        split
        · exact .pure _
        · exact .wellKnown _
        · exact .wellKnown _
        · exact .pure _
      · exact .pure _
  exact .bind full fun _ => .bind (fun _ _ => rfl) fun _ => .bind (.requireImport _) fun _ => .pure _

theorem integersOfTexts (texts : List (List Char)) : LeavesLetters (integersOfTexts texts) := by
  induction texts with
  | nil => exact .pure []
  | cons text texts ih =>
    unfold Inspection.integersOfTexts
    split
    · exact .bind ih fun _ => .pure _
    · exact .throw _

theorem completeFixedSize (hint : Hint) : LeavesLetters (completeFixedSize hint) := by
  unfold Inspection.completeFixedSize
  split
  · split
    · exact .pure _
    · exact .bind (.sizeType _) fun _ => .bind (.integersOfTexts _) fun _ => .pure _
  · exact .pure _

end LeavesLetters

theorem LeavesLetters.ok (hx : LeavesLetters x) {a : α}
    (h : x.outcome s p = (.ok a, q)) : q.letters = p.letters := by
  have same := hx s p
  rwa [h] at same

def letterEvents (path : QualifiedName) (hint : Hint) : List LetterEvent :=
  hint.letter?.toList.map (.found path)

theorem variableArray_ok {hint' : Hint} (h : (variableArray hint).outcome s p = (.ok hint', q)) :
    hint'.letter? = hint.letter? ∧ q.letters = p.letters ++ letterEvents p.modulePath hint := by
  cases hint with
  | expression e =>
    cases h
    exact ⟨rfl, (append_nil _).symm⟩
  | type name parameters =>
    obtain ⟨name', r, named, rest⟩ := bind_ok_iff.mp h
    have found : name'.letter? = name.letter? ∧
        r.letters = p.letters ++ letterEvents p.modulePath (.type name parameters) := by
      unfold letterVariable at named
      split at named
      · rename_i letter hl
        cases named
        simp only [letterEvents, Hint.letter?, hl]
        exact ⟨QualifiedName.letter?_of_letter? hl, rfl⟩
      · rename_i hl
        cases named
        simp only [letterEvents, Hint.letter?, hl]
        exact ⟨trivial, (append_nil _).symm⟩
    rw [outcome_ite] at rest
    split at rest
    · obtain ⟨shaped, r', hr, done⟩ := bind_ok_iff.mp rest
      cases done
      exact ⟨found.1, ((LeavesLetters.shapedArray _).ok hr).trans found.2⟩
    · cases rest
      exact found

/-- A hint whose name is a single letter leaves the letter behind, and no other hint leaves any. -/
theorem refine_letters (arrays : s.options.arrays = .typeVariables) {hint' : Hint}
    (h : (refine hint).outcome s p = (.ok hint', q)) :
    hint'.letter? = ((hint.inside p.modulePath).withQualifiedFlags.withElementType p.modulePath).letter? ∧
      q.letters = p.letters ++ letterEvents p.modulePath hint' := by
  obtain ⟨h₀, r₀, hr₀, h⟩ := bind_ok_iff.mp h
  rw [outcome_hintWithoutModule] at hr₀
  cases hr₀
  obtain ⟨h₁, r₁, hr₁, h⟩ := bind_ok_iff.mp h
  obtain ⟨h₂, r₂, hr₂, h⟩ := bind_ok_iff.mp h
  obtain ⟨h₃, r₃, hr₃, h⟩ := bind_ok_iff.mp h
  obtain ⟨_, r₄, hr₄, h⟩ := bind_ok_iff.mp h
  cases h
  have place : r₁.modulePath = p.modulePath := ((plain_completeElementType _).grows hr₁).modulePath
  have before : r₁.letters = p.letters := (LeavesLetters.completeElementType _).ok hr₁
  obtain ⟨same, found⟩ : h₂.letter? = h₁.letter? ∧
      r₂.letters = r₁.letters ++ letterEvents r₁.modulePath h₁ := by
    simp only [styledArray, outcome_bind, outcome_options, arrays] at hr₂
    exact variableArray_ok hr₂
  have sized : h₃.letter? = h₂.letter? := by
    have fixed := (givesAt_completeFixedSize _).ok hr₃
    unfold Hint.withFixedSize? at fixed
    split at fixed
    · split at fixed
      · cases fixed
        rfl
      · obtain ⟨dims, -, rfl⟩ := Option.map_eq_some_iff.mp fixed
        simp only [Hint.letter?]
    · cases fixed
      rfl
  have after : q.letters = r₂.letters := by
    rw [← (LeavesLetters.completeFixedSize _).ok hr₃]
    refine LeavesLetters.ok ?_ hr₄
    cases h₃.withoutSparseParameters.qualifyTyping.plainCollection with
    | type name parameters => exact .requireImport name
    | expression e => exact .pure ()
  have whole := (Hint.letter?_written h₃).trans (sized.trans same)
  constructor
  · exact whole.trans (congrArg Hint.letter? ((givesAt_completeElementType _).ok hr₁).symm)
  · rw [after, found, before, place, letterEvents, letterEvents, whole]

theorem letters_bound (arrays : s.options.arrays = .typeVariables)
    (h : (hintOfText "int".toList).outcome s p = (.ok hint, q)) : q.letters = p.letters := by
  have text : HintSyntax.ofText "int".toList = .single (.named ⟨["int"]⟩ none) := by
    have closed : Closed ['|'] "int".toList := .of_plain (forall_of_all (by decide))
    have rest : trim (cutName (trim "int".toList)).2 = [] := by decide +kernel
    have name : nameOfText (cutName (trim "int".toList)).1 = ⟨["int"]⟩ := by decide +kernel
    rw [HintSyntax.ofText_of_closed closed, TypeSyntax.ofText_eq, rest, name]
  have read : (refine (.type ⟨["int"]⟩ none)).outcome s p = (.ok hint, q) := by
    rwa [hintOfText, text, hintOfSyntax, typeOfSyntax, bind_of_ok (outcome_pure _ s p)] at h
  have inside : (⟨["int"]⟩ : QualifiedName).inside p.modulePath = ⟨["int"]⟩ ∨
      (⟨["int"]⟩ : QualifiedName).inside p.modulePath = ⟨[]⟩ := by
    unfold QualifiedName.inside QualifiedName.dropBase?
    split
    · cases p.modulePath.length with
      | zero => exact .inl rfl
      | succ n => exact .inr (by simp)
    · exact .inl rfl
  have bare {name : QualifiedName} (whole : Hint.isBareElementType name none = false)
      (letter : name.letter? = none) : ((Hint.type name none).withQualifiedFlags.withElementType
        p.modulePath).letter? = none := by
    change (if Hint.isBareElementType name none then _ else Hint.type name none).letter? = none
    rw [whole]
    exact letter
  obtain ⟨letter, found⟩ := refine_letters arrays read
  have none : hint.letter? = none := by
    rw [letter]
    simp only [Hint.inside]
    rcases inside with same | same
    · rw [same]
      exact bare (by decide) (by decide)
    · rw [same]
      exact bare (by decide) (by decide)
  rw [found, letterEvents, none]
  exact append_nil _

end Inspection

/-! Histories of letters. -/

/-- What the modules take in a history: each takes the letters that were found since the one before,
in the order of the alphabet. -/
def shares (letters : List String) : List LetterEvent → List (QualifiedName × List String)
  | [] => []
  | .found path letter :: events => shares (LetterEvent.next letters (.found path letter)) events
  | .taken path :: events =>
    (path, sortBy (fun a b => decide (a ≤ b)) letters) :: shares [] events

theorem shares_append (letters : List String) (first second : List LetterEvent) :
    shares letters (first ++ second) =
      shares letters first ++ shares (first.foldl LetterEvent.next letters) second := by
  induction first generalizing letters with
  | nil => rfl
  | cons event first ih =>
    cases event with
    | found path letter => exact ih _
    | taken path => exact congrArg (_ :: ·) (ih [])

theorem shares_found (path : QualifiedName) (letters new : List String) :
    shares letters (new.map (.found path)) = [] := by
  induction new generalizing letters with
  | nil => rfl
  | cons letter new ih => exact ih _

theorem mem_foldl_found (path : QualifiedName) (letters new : List String) (letter : String) :
    letter ∈ (new.map (LetterEvent.found path)).foldl LetterEvent.next letters ↔
      letter ∈ letters ∨ letter ∈ new := by
  induction new generalizing letters with
  | nil => simp
  | cons first new ih =>
    have inserted : letter ∈ Inspection.insertText first letters ↔ letter ∈ letters ∨ letter = first := by
      unfold Inspection.insertText
      split
      · rename_i known
        constructor
        · exact .inl
        · rintro (old | rfl)
          · exact old
          · exact known
      · simp
    rw [map_cons, foldl_cons, ih, LetterEvent.next, inserted, mem_cons, or_assoc]

mutual

/-- The names of the type variables of a module at a path and of all modules below it. A module
comes behind its sub-modules. -/
def Module.typeVariableNames (path : QualifiedName) : Module → List (QualifiedName × List String)
  | ⟨_, _, _, _, subModules, _, _, _, typeVariables⟩ =>
    Module.allTypeVariableNames path subModules ++ [(path, typeVariables.map TypeVariable.name)]

def Module.allTypeVariableNames (path : QualifiedName) :
    List Module → List (QualifiedName × List String)
  | [] => []
  | m :: ms => m.typeVariableNames (path.member m.name) ++ Module.allTypeVariableNames path ms

end

theorem Module.typeVariableNames_eq (path : QualifiedName) (m : Module) :
    m.typeVariableNames path = Module.allTypeVariableNames path m.subModules ++
      [(path, m.typeVariables.map TypeVariable.name)] := by
  cases m
  rw [Module.typeVariableNames]

theorem Module.allTypeVariableNames_append (path : QualifiedName) (first second : List Module) :
    allTypeVariableNames path (first ++ second) =
      allTypeVariableNames path first ++ allTypeVariableNames path second := by
  induction first with
  | nil => rfl
  | cons m first ih =>
    rw [cons_append, allTypeVariableNames, allTypeVariableNames, ih, append_assoc]

/-- The events while the members of the module at a path are inspected: letters are found in the module
itself, and each of its sub-modules has events of its own and then takes letters. -/
inductive LetterHistory : QualifiedName → List Module → List LetterEvent → Prop
  | start (path : QualifiedName) : LetterHistory path [] []
  | found {path : QualifiedName} {ms : List Module} {events : List LetterEvent} (letter : String) :
      LetterHistory path ms events → LetterHistory path ms (events ++ [.found path letter])
  | subModule {path : QualifiedName} {ms : List Module} {events inner : List LetterEvent} {m : Module} :
      LetterHistory path ms events → LetterHistory (path.member m.name) m.subModules inner →
      LetterHistory path (ms ++ [m]) (events ++ (inner ++ [.taken (path.member m.name)]))

theorem LetterHistory.founds {path : QualifiedName} {ms : List Module}
    (h : LetterHistory path ms events) (new : List String) :
    LetterHistory path ms (events ++ new.map (.found path)) := by
  induction new generalizing events with
  | nil => exact (append_nil events).symm ▸ h
  | cons letter new ih =>
    have next := ih (h.found letter)
    rwa [append_assoc] at next

theorem LetterHistory.own {path : QualifiedName} {ms : List Module}
    (h : LetterHistory path ms events) (none : ms = []) :
    ∃ new : List String, events = new.map (.found path) := by
  induction h with
  | start path => exact ⟨[], rfl⟩
  | found letter h ih =>
    obtain ⟨new, rfl⟩ := ih none
    exact ⟨new ++ [letter], by simp⟩
  | subModule h h' ih ih' => exact absurd none (append_ne_nil_of_right_ne_nil _ (cons_ne_nil _ _))

namespace Inspection

variable {s : Setting} {p q : Progress} {path : QualifiedName} {o : Object}

/-! Letters in modules. -/

/-- All events in between are letters that were found in the module being inspected. -/
structure FindsLetters (p q : Progress) : Prop where
  modulePath : q.modulePath = p.modulePath
  letters : ∃ new : List String, q.letters = p.letters ++ new.map (.found p.modulePath)

theorem FindsLetters.of_same (modulePath : q.modulePath = p.modulePath)
    (letters : q.letters = p.letters) : FindsLetters p q :=
  ⟨modulePath, [], letters.trans (append_nil _).symm⟩

theorem FindsLetters.trans (h : FindsLetters p q) (h' : FindsLetters q r) : FindsLetters p r := by
  obtain ⟨new, first⟩ := h.letters
  obtain ⟨new', second⟩ := h'.letters
  refine ⟨h'.modulePath.trans h.modulePath, new ++ new', ?_⟩
  rw [second, first, h.modulePath, map_append, append_assoc]

theorem keepsInside_findsLetters (s : Setting) : KeepsInside s FindsLetters where
  refl p := .of_same rfl rfl
  trans := .trans
  report problem p := by
    have scope := (report_frame problem s p).1
    exact .of_same (congrArg Scope.modulePath scope) (congrArg Scope.letters scope)
  addModule _ _ _ := .of_same rfl rfl
  addDimension name p := ⟨rfl, [name], rfl⟩
  inLayer h := ⟨h.modulePath, h.letters⟩
  inClass h := ⟨h.modulePath, h.letters⟩

theorem typeVariables_go (arrays : s.options.arrays = .typeVariables) {names : List String}
    {bounds : List TypeVariable} (h : (withTypeVariables.go names).outcome s p = (.ok bounds, q)) :
    bounds.map TypeVariable.name = names ∧ q.letters = p.letters := by
  induction names generalizing p bounds with
  | nil =>
    cases h
    exact ⟨rfl, rfl⟩
  | cons name names ih =>
    obtain ⟨bound, r, hr, rest⟩ := bind_ok_iff.mp h
    obtain ⟨others, r', hr', done⟩ := bind_ok_iff.mp rest
    cases done
    obtain ⟨same, letters⟩ := ih hr'
    constructor
    · rw [map_cons, same]
    · exact letters.trans (letters_bound arrays hr)

theorem withTypeVariables_ok (arrays : s.options.arrays = .typeVariables) {m' : Module}
    (h : (withTypeVariables path m).outcome s p = (.ok m', q)) :
    q.letters = p.letters ++ [.taken path] ∧ m'.typeVariables.map TypeVariable.name =
      m.typeVariables.map TypeVariable.name ++ sortBy (fun a b => decide (a ≤ b)) p.dimensions := by
  obtain ⟨options, r, look, h⟩ := bind_ok_iff.mp h
  cases look
  rw [outcome_ite, if_neg (by simp [arrays])] at h
  obtain ⟨state, r, look, h⟩ := bind_ok_iff.mp h
  cases look
  obtain ⟨bounds, r, hr, rest⟩ := bind_ok_iff.mp h
  obtain ⟨names, letters⟩ := typeVariables_go arrays hr
  obtain ⟨_, r', taken, rest⟩ := bind_ok_iff.mp rest
  cases taken
  rw [outcome_ite] at rest
  split at rest
  · rename_i empty
    cases rest
    rw [isEmpty_iff.mp empty, append_nil]
    exact ⟨congrArg (· ++ _) letters, rfl⟩
  · cases rest
    rw [map_append, names]
    exact ⟨congrArg (· ++ _) letters, rfl⟩

/-- The inspection of a module at a path has a history, and the modules take their shares in it. -/
def TakesLetters (s : Setting) (path : QualifiedName) (x : Inspection Module) : Prop :=
  ∀ ⦃p q m⦄, x.outcome s p = (.ok m, q) → ∃ events, q.letters = p.letters ++ (events ++ [.taken path]) ∧
    LetterHistory path m.subModules events ∧
    m.typeVariableNames path = shares p.dimensions (events ++ [.taken path])

theorem takesLetters_throw (e : Failure) : TakesLetters s path (throw e) := by
  intro p q m h
  cases h

section

variable {ownerName : String} {nestedClass : Inspection Class} {nestedModule : Inspection Module}
  {member : ModuleMember}

theorem ModuleStep.letters (hc : Enclosed nestedClass)
    (h : ModuleStep s path ownerName o nestedClass nestedModule p q member) :
    (∀ m : Module, (m.add member).subModules = m.subModules ∧
      (m.add member).typeVariables = m.typeVariables) ∧ FindsLetters p q ∨
      ∃ m, member = .subModule m ∧ nestedModule.outcome s p = (.ok m, q) := by
  have inside {α : Type} {x : Inspection α} (hx : Enclosed x) {a : α} {q : Progress}
      (h : x.outcome s p = (.ok a, q)) : FindsLetters p q := hx.keeps (keepsInside_findsLetters s) h
  cases h with
  | misnamed _ h => exact .inl ⟨fun _ => ⟨rfl, rfl⟩, inside (.plain (.report _)) h⟩
  | functions h => exact .inl ⟨fun _ => ⟨rfl, rfl⟩, inside (.plain (plain_functionsOf path o)) h⟩
  | nested _ _ _ h => exact .inl ⟨fun _ => ⟨rfl, rfl⟩, inside hc h⟩
  | subModule _ _ _ h => exact .inr ⟨_, rfl, h⟩
  | @«alias» a? h =>
    refine .inl ⟨?_, inside (.plain (plain_aliasOf path o)) h⟩
    cases a? <;> exact fun _ => ⟨rfl, rfl⟩
  | @attr a? _ _ _ h =>
    refine .inl ⟨?_, inside (.plain (plain_attributeOf path o)) h⟩
    cases a? <;> exact fun _ => ⟨rfl, rfl⟩
  | doc _ h =>
    subst h
    refine .inl ⟨?_, .of_same rfl rfl⟩
    cases docOf o <;> exact fun _ => ⟨rfl, rfl⟩
  | imported h =>
    left
    rcases importOf_ok h with ⟨r, origin, rfl, named, rfl⟩ | ⟨rfl, named, -⟩
    · have found := inside (.plain (plain_fullName? path o)) named
      exact ⟨fun _ => ⟨rfl, rfl⟩, found.modulePath, found.letters⟩
    · exact ⟨fun _ => ⟨rfl, rfl⟩, inside (.plain (plain_fullName? path o)) named⟩

/-- What the members of a module gathered so far, and the events since the first of them. -/
structure GatheredLetters (path : QualifiedName) (p : Progress) (m : Module) (q : Progress) : Prop where
  modulePath : q.modulePath = path
  typeVariables : m.typeVariables = []
  history : ∃ events, q.letters = p.letters ++ events ∧ LetterHistory path m.subModules events ∧
    Module.allTypeVariableNames path m.subModules = shares p.dimensions events

theorem dimensions_append (h : q.letters = p.letters ++ events) :
    q.dimensions = events.foldl LetterEvent.next p.dimensions := by
  rw [Progress.dimensions, h, foldl_append, Progress.dimensions]

theorem GatheredLetters.found (h : GatheredLetters path p m q) (found : FindsLetters q r)
    (same : (m.add member).subModules = m.subModules ∧
      (m.add member).typeVariables = m.typeVariables) :
    GatheredLetters path p (m.add member) r := by
  obtain ⟨events, letters, history, names⟩ := h.history
  obtain ⟨new, later⟩ := found.letters
  refine ⟨found.modulePath.trans h.modulePath, same.2.trans h.typeVariables,
    events ++ new.map (.found path), ?_, ?_, ?_⟩
  · rw [later, letters, h.modulePath, append_assoc]
  · rw [same.1]
    exact history.founds new
  · rw [same.1, names, shares_append, shares_found, append_nil]

theorem GatheredLetters.subModule {sub : Module} (h : GatheredLetters path p m q)
    (hm : TakesLetters s (path.member sub.name) nestedModule)
    (run : nestedModule.outcome s q = (.ok sub, r)) (place : r.modulePath = q.modulePath) :
    GatheredLetters path p (m.add (.subModule sub)) r := by
  obtain ⟨events, letters, history, names⟩ := h.history
  obtain ⟨inner, later, below, taken⟩ := hm run
  refine ⟨place.trans h.modulePath, h.typeVariables,
    events ++ (inner ++ [.taken (path.member sub.name)]), ?_, ?_, ?_⟩
  · rw [later, letters, append_assoc]
  · exact history.subModule below
  · rw [shares_append, ← names, ← dimensions_append letters, ← taken]
    simp only [Module.add, Module.allTypeVariableNames_append, Module.allTypeVariableNames,
      append_nil]

end

def GathersLetters (s : Setting) (path : QualifiedName) (x : Inspection ModuleMember) : Prop :=
  ∀ ⦃p m q r member⦄, GatheredLetters path p m q → x.outcome s q = (.ok member, r) →
    GatheredLetters path p (m.add member) r

theorem gathersLetters_moduleMember {name ownerName : String} {nestedClass : Inspection Class}
    {nestedModule : Inspection Module} (hc : Enclosed nestedClass) (composed : Composed nestedModule)
    (outside : KeepsOutside s (path.member name) nestedModule)
    (hm : TakesLetters s (path.member name) nestedModule) :
    GathersLetters s path (moduleMember (path.member name) ownerName o nestedClass nestedModule) := by
  intro p m q r member gathered h
  rcases (moduleMember_ok h).letters hc with ⟨same, found⟩ | ⟨sub, rfl, run⟩
  · exact gathered.found found (same m)
  · have named : sub.name = name := (outside run).1.trans (path.last_member name)
    subst named
    exact gathered.subModule hm run (composed.keeps (keeps_grows s) run).modulePath

theorem takesLetters_moduleBody (arrays : s.options.arrays = .typeVariables) {name : String}
    {members : List (String × Inspection ModuleMember)}
    (hs : ∀ x ∈ members, GathersLetters s path x.2) :
    TakesLetters s path (moduleBody path o name members) := by
  intro p q m h
  obtain ⟨doc, m₁, m₂, r₁, r₂, rfl, added, taken, rfl, rfl⟩ := moduleBody_parts h
  rw [addModuleMembers_eq] at added
  have start : GatheredLetters path p { name := path.last }
      { pushed path p with module? := some o, imports := [], modulePath := path } :=
    ⟨rfl, rfl, [], (append_nil _).symm, .start path, rfl⟩
  have gathered : GatheredLetters path p m₁ r₁ := by
    refine gather_keeps (I := GatheredLetters path p) ?_ start added
    refine fun x hx m q r member before run => ?_
    refine forall_ordered (P := GathersLetters s path) ?_ hs x hx before run
    exact gathersLetters_moduleMember (.plain (.throw _)) (.plain (.throw _)) (keepsOutside_throw _)
      (takesLetters_throw _)
  obtain ⟨events, letters, history, names⟩ := gathered.history
  obtain ⟨last, named⟩ := withTypeVariables_ok arrays taken
  obtain ⟨-, -, sameModules⟩ := ensures_withTypeVariables m₁ taken
  obtain ⟨more, future, listed, listing, same, -⟩ := withImports_eq m₂ r₂.imports
  rw [same]
  refine ⟨events, ?_, ?_, ?_⟩
  · rw [← append_assoc, ← letters]
    exact last
  · exact sameModules.symm ▸ history
  · rw [Module.typeVariableNames_eq, shares_append, ← names, ← sameModules, ← dimensions_append letters]
    refine congrArg (fun names => _ ++ [(path, names)]) (named.trans ?_)
    rw [gathered.typeVariables]
    rfl

mutual

theorem takesLetters_moduleWith (arrays : s.options.arrays = .typeVariables) {d : Descent}
    (hd : d.Composed) (outside : ∀ path o, KeepsOutside s path (d.moduleAt path o))
    (taken : ∀ path o, TakesLetters s path (d.moduleAt path o)) (path : QualifiedName) (o : Object) :
    TakesLetters s path (moduleWith d path o) := by
  cases o with
  | moduleDef name doc ms =>
    simp only [moduleWith]
    apply takesLetters_moduleBody arrays
    exact gathersLetters_moduleMembersWith arrays hd outside taken path name ms
  | _ =>
    simp only [moduleWith]
    exact takesLetters_throw _

theorem gathersLetters_moduleMembersWith (arrays : s.options.arrays = .typeVariables) {d : Descent}
    (hd : d.Composed) (outside : ∀ path o, KeepsOutside s path (d.moduleAt path o))
    (taken : ∀ path o, TakesLetters s path (d.moduleAt path o)) (path : QualifiedName)
    (ownerName : String) (ms : List (String × Object)) :
    ∀ x ∈ moduleMembersWith d path ownerName ms, GathersLetters s path x.2 := by
  match ms with
  | [] => simp [moduleMembersWith]
  | (name, o) :: ms =>
    simp only [moduleMembersWith, forall_mem_cons]
    refine ⟨?_, gathersLetters_moduleMembersWith arrays hd outside taken path ownerName ms⟩
    have nested := takesLetters_moduleWith arrays hd outside taken (path.member name) o
    intro p m q r member gathered h
    obtain ⟨settled, q', look, step⟩ := bind_ok_iff.mp h
    cases look
    refine gathersLetters_moduleMember ?_ ?_ ?_ ?_ gathered step
    · exact enclosed_ite (hd.classAt _ _) (enclosed_classWith hd _ o)
    · exact composed_ite (hd.moduleAt _ _) (composed_moduleWith hd _ o)
    · split
      · exact outside _ _
      · exact keepsOutside_moduleWith d _ o
    · split
      · exact taken _ _
      · exact nested

end

theorem takesLetters_descent (arrays : s.options.arrays = .typeVariables) (n : Nat)
    (path : QualifiedName) (o : Object) : TakesLetters s path ((descent n).moduleAt path o) := by
  induction n generalizing path o with
  | zero => exact takesLetters_throw _
  | succ n ih =>
    exact takesLetters_moduleWith arrays (composed_descent n) (keepsOutside_descent n) ih path o

/-- Every hint with a letter for its name leaves the letter behind, in the module that it stands in.
A run over a module has a history of such letters and of the modules that were done. Each module in
the result has the letters for type variables that were found since the module before it was done,
and not those that were found in it. Both are the same for a module without sub-modules if no letters
are left from before. -/
theorem letters_go_to_next_module (arrays : s.options.arrays = .typeVariables) :
    (∀ ⦃hint hint' p q⦄, (refine hint).outcome s p = (.ok hint', q) →
      q.letters = p.letters ++ letterEvents p.modulePath hint') ∧
    ∀ ⦃path o p q m⦄, (moduleOf path o).outcome s p = (.ok m, q) →
      ∃ events, q.letters = p.letters ++ (events ++ [.taken path]) ∧
        LetterHistory path m.subModules events ∧
        m.typeVariableNames path = shares p.dimensions (events ++ [.taken path]) ∧
        (m.subModules = [] → ∀ letter, letter ∈ m.typeVariables.map TypeVariable.name ↔
          letter ∈ p.dimensions ∨ .found path letter ∈ events) := by
  constructor
  · intro hint hint' p q h
    exact (refine_letters arrays h).2
  · intro path o p q m h
    obtain ⟨w, p', look, inside⟩ := bind_ok_iff.mp h
    cases look
    obtain ⟨events, letters, history, names⟩ := takesLetters_moduleWith arrays (composed_descent _)
      (keepsOutside_descent _) (takesLetters_descent arrays _) path o inside
    refine ⟨events, letters, history, names, ?_⟩
    intro leaf letter
    obtain ⟨new, rfl⟩ := history.own leaf
    rw [Module.typeVariableNames_eq, leaf, shares_append, shares_found] at names
    have own : m.typeVariables.map TypeVariable.name = sortBy (fun a b => decide (a ≤ b))
        ((new.map (LetterEvent.found path)).foldl LetterEvent.next p.dimensions) := by
      simpa [Module.allTypeVariableNames, shares] using names
    rw [own, mem_sortBy, mem_foldl_found]
    simp

/-- A module with a function on arrays of any height and with a sub-module. -/
def sizing (sub : String) : Object :=
  let hint := Object.str "numpy.ndarray[numpy.float64[k, 1]]"
  .moduleDef "m" none
    [("f", .routine .function { name? := some "f", qualified? := some "f", module? := some "m" }
        (some { parameters := [{ name := "x", hint := some hint }] })),
      (sub, .moduleDef ("m." ++ sub) none [])]

def inspectSizing (sub : String) : Except Failure Module × Progress :=
  (moduleOf ⟨["m"]⟩ (sizing sub)).outcome
    ⟨{ arrays := .typeVariables }, .ofModules [sizing sub]⟩ {}

/-- A sub-module that comes before the function leaves the letter to the module. -/
theorem earlier_module_takes_none : ∃ m q, inspectSizing "e" = (.ok m, q) ∧
    q.letters = [.taken ⟨["m", "e"]⟩, .found ⟨["m"]⟩ "K", .taken ⟨["m"]⟩] ∧
    m.typeVariableNames ⟨["m"]⟩ = [(⟨["m", "e"]⟩, []), (⟨["m"]⟩, ["K"])] := by
  have result : ((inspectSizing "e").1.isOk, (inspectSizing "e").2.letters) =
    (true, [.taken ⟨["m", "e"]⟩, .found ⟨["m"]⟩ "K", .taken ⟨["m"]⟩]) := by
    rw [inspectSizing, World.ofModules_eq]
    decide +kernel
  rcases h : inspectSizing "e" with ⟨e | m, q⟩
  · rw [h] at result
    cases result
  · obtain ⟨events, history, -, names, -⟩ := (letters_go_to_next_module rfl).2 h
    rw [h] at result
    have letters := (Prod.mk.inj result).2
    rw [letters] at history
    refine ⟨m, q, rfl, letters, ?_⟩
    rw [names, ← nil_append (events ++ _), ← history]
    decide +kernel

/-- A sub-module that comes after the function takes the letter from the module. -/
theorem later_module_takes_letter : ∃ m q, inspectSizing "g" = (.ok m, q) ∧
    q.letters = [.found ⟨["m"]⟩ "K", .taken ⟨["m", "g"]⟩, .taken ⟨["m"]⟩] ∧
    m.typeVariableNames ⟨["m"]⟩ = [(⟨["m", "g"]⟩, ["K"]), (⟨["m"]⟩, [])] := by
  have result : ((inspectSizing "g").1.toOption.map (Module.typeVariableNames ⟨["m"]⟩),
      (inspectSizing "g").2.letters) =
    (some [(⟨["m", "g"]⟩, ["K"]), (⟨["m"]⟩, [])],
      [.found ⟨["m"]⟩ "K", .taken ⟨["m", "g"]⟩, .taken ⟨["m"]⟩]) := by
    rw [inspectSizing, World.ofModules_eq]
    decide +kernel
  rcases h : inspectSizing "g" with ⟨e | m, q⟩
  · rw [h] at result
    cases result
  · rw [h] at result
    obtain ⟨names, letters⟩ := Prod.mk.inj result
    exact ⟨m, q, rfl, letters, Option.some.inj names⟩

end Inspection

end TypeStubs
