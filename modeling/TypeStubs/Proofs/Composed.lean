import TypeStubs.Proofs.Outcome

/-! Every inspection is put together from a few basic steps. What all basic steps keep, and all ways
to put steps together keep, therefore holds for whole inspections. -/

namespace TypeStubs.Inspection

variable {α β : Type}
variable (o : Object) (name : QualifiedName) (hint : Hint) (text : List Char) {x y : Inspection α}

/-- Where an inspection stands, and what the module that it stands in needs. -/
structure Scope where
  modulePath : QualifiedName
  module? : Option Object
  class? : Option Object
  imports : List Import
  letters : List LetterEvent

def scopeOf (p : Progress) : Scope := ⟨p.modulePath, p.module?, p.class?, p.imports, p.letters⟩

/-- The state with its messages, layers and notes, put into a scope. -/
def within (p : Progress) (c : Scope) : Progress :=
  { p with modulePath := c.modulePath, module? := c.module?, class? := c.class?,
           imports := c.imports, letters := c.letters }

/-- The part of the setting and of the state that steps look at. Messages, layers and the notes
about problems are not in it. -/
structure View where
  world : World
  arrays : ArrayStyle
  safeValues : Option (Given Regex)
  enumPlaces : List (Regex × String)
  scope : Scope

/-- What steps look at in a setting and a state. -/
def viewOf (s : Setting) (p : Progress) : View :=
  ⟨s.world, s.options.arrays, s.options.safeValues, s.options.enumPlaces, scopeOf p⟩

def view : Inspection View := ofOutcome fun s p => (.ok (viewOf s p), p)

/-- The steps inside one class or module: they stay in its scope, also when they fail. -/
inductive Plain : {α : Type} → Inspection α → Prop
  | pure {α : Type} (a : α) : Plain (pure a)
  | bind {α β : Type} {x : Inspection α} {f : α → Inspection β} :
      Plain x → (∀ a, Plain (f a)) → Plain (x >>= f)
  | throw {α : Type} (e : Failure) : Plain (throw e : Inspection α)
  | tryCatch {α : Type} {x : Inspection α} {h : Failure → Inspection α} :
      Plain x → (∀ e, Plain (h e)) → Plain (tryCatch x h)
  | view : Plain view
  | report (problem : Problem) : Plain (report problem)
  | requireImport (name : QualifiedName) : Plain (requireImport name)
  | addDimension (name : String) : Plain (addDimension name)
  | withLayer {α : Type} (path : QualifiedName) {x : Inspection α} :
      Plain x → Plain (withLayer path x)

/-- The steps inside one module. They are put together from plain ones and may enter classes. -/
inductive Enclosed : {α : Type} → Inspection α → Prop
  | plain {α : Type} {x : Inspection α} : Plain x → Enclosed x
  | bind {α β : Type} {x : Inspection α} {f : α → Inspection β} :
      Enclosed x → (∀ a, Enclosed (f a)) → Enclosed (x >>= f)
  | withLayer {α : Type} (path : QualifiedName) {x : Inspection α} :
      Enclosed x → Enclosed (withLayer path x)
  | withClass {α : Type} (c : Object) {x : Inspection α} : Enclosed x → Enclosed (withClass c x)

/-- The steps that are put together from those inside modules. They may enter modules, and import
what stands in other ones under a name. -/
inductive Composed : {α : Type} → Inspection α → Prop
  | enclosed {α : Type} {x : Inspection α} : Enclosed x → Composed x
  | bind {α β : Type} {x : Inspection α} {f : α → Inspection β} :
      Composed x → (∀ a, Composed (f a)) → Composed (x >>= f)
  | takeDimensions (path : QualifiedName) : Composed (takeDimensions path)
  | addImport (name : String) (origin : QualifiedName) : Composed (addImport ⟨some name, origin⟩)
  | withLayer {α : Type} (path : QualifiedName) {x : Inspection α} :
      Composed x → Composed (withLayer path x)
  | withModule {α : Type} (m : Object) {x : Inspection α} : Composed x → Composed (withModule m x)
  | withModulePath {α : Type} (path : QualifiedName) {x : Inspection α} :
      Composed x → Composed (withModulePath path x)

theorem Composed.plain (hx : Plain x) : Composed x := .enclosed (.plain hx)

theorem Composed.pure (a : α) : Composed (Pure.pure a) := .plain (.pure a)

theorem plain_ite {c : Prop} [Decidable c] (hx : Plain x) (hy : Plain y) :
    Plain (if c then x else y) := by
  split
  · exact hx
  · exact hy

theorem enclosed_ite {c : Prop} [Decidable c] (hx : Enclosed x)
    (hy : Enclosed y) : Enclosed (if c then x else y) := by
  split
  · exact hx
  · exact hy

theorem composed_ite {c : Prop} [Decidable c] (hx : Composed x)
    (hy : Composed y) : Composed (if c then x else y) := by
  split
  · exact hx
  · exact hy

theorem plain_look (f : View → α) (h : x = view >>= fun v => pure (f v)) :
    Plain x := h ▸ .bind .view fun v => .pure (f v)

theorem plain_world : Plain world := plain_look View.world rfl

theorem plain_options {f : Options → Inspection α}
    (same : ∀ o, f { arrays := o.arrays, safeValues := o.safeValues } = f o)
    (hf : ∀ o, Plain (f o)) : Plain (options >>= f) := by
  have seen : options >>= f =
      view >>= fun v => f { arrays := v.arrays, safeValues := v.safeValues } := by
    funext s
    exact congrFun (same s.options).symm s
  exact seen ▸ .bind .view fun v => hf _

theorem plain_settle : Plain (settle o) := .bind plain_world fun _ => .pure _

/-! Names and imports. -/

theorem plain_findModule? : Plain (findModule? name) := by
  have found : Plain (do return (← world).module? name.text : Inspection (Option Object)) :=
    .bind plain_world fun _ => .pure _
  have relative := plain_ite (c := hasFront "." name.text = true)
    (.bind (.throw .relativeModuleName) fun _ : Unit => found) found
  exact plain_ite (.bind (.throw .emptyModuleName) fun _ => relative) relative

theorem plain_isModule : Plain (isModule name) :=
  .bind (plain_findModule? name) fun _ => .pure _

theorem plain_isAccessible (origin : QualifiedName) : Plain (isAccessible name origin) := by
  refine .bind (plain_findModule? origin) fun m? => ?_
  cases m? with
  | none => exact .pure false
  | some m => exact .bind plain_world fun _ => .pure _

theorem plain_parentModuleAmong? (bases : List QualifiedName) :
    Plain (parentModuleAmong? name bases) := by
  induction bases with
  | nil => exact .pure none
  | cons base rest ih =>
    refine plain_ite (.pure none) (.bind (plain_isModule base) fun _ => plain_ite ?_ ih)
    exact .bind (plain_isAccessible name base) fun _ => .pure _

theorem plain_isKnown : Plain (isKnown name) :=
  plain_look (fun v => name.parts = [] || name.parts = [""] ||
    v.world.has Builtins.asModule name.head || v.scope.class?.any (v.world.has · name.head) ||
    v.scope.module?.any (v.world.has · name.head)) rfl

theorem plain_withoutModule : Plain (withoutModule name) :=
  plain_look (fun v => (v.scope.modulePath.dropBase? name).getD name) rfl

theorem plain_wellKnown (text : String) : Plain (wellKnown text) :=
  .bind (plain_withoutModule _) fun _ => .bind (.requireImport _) fun _ => .pure _

theorem plain_builtinTypeName (parts : List String) : Plain (builtinTypeName parts) := by
  unfold builtinTypeName
  split
  · exact .pure _
  · exact plain_wellKnown _
  · exact plain_wellKnown _
  · exact .pure _

theorem plain_fullTypeName (t : TypeName) : Plain (fullTypeName t) := by
  unfold fullTypeName
  split
  · exact .throw _
  · refine plain_ite (.pure _) ?_
    split
    · exact plain_builtinTypeName _
    · exact .pure _

theorem plain_typeName (t : TypeName) : Plain (typeName t) :=
  .bind (plain_fullTypeName t) fun _ => .bind (plain_withoutModule _) fun _ =>
    .bind (.requireImport _) fun _ => .pure _

theorem plain_typeNameOf : Plain (typeNameOf o) := by
  unfold typeNameOf
  split
  · exact .throw _
  · exact plain_typeName _

/-! Values. -/

theorem plain_routineValue : Plain (routineValue o) :=
  .bind (plain_withoutModule _) fun _ =>
    plain_ite (.bind (.requireImport _) fun _ => .pure _) (.pure _)

theorem plain_simpleValue : Plain (simpleValue o) :=
  plain_ite (plain_routineValue o)
    (plain_ite (.bind (plain_typeNameOf o) fun _ => .pure _) (.pure _))

mutual

theorem plain_valueWith {follow : Object → Inspection Value} (h : ∀ o, Plain (follow o))
    (o : Object) : Plain (valueWith follow o) := by
  cases o with
  | list xs | tuple xs | set xs =>
    simp only [valueWith]
    exact .bind (plain_valuesWith h xs) fun _ => .pure _
  | dict es =>
    simp only [valueWith]
    exact .bind (plain_entriesWith h es) fun _ => .pure _
  | ref path =>
    simp only [valueWith]
    exact .bind (plain_settle _) h
  | wrapped wrapping inner =>
    simp only [valueWith]
    exact .bind (plain_settle _) plain_simpleValue
  | _ =>
    simp only [valueWith]
    exact plain_simpleValue _

theorem plain_valuesWith {follow : Object → Inspection Value} (h : ∀ o, Plain (follow o))
    (os : List Object) : Plain (valuesWith follow os) := by
  match os with
  | [] =>
    simp only [valuesWith]
    exact .pure []
  | o :: os =>
    simp only [valuesWith]
    exact .bind (plain_valueWith h o) fun _ => .bind (plain_valuesWith h os) fun _ => .pure _

theorem plain_entriesWith {follow : Object → Inspection Value} (h : ∀ o, Plain (follow o))
    (es : List (Object × Object)) : Plain (entriesWith follow es) := by
  match es with
  | [] =>
    simp only [entriesWith]
    exact .pure []
  | (k, v) :: es =>
    simp only [entriesWith]
    exact .bind (plain_valueWith h k) fun _ => .bind (plain_valueWith h v) fun _ =>
      .bind (plain_entriesWith h es) fun _ => .pure _

end

theorem plain_valueWithin (n : Nat) (o : Object) : Plain (valueWithin n o) := by
  induction n generalizing o with
  | zero => exact .throw _
  | succ n ih => exact plain_valueWith ih o

theorem plain_value : Plain (value o) :=
  .bind plain_world fun _ => plain_valueWithin _ o

theorem plain_sizeValue (size : ArraySize) : Plain (sizeValue size) :=
  .bind (plain_typeName _) fun _ => .pure _

/-! Arrays. -/

theorem plain_wellKnownType (text : String) : Plain (wellKnownType text) :=
  .bind (plain_wellKnown text) fun _ => .pure _

theorem plain_completeElementType : Plain (completeElementType hint) := by
  cases hint with
  | type name parameters =>
    exact plain_ite (.bind (plain_wellKnownType _) fun _ => .pure _) (.pure _)
  | expression e => exact .pure _

theorem plain_annotatedSize (dimensions : Option (List Hint)) :
    Plain (annotatedSize dimensions) := by
  unfold annotatedSize
  split
  · exact .pure _
  · split
    · exact .bind (plain_sizeValue _) fun _ => .pure _
    · exact .pure _

theorem plain_annotatedArray : Plain (annotatedArray hint) := by
  unfold annotatedArray
  split
  · refine plain_ite ?_ (.pure _)
    exact .bind (plain_wellKnownType _) fun _ => .bind (plain_annotatedSize _) fun _ => .pure _
  · exact .pure _

theorem plain_letterVariable : Plain (letterVariable name) := by
  unfold letterVariable
  split
  · exact .bind (.addDimension _) fun _ => .pure _
  · exact .pure _

theorem plain_dimensionTypes (dimensions : List Dimension) :
    Plain (dimensionTypes dimensions) := by
  induction dimensions with
  | nil => exact .pure []
  | cons d ds ih =>
    have first : Plain (dimensionType d) := by
      cases d with
      | number n => exact .bind (plain_wellKnown _) fun _ => .pure _
      | named name => exact .pure _
    exact .bind first fun _ => .bind ih fun _ => .pure _

theorem plain_shapeType (parameters : Option (List Hint)) : Plain (shapeType parameters) := by
  refine .bind (plain_wellKnownType _) fun _ => ?_
  split
  · split
    · exact .bind (plain_wellKnown _) fun _ => .bind (plain_dimensionTypes _) fun _ => .pure _
    · exact .pure _
  · exact .pure _

theorem plain_shapedArray (parameters : Option (List Hint)) : Plain (shapedArray parameters) := by
  unfold shapedArray
  split
  · exact plain_ite (.bind (plain_shapeType _) fun _ => .pure _) (.pure _)
  · exact .pure _
  · exact .bind (plain_wellKnownType _) fun _ => .bind (plain_wellKnownType _) fun _ => .pure _

theorem plain_variableArray : Plain (variableArray hint) := by
  cases hint with
  | type name parameters =>
    refine .bind (plain_letterVariable name) fun _ => plain_ite ?_ (.pure _)
    exact .bind (plain_shapedArray parameters) fun _ => .pure _
  | expression e => exact .pure _

theorem plain_styledArray : Plain (styledArray hint) := by
  refine plain_options (fun _ => rfl) fun o => ?_
  cases o.arrays with
  | asWritten => exact .pure _
  | annotated => exact plain_annotatedArray hint
  | typeVariables => exact plain_variableArray hint
  | bare => exact .pure _

theorem plain_integersOfTexts (texts : List (List Char)) : Plain (integersOfTexts texts) := by
  induction texts with
  | nil => exact .pure []
  | cons text texts ih =>
    unfold integersOfTexts
    split
    · exact .bind ih fun _ => .pure _
    · exact .throw _

theorem plain_completeFixedSize : Plain (completeFixedSize hint) := by
  unfold completeFixedSize
  split
  · split
    · exact .pure _
    · exact .bind (plain_typeName _) fun _ => .bind (plain_integersOfTexts _) fun _ => .pure _
  · exact .pure _

/-! Hints from texts. -/

theorem plain_refine : Plain (refine hint) := by
  have shortened : Plain (hintWithoutModule hint) := by
    cases hint with
    | type name parameters => exact .bind (plain_withoutModule name) fun _ => .pure _
    | expression e => exact .pure _
  have imported (h : Hint) : Plain (requireHintImport h) := by
    cases h with
    | type name parameters => exact .requireImport name
    | expression e => exact .pure ()
  exact .bind shortened fun _ => .bind (plain_completeElementType _) fun _ =>
    .bind (plain_styledArray _) fun _ => .bind (plain_completeFixedSize _) fun _ =>
    .bind (imported _) fun _ => .pure _

theorem plain_plainExpression : Plain (plainExpression text) :=
  plain_ite (.pure _) (.bind (.report _) fun _ => .pure _)

theorem plain_markSafe (e : Expression) : Plain (markSafe e) := by
  cases e with
  | value v =>
    refine plain_ite (.pure _) (plain_options (fun _ => rfl) fun o => ?_)
    split
    · exact .pure _
    · exact .throw _
    · exact .pure _
  | invalid text => exact .pure _

theorem plain_dottedHint : Plain (dottedHint text) := by
  unfold dottedHint
  split
  · exact plain_refine _
  · exact .bind (plain_plainExpression text) fun _ => .bind (plain_markSafe _) fun _ =>
      plain_refine _

theorem plain_placedEnum? (e : EnumText) (places : List (Regex × String)) :
    Plain (placedEnum? e places) := by
  induction places with
  | nil => exact .pure none
  | cons place places ih =>
    refine plain_ite (.bind (plain_dottedHint _) fun hint => ?_) ih
    cases hint with
    | type name parameters => exact .pure _
    | expression e => exact ih

theorem plain_expressionOfText : Plain (expressionOfText text) := by
  have other : Plain (do markSafe (← plainExpression text)) :=
    .bind (plain_plainExpression text) fun _ => plain_markSafe _
  unfold expressionOfText
  split
  · rename_i e _
    change Plain (view >>= fun v => placedEnum? e v.enumPlaces >>= _)
    refine .bind .view fun v => .bind (plain_placedEnum? e v.enumPlaces) fun found => ?_
    cases found with
    | some v => exact plain_markSafe _
    | none => exact other
  · exact .bind (.pure none) fun found => by
      cases found with
      | some v => exact plain_markSafe _
      | none => exact other

mutual

theorem plain_hintOfSyntax (h : HintSyntax) : Plain (hintOfSyntax h) := by
  match h with
  | .malformed text =>
    simp only [hintOfSyntax]
    exact .bind (.report _) fun _ => plain_refine _
  | .single t =>
    simp only [hintOfSyntax]
    exact .bind (plain_typeOfSyntax t) plain_refine
  | .union ts =>
    simp only [hintOfSyntax]
    exact .bind (plain_wellKnown _) fun _ => .bind (plain_typesOfSyntax ts) fun _ => plain_refine _

theorem plain_typeOfSyntax (t : TypeSyntax) : Plain (typeOfSyntax t) := by
  match t with
  | .named name none =>
    simp only [typeOfSyntax]
    exact .pure _
  | .named name (some hs) =>
    simp only [typeOfSyntax]
    exact .bind (plain_hintsOfSyntax hs) fun _ => .pure _
  | .value text =>
    simp only [typeOfSyntax]
    exact .bind (plain_expressionOfText text) fun _ => .pure _

theorem plain_typesOfSyntax (ts : List TypeSyntax) : Plain (typesOfSyntax ts) := by
  match ts with
  | [] =>
    simp only [typesOfSyntax]
    exact .pure []
  | t :: ts =>
    simp only [typesOfSyntax]
    exact .bind (plain_typeOfSyntax t) fun _ => .bind (plain_typesOfSyntax ts) fun _ => .pure _

theorem plain_hintsOfSyntax (hs : List HintSyntax) : Plain (hintsOfSyntax hs) := by
  match hs with
  | [] =>
    simp only [hintsOfSyntax]
    exact .pure []
  | h :: hs =>
    simp only [hintsOfSyntax]
    exact .bind (plain_hintOfSyntax h) fun _ => .bind (plain_hintsOfSyntax hs) fun _ => .pure _

end

theorem plain_hintOfText : Plain (hintOfText text) := plain_hintOfSyntax _

theorem plain_hintOfText? (text : Option (List Char)) : Plain (hintOfText? text) := by
  cases text with
  | none => exact .pure none
  | some text => exact .bind (plain_hintOfText text) fun _ => .pure _

end TypeStubs.Inspection
