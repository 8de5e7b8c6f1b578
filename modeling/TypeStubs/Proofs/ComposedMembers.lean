import TypeStubs.Proofs.Composed

/-! Functions, attributes, classes and modules are inspected by composed steps. -/

namespace TypeStubs.Inspection

variable (path : QualifiedName) (o : Object) (name : String)
variable {members : List (String × Inspection ModuleMember)} {nested : Inspection Class}

/-! Signatures. -/

theorem plain_argumentsOfTexts (arguments : List Argument) (keywordOnly : Bool)
    (texts : List ArgumentText) : Plain (argumentsOfTexts arguments keywordOnly texts) := by
  induction texts generalizing arguments keywordOnly with
  | nil => exact .pure _
  | cons a as ih =>
    refine plain_ite (ih _ _) (plain_ite (ih _ _) ?_)
    split
    · exact .pure _
    · refine .bind (plain_hintOfText? a.hint) fun _ => .bind ?_ fun _ => ih _ _
      cases a.default with
      | none => exact .pure none
      | some text => exact .bind (plain_expressionOfText text) fun _ => .pure _

theorem plain_argumentsOfText (text : List Char) : Plain (argumentsOfText text) := by
  unfold argumentsOfText
  split
  · exact .pure _
  · exact plain_argumentsOfTexts _ _ _

theorem plain_patternOf (source : String) : Plain (patternOf source) := by
  unfold patternOf
  split
  · exact .pure _
  · exact .throw _
  · exact .throw _

theorem plain_groupText (c : Captures) (name : String) : Plain (groupText c name) := by
  unfold groupText
  split
  · exact .pure _
  · exact .throw _

theorem plain_functionOfMatch (c : Captures) (doc : List String) :
    Plain (functionOfMatch name c doc) :=
  .bind (plain_hintOfText? _) fun _ => .bind (plain_groupText c _) fun _ =>
    .bind (plain_argumentsOfText _) fun _ => .pure _

theorem plain_overloadOfMatch (c : Captures) : Plain (overloadOfMatch name c) :=
  .bind (plain_groupText c _) fun _ => .bind (plain_argumentsOfText _) fun _ =>
    .bind (plain_groupText c _) fun _ => .bind (plain_hintOfText _) fun _ =>
    .bind (plain_wellKnown _) fun _ => .pure _

theorem plain_overloadsOfLines (pattern : Regex) (name : String) (number : Nat)
    (lines : List String) : Plain (overloadsOfLines pattern name number lines) := by
  induction lines generalizing number with
  | nil => exact .pure _
  | cons line lines ih =>
    unfold overloadsOfLines
    split
    · exact .bind (ih number) fun _ => .pure _
    · refine plain_ite ?_ (.bind (ih number) fun _ => .pure _)
      exact .bind (plain_overloadOfMatch name _) fun _ => .bind (ih (number + 1)) fun _ => .pure _

theorem plain_functionsOfLines (lines : List String) : Plain (functionsOfLines name lines) := by
  cases lines with
  | nil => exact .pure []
  | cons first lines =>
    refine .bind (plain_patternOf _) fun _ => ?_
    split
    · exact .pure []
    · refine plain_ite (.bind (plain_patternOf _) fun _ => ?_) ?_
      · exact .bind (plain_overloadsOfLines _ _ _ _) fun _ => .pure _
      · exact .bind (plain_functionOfMatch _ _ _) fun _ => .pure _

/-! Functions. -/

theorem plain_hintOfObject : Plain (hintOfObject o) := by
  refine .bind (plain_settle o) fun o => ?_
  split
  · exact plain_hintOfText _
  · exact plain_ite (.bind (plain_typeNameOf o) fun _ => .pure _)
      (.bind (plain_value o) fun _ => .pure _)

theorem plain_defaultOf (o : Object) : Plain (defaultOf o) :=
  .bind (plain_settle o) fun _ => plain_value _

theorem plain_fill {α : Type} {read : Object → Inspection α} (h : ∀ o, Plain (read o))
    (change : α → Argument → Argument) (es : List (String × Object)) (t : ArgumentTable) :
    Plain (fill read change es t) := by
  induction es generalizing t with
  | nil => exact .pure t
  | cons e es ih => exact .bind (h e.2) fun _ => ih _

theorem plain_functionOfSignature (doc : Option String) (s : Signature Object) :
    Plain (functionOfSignature name doc s) :=
  .bind (plain_fill plain_defaultOf _ _ _) fun _ =>
    .bind (plain_fill (fun o => plain_hintOfObject o) _ _ _) fun _ => .pure _

theorem plain_signedFunction (o : Object) : Plain (signedFunction name o) := by
  refine .bind plain_world fun w => ?_
  split
  · exact .tryCatch (plain_functionOfSignature _ _ _) fun _ => plain_ite (.pure _) (.throw _)
  · exact .pure _

theorem functionsOf_layered : ∃ x, Plain x ∧ functionsOf path o = withLayer path x := by
  refine ⟨_, .bind (plain_signedFunction _ o) fun f => ?_, rfl⟩
  dsimp only
  split
  · exact .bind (plain_functionsOfLines _ _) fun _ => .pure _
  · exact .pure _

theorem plain_functionsOf : Plain (functionsOf path o) := by
  obtain ⟨x, hx, layered⟩ := functionsOf_layered path o
  exact layered ▸ .withLayer path hx

theorem methodsOf_layered : ∃ x, Plain x ∧ methodsOf path o = withLayer path x :=
  ⟨_, plain_ite (.pure _) (.bind (plain_functionsOf path o) fun _ => .pure _), rfl⟩

theorem plain_methodsOf : Plain (methodsOf path o) := by
  obtain ⟨x, hx, layered⟩ := methodsOf_layered path o
  exact layered ▸ .withLayer path hx

theorem plain_accessor? (fs : List Function) : Plain (accessor? fs) := by
  unfold accessor?
  split
  · exact .pure _
  · exact .pure _
  · exact .throw _

theorem plain_accessorOf : Plain (accessorOf path o) := by
  have named : Plain (do accessor? (← functionsOf path o)) :=
    .bind (plain_functionsOf path o) plain_accessor?
  refine .bind (plain_functionsOf _ o) fun fs => .bind (plain_accessor? fs) fun f? => ?_
  cases f? with
  | some f => exact plain_ite named (.pure _)
  | none => exact named

theorem plain_accessorOf? (o : Option Object) : Plain (accessorOf? path o) := by
  cases o with
  | none => exact .pure none
  | some o => exact plain_accessorOf path o

theorem plain_propertyOf : Plain (propertyOf path o) := by
  unfold propertyOf
  split
  · exact .bind (plain_accessorOf? path _) fun _ => .bind (plain_accessorOf? path _) fun _ =>
      plain_ite (.pure _) (.pure _)
  · exact .pure _

/-! Attributes. -/

theorem plain_isAlias : Plain (isAlias path o) := by
  unfold isAlias
  split
  · exact .pure _
  · refine plain_ite ?_ (.pure _)
    split
    · exact .pure _
    · exact .throw _

theorem plain_isDescriptor : Plain (isDescriptor o) :=
  .bind plain_world fun _ => .bind plain_world fun _ => .pure _

theorem plain_selfName? : Plain (selfName? path o) := by
  unfold selfName?
  split
  · exact .pure _
  · refine plain_ite (.pure _) ?_
    split
    · exact .pure _
    · exact .bind (.report _) fun _ => .pure _

theorem plain_fullName? : Plain (fullName? path o) := by
  refine .bind (plain_selfName? path o) fun text => ?_
  cases text with
  | none => exact .pure none
  | some text =>
    dsimp only
    split
    · exact .bind (.report _) fun _ => .pure _
    · exact .pure _

theorem plain_aliasOf : Plain (aliasOf path o) := by
  refine .bind (plain_fullName? path o) fun name => ?_
  cases name with
  | none => exact .pure none
  | some name =>
    exact .bind (plain_withoutModule name) fun _ => .bind (.requireImport _) fun _ => .pure _

theorem composed_importOf : Composed (importOf path o) := by
  refine .bind (.plain (plain_fullName? path o)) fun name => ?_
  cases name with
  | none => exact .pure none
  | some name => exact .bind (.addImport _ _) fun _ => .pure _

theorem plain_attributeOf : Plain (attributeOf path o) :=
  plain_ite (.pure _) (.bind (plain_value o) fun _ => .bind (plain_typeName _) fun _ =>
    plain_ite (.pure _) (.bind (plain_withoutModule _) fun _ =>
      .bind (.requireImport _) fun _ => .pure _))

theorem plain_anyOf (types : List QualifiedName) : Plain (anyOf types) := by
  unfold anyOf
  split
  · exact .pure _
  · exact .bind (plain_wellKnown _) fun _ => .pure _

theorem plain_entryTypes (keys values : List QualifiedName) (es : List (Object × Object)) :
    Plain (entryTypes keys values es) := by
  induction es generalizing keys values with
  | nil => exact .pure _
  | cons e es ih =>
    exact .bind (plain_settle _) fun _ => .bind (plain_typeName _) fun _ =>
      .bind (plain_settle _) fun _ => .bind (plain_typeName _) fun _ => ih _ _

theorem plain_dictType? : Plain (dictType? o) := by
  unfold dictType?
  split
  · exact .bind (plain_entryTypes _ _ _) fun _ => .bind (plain_anyOf _) fun _ =>
      .bind (plain_anyOf _) fun _ => .bind (plain_wellKnown _) fun _ => .pure _
  · exact .pure _

theorem plain_variableHint (hint : Option Hint) : Plain (variableHint hint) := by
  cases hint with
  | none => exact .pure none
  | some type => exact .bind (plain_wellKnown _) fun _ => .pure _

theorem plain_membersHint (hint : Option Hint) : Plain (membersHint path o hint) := by
  refine plain_ite (.bind (plain_dictType? o) fun type => ?_) (.pure _)
  cases type with
  | none => exact .pure _
  | some type => exact .pure _

theorem plain_fieldHint (hint : Option Hint) : Plain (fieldHint path o hint) :=
  .bind (plain_variableHint hint) fun _ => .bind (plain_membersHint path o _) fun _ =>
    plain_ite (.bind (plain_hintOfText _) fun _ => .pure _) (.pure _)

theorem plain_fieldOf : Plain (fieldOf path o) := by
  refine .bind (plain_attributeOf path o) fun a => ?_
  cases a with
  | none => exact .pure none
  | some a => exact .bind (plain_fieldHint path o a.hint) fun _ => .pure _

/-! Classes. -/

theorem enclosed_classMemberByKind (h : Enclosed nested) :
    Enclosed (classMemberByKind path o nested) := by
  have byValue : Enclosed (do
      if path.last = "__doc__" then return ((docOf o).map .doc).getD .nothing
      return ((← fieldOf path o).map .field).getD .nothing : Inspection ClassMember) :=
    .plain (plain_ite (.pure _) (.bind (plain_fieldOf path o) fun _ => .pure _))
  refine enclosed_ite (.plain (.bind (plain_methodsOf path o) fun _ => .pure _)) ?_
  refine .bind (.plain (plain_isAlias path o)) fun _ => enclosed_ite ?_ ?_
  · exact .plain (.bind (plain_aliasOf path o) fun _ => .pure _)
  refine enclosed_ite (.bind h fun _ => .plain (.pure _)) ?_
  refine .bind (.plain (plain_isDescriptor o)) fun _ => enclosed_ite ?_ byValue
  exact .plain (.bind (plain_propertyOf path o) fun _ => .pure _)

theorem plain_withEnumTexts (owner : Object) (m : ClassMember) : Plain (withEnumTexts owner m) := by
  unfold withEnumTexts
  split
  · exact .bind plain_world fun _ => plain_ite (.pure _) (.pure _)
  · exact .pure _

theorem enclosed_classMember (owner o : Object) (h : Enclosed nested) :
    Enclosed (classMember path owner o nested) := by
  refine enclosed_ite (.plain (.pure _)) (enclosed_ite ?_ (enclosed_ite (.plain (.pure _)) ?_))
  · exact .plain (.bind (.report _) fun _ => .pure _)
  · exact .bind (enclosed_classMemberByKind path o h) fun m =>
      .plain (.bind (plain_withEnumTexts owner m) fun _ => .pure _)

theorem plain_basesOf (bases : List Object) : Plain (basesOf bases) := by
  have names : Plain (basesOf.go bases) := by
    induction bases with
    | nil => exact .pure []
    | cons b bs ih =>
      exact plain_ite ih (.bind (plain_typeNameOf b) fun _ => .bind ih fun _ => .pure _)
  exact .bind names fun _ => .pure _

theorem enclosed_addClassMembers (c : Class) (members : List (String × Inspection ClassMember))
    (h : ∀ m ∈ members, Enclosed m.2) : Enclosed (addClassMembers c members) := by
  induction members generalizing c with
  | nil => exact .plain (.pure c)
  | cons m members ih =>
    exact .bind (h m List.mem_cons_self) fun _ => ih _ fun m hm => h m (.tail _ hm)

theorem composed_addModuleMembers (m : Module) (members : List (String × Inspection ModuleMember))
    (h : ∀ m ∈ members, Composed m.2) : Composed (addModuleMembers m members) := by
  induction members generalizing m with
  | nil => exact .pure m
  | cons member members ih =>
    exact .bind (h member List.mem_cons_self) fun _ => ih _ fun m hm => h m (.tail _ hm)

/-- What holds for the steps of all members and for the step of the docstring holds for the steps
in the order in which they are taken. -/
theorem forall_ordered {α : Type} {P : Inspection α → Prop}
    {members : List (String × Inspection α)} {doc : Inspection α} (hdoc : P doc)
    (h : ∀ m ∈ members, P m.2) : ∀ m ∈ inNameOrder (withDoc members doc), P m.2 := by
  intro m hm
  rw [inNameOrder, mem_sortBy, withDoc] at hm
  split at hm
  · exact h m hm
  · cases hm with
    | head => exact hdoc
    | tail _ hm => exact h m hm

theorem classBody_layered (bases : List QualifiedName)
    {members : List (String × Inspection ClassMember)} (h : ∀ m ∈ members, Enclosed m.2) :
    ∃ x, Enclosed x ∧ classBody path o bases members = withLayer path x := by
  refine ⟨_, .withClass o (.bind (.plain plain_world) fun w => ?_), rfl⟩
  refine .bind (.plain (plain_basesOf _)) fun _ => enclosed_addClassMembers _ _ ?_
  exact forall_ordered (enclosed_classMember _ _ _ (.plain (.throw _))) h

theorem enclosed_classBody (bases : List QualifiedName)
    {members : List (String × Inspection ClassMember)} (h : ∀ m ∈ members, Enclosed m.2) :
    Enclosed (classBody path o bases members) := by
  obtain ⟨x, hx, layered⟩ := classBody_layered path o bases h
  exact layered ▸ .withLayer path hx

/-- What references lead to is inspected by composed steps. -/
structure Descent.Composed (d : Descent) : Prop where
  classAt (path : QualifiedName) (o : Object) : (d.classAt path o).Enclosed
  moduleAt (path : QualifiedName) (o : Object) : (d.moduleAt path o).Composed

mutual

theorem enclosed_classWith {d : Descent} (hd : d.Composed) (path : QualifiedName) (o : Object) :
    Enclosed (classWith d path o) := by
  cases o with
  | classDef identity metatype bases ms =>
    simp only [classWith]
    exact enclosed_classBody _ _ _ (enclosed_classMembersWith hd path _ ms)
  | _ =>
    simp only [classWith]
    exact .plain (.throw _)

theorem enclosed_classMembersWith {d : Descent} (hd : d.Composed) (path : QualifiedName)
    (owner : Object) (ms : List (String × Object)) :
    ∀ m ∈ classMembersWith d path owner ms, Enclosed m.2 := by
  match ms with
  | [] => simp [classMembersWith]
  | (name, o) :: ms =>
    simp only [classMembersWith, List.forall_mem_cons]
    refine ⟨.bind (.plain (plain_settle o)) fun settled => ?_,
      enclosed_classMembersWith hd path owner ms⟩
    exact enclosed_classMember _ _ _
      (enclosed_ite (hd.classAt _ _) (enclosed_classWith hd (path.member name) o))

end

/-! Modules. -/

theorem composed_moduleMember (ownerName : String) (o : Object) {nestedClass : Inspection Class}
    {nestedModule : Inspection Module} (hc : Enclosed nestedClass) (hm : Composed nestedModule) :
    Composed (moduleMember path ownerName o nestedClass nestedModule) := by
  refine composed_ite (.plain (.bind (.report _) fun _ => .pure _)) (composed_ite ?_ ?_)
  · exact .bind (composed_importOf path o) fun _ => .pure _
  refine .bind (.plain (plain_isAlias path o)) fun _ => composed_ite ?_ (composed_ite ?_ ?_)
  · exact .plain (.bind (plain_aliasOf path o) fun _ => .pure _)
  · exact .plain (.bind (plain_functionsOf path o) fun _ => .pure _)
  refine composed_ite (.bind (.enclosed hc) fun _ => .pure _) (composed_ite (.bind hm fun _ => .pure _) ?_)
  exact .plain (plain_ite (.pure _) (.bind (plain_attributeOf path o) fun _ => .pure _))

theorem plain_typeVariables (names : List String) : Plain (withTypeVariables.go names) := by
  induction names with
  | nil => exact .pure []
  | cons name names ih => exact .bind (plain_hintOfText _) fun _ => .bind ih fun _ => .pure _

theorem composed_withTypeVariables (m : Module) : Composed (withTypeVariables path m) := by
  change Composed (view >>= fun v => if v.arrays != .typeVariables then pure m else
    view >>= fun v =>
      let names := sortBy (fun a b => decide (a ≤ b)) (v.scope.letters.foldl LetterEvent.next [])
      withTypeVariables.go names >>= fun bounds => takeDimensions path >>= fun _ =>
        if names.isEmpty then pure m else pure { m with
          imports := (Import.mk none ⟨["typing"]⟩).insert m.imports
          typeVariables := m.typeVariables ++ bounds })
  refine .bind (.plain .view) fun _ => composed_ite (.pure _) (.bind (.plain .view) fun _ => ?_)
  refine .bind (.plain (plain_typeVariables _)) fun _ => .bind (.takeDimensions path) fun _ => ?_
  exact composed_ite (.pure _) (.pure _)

/-- What is done inside a module: its members are inspected, then it takes its type variables. -/
def moduleContent (path : QualifiedName) (o : Object) (name : String)
    (members : List (String × Inspection ModuleMember)) : Inspection Module := do
  let m ← withModulePath path do
    let doc := moduleMember (path.member "__doc__") name (.ofText? o.doc?)
      (throw .missingAttribute) (throw .missingAttribute)
    addModuleMembers { name := path.last } (inNameOrder (withDoc members doc))
  withTypeVariables path m

theorem moduleBody_eq (members : List (String × Inspection ModuleMember)) :
    moduleBody path o name members = withLayer path
      (withModule o (moduleContent path o name members) >>= fun r => pure (withImports r.1 r.2)) :=
  rfl

theorem composed_moduleContent
    (h : ∀ m ∈ members, Composed m.2) : Composed (moduleContent path o name members) := by
  refine .bind (.withModulePath path ?_) (composed_withTypeVariables path)
  refine composed_addModuleMembers _ _ (forall_ordered ?_ h)
  exact composed_moduleMember _ _ _ (.plain (.throw _)) (.plain (.throw _))

theorem composed_moduleBody (h : ∀ m ∈ members, Composed m.2) :
    ∃ x, Composed x ∧ moduleBody path o name members = withLayer path x :=
  ⟨_, .bind (.withModule o (composed_moduleContent path o name h)) fun _ => .pure _,
    moduleBody_eq path o name members⟩

mutual

theorem composed_moduleWith {d : Descent} (hd : d.Composed) (path : QualifiedName) (o : Object) :
    Composed (moduleWith d path o) := by
  cases o with
  | moduleDef name doc ms =>
    simp only [moduleWith]
    obtain ⟨x, hx, h⟩ := composed_moduleBody path (.moduleDef name doc ms) name
      (composed_moduleMembersWith hd path name ms)
    exact h ▸ .withLayer path hx
  | _ =>
    simp only [moduleWith]
    exact .plain (.throw _)

theorem composed_moduleMembersWith {d : Descent} (hd : d.Composed) (path : QualifiedName)
    (ownerName : String) (ms : List (String × Object)) :
    ∀ m ∈ moduleMembersWith d path ownerName ms, Composed m.2 := by
  match ms with
  | [] => simp [moduleMembersWith]
  | (name, o) :: ms =>
    simp only [moduleMembersWith, List.forall_mem_cons]
    refine ⟨.bind (.plain (plain_settle o)) fun settled => ?_,
      composed_moduleMembersWith hd path ownerName ms⟩
    exact composed_moduleMember _ _ _
      (enclosed_ite (hd.classAt _ _) (enclosed_classWith hd (path.member name) o))
      (composed_ite (hd.moduleAt _ _) (composed_moduleWith hd (path.member name) o))

end

theorem composed_descent (n : Nat) : (descent n).Composed := by
  induction n with
  | zero => exact ⟨fun _ _ => .plain (.throw _), fun _ _ => .plain (.throw _)⟩
  | succ n ih => exact ⟨enclosed_classWith ih, composed_moduleWith ih⟩

theorem moduleWith_descent (n : Nat) (path : QualifiedName) (name : String) (doc : Option String)
    (ms : List (String × Object)) :
    ∃ x, Composed x ∧ moduleWith (descent n) path (.moduleDef name doc ms) = withLayer path x := by
  simp only [moduleWith]
  exact composed_moduleBody _ _ _ (composed_moduleMembersWith (composed_descent n) path name ms)

end TypeStubs.Inspection
