import TypeStubs.Proofs.Statements

/-! What single members contribute to the stubs of classes and modules: one case for each way a member
can go, and one run of the steps of all members. -/

namespace TypeStubs

open List

/-- The full name that an object gives itself, as a text. -/
def Object.originText? (o : Object) : Option String :=
  match o with
  | .moduleDef name _ _ => some name
  | o => do return (← o.moduleName?) ++ "." ++ withoutCapsule (← o.qualified?)

namespace Inspection

variable {α β σ : Type} {s : Setting} {p q r : Progress} {path : QualifiedName} {o : Object}
variable {steps : List (String × Inspection α)} {add : σ → α → σ} {m : ClassMember}
variable {nested : Inspection Class}

/-- The problems that were found between two states. -/
def newProblems (p q : Progress) : List Problem := q.found.drop p.found.length

theorem newProblems_mono {p' q' : Progress} (hp : p'.found <+: p.found) (hq : q.found <+: q'.found) :
    newProblems p q ⊆ newProblems p' q' := by
  intro problem h
  obtain ⟨more, hmore⟩ := hq
  have later : problem ∈ newProblems p q' := by
    rw [newProblems, ← hmore, drop_append]
    exact mem_append_left _ h
  exact (drop_sublist_drop_left _ hp.length_le).subset later

theorem mem_newProblems_report {problem : Problem} {u : Unit}
    (h : (report problem).outcome s p = (.ok u, q)) : problem ∈ newProblems p q := by
  have found := (report_frame problem s p).2.2
  rw [h] at found
  rw [newProblems, found, drop_left]
  exact mem_cons_self

/-! Results. -/

/-- Every result of a step has a property. -/
def Ensures (s : Setting) (x : Inspection α) (P : α → Prop) : Prop :=
  ∀ ⦃p q a⦄, x.outcome s p = (.ok a, q) → P a

namespace Ensures

variable {x : Inspection α} {f : α → Inspection β} {P : α → Prop} {Q : β → Prop}

theorem pure {a : α} (h : P a) : Ensures s (pure a) P := by
  intro p q b hb
  cases hb
  exact h

theorem throw (e : Failure) : Ensures s (throw e) P := by
  intro p q b hb
  cases hb

theorem bind (hx : Ensures s x P) (hf : ∀ a, P a → Ensures s (f a) Q) : Ensures s (x >>= f) Q := by
  intro p q b h
  obtain ⟨a, r, h₁, h₂⟩ := bind_ok_iff.mp h
  exact hf a (hx h₁) h₂

theorem after (hf : ∀ a, Ensures s (f a) Q) : Ensures s (x >>= f) Q := by
  intro p q b h
  obtain ⟨a, r, -, h₂⟩ := bind_ok_iff.mp h
  exact hf a h₂

theorem ite {c : Prop} [Decidable c] {y : Inspection α} (hx : c → Ensures s x P)
    (hy : ¬ c → Ensures s y P) : Ensures s (if c then x else y) P := by
  split
  · exact hx ‹_›
  · exact hy ‹_›

theorem tryCatch {h : Failure → Inspection α} (hx : Ensures s x P) (hh : ∀ e, Ensures s (h e) P) :
    Ensures s (tryCatch x h) P := by
  intro p q a ha
  rw [outcome_tryCatch] at ha
  rcases hr : x.outcome s p with ⟨e | b, r⟩
  · rw [hr] at ha
    exact hh e ha
  · rw [hr] at ha
    cases ha
    exact hx hr

theorem withLayer (hx : Ensures s x P) : Ensures s (withLayer path x) P := by
  intro p q a h
  obtain ⟨r, hr, -⟩ := outcome_withLayer_ok_iff.mp h
  exact hx hr

end Ensures

/-! Functions. -/

theorem ensures_signedFunction (name : String) (o : Object) :
    Ensures s (signedFunction name o) fun f => f.name = name := by
  refine .after fun w => ?_
  split
  · refine .tryCatch ?_ fun e => .ite (fun _ => .pure rfl) (fun _ => .throw e)
    exact .after fun _ => .after fun _ => .pure rfl
  · exact .pure rfl

theorem ensures_overloadsOfLines (pattern : Regex) (name : String) (number : Nat)
    (lines : List String) :
    Ensures s (overloadsOfLines pattern name number lines) fun r => ∀ f ∈ r.2, f.name = name := by
  induction lines generalizing number with
  | nil => exact .pure (forall_mem_nil _)
  | cons line lines ih =>
    unfold overloadsOfLines
    split
    · exact (ih number).bind fun r hr => .pure hr
    · rename_i c _
      have named : Ensures s (overloadOfMatch name c) fun f => f.name = name :=
        .after fun _ => .after fun _ => .after fun _ => .after fun _ => .after fun _ => .pure rfl
      refine .ite (fun _ => ?_) (fun _ => (ih number).bind fun r hr => .pure hr)
      refine named.bind fun f hf => (ih (number + 1)).bind fun r hr => .pure ?_
      exact forall_mem_cons.mpr ⟨hf, hr⟩

theorem ensures_functionsOfLines (name : String) (lines : List String) :
    Ensures s (functionsOfLines name lines) fun fs => ∀ f ∈ fs, f.name = name := by
  cases lines with
  | nil => exact .pure (forall_mem_nil _)
  | cons first lines =>
    refine .after fun pattern => ?_
    split
    · exact .pure (forall_mem_nil _)
    · refine .ite (fun _ => .after fun _ => ?_) (fun _ => ?_)
      · exact (ensures_overloadsOfLines _ _ _ _).bind fun r hr => .pure hr
      · have named (c : Captures) : Ensures s (functionOfMatch name c lines) fun f => f.name = name :=
          .after fun _ => .after fun _ => .after fun _ => .pure rfl
        exact (named _).bind fun f hf => .pure (forall_mem_singleton.mpr hf)

theorem ensures_functionsOf (path : QualifiedName) (o : Object) :
    Ensures s (functionsOf path o) fun fs => fs ≠ [] ∧ ∀ f ∈ fs, f.name = path.last := by
  refine .withLayer ((ensures_signedFunction _ o).bind fun f hf => ?_)
  have single : [f] ≠ [] ∧ ∀ g ∈ [f], g.name = path.last :=
    ⟨cons_ne_nil _ _, forall_mem_singleton.mpr hf⟩
  dsimp only
  split
  · refine (ensures_functionsOfLines _ _).bind fun fs hfs => .pure ?_
    split
    · exact single
    · rename_i nonempty
      exact ⟨fun h => nonempty (isEmpty_iff.mpr h), hfs⟩
  · exact .pure single

/-! Origins. -/

def OriginReported (path : QualifiedName) (o : Object) (problems : List Problem) : Prop :=
  (o.originText? = none ∧ .name path ∈ problems) ∨
    ∃ text part, o.originText? = some text ∧ part ∈ (QualifiedName.ofText text).parts ∧
      isIdentifier part = false ∧ .identifier part path ∈ problems

theorem OriginReported.mono {problems problems' : List Problem}
    (h : OriginReported path o problems) (hp : problems ⊆ problems') :
    OriginReported path o problems' := by
  rcases h with ⟨ho, hmem⟩ | ⟨text, part, ho, hpart, hi, hmem⟩
  · exact .inl ⟨ho, hp hmem⟩
  · exact .inr ⟨text, part, ho, hpart, hi, hp hmem⟩

theorem selfName?_ok {text? : Option String} (h : (selfName? path o).outcome s p = (.ok text?, q)) :
    (∃ text, o.originText? = some text ∧ text? = some text ∧ q = p) ∨
      (o.moduleName? = some "__future__" ∧ text? = none) ∨
      o.originText? = none ∧ text? = none ∧ .name path ∈ newProblems p q := by
  unfold selfName? at h
  split at h
  · rename_i name doc ms
    cases h
    exact .inl ⟨name, rfl, rfl, rfl⟩
  · rename_i notModule
    have text : o.originText? =
        (do return (← o.moduleName?) ++ "." ++ withoutCapsule (← o.qualified?)) := by
      unfold Object.originText?
      split
      · exact (notModule _ _ _ rfl).elim
      · rfl
    rw [outcome_ite] at h
    split at h
    · cases h
      exact .inr (.inl ⟨‹_›, rfl⟩)
    · split at h
      · rename_i hm hq
        cases h
        refine .inl ⟨_, ?_, rfl, rfl⟩
        rw [text, hm, hq]
        rfl
      · rename_i unnamed
        obtain ⟨u, r, hr, h⟩ := bind_ok_iff.mp h
        cases h
        refine .inr (.inr ⟨?_, rfl, mem_newProblems_report hr⟩)
        rw [text]
        cases hm : o.moduleName? with
        | none => rfl
        | some m =>
          cases hq : o.qualified? with
          | none => rfl
          | some qualified => exact (unnamed m qualified hm hq).elim

theorem fullName?_ok {name? : Option QualifiedName}
    (h : (fullName? path o).outcome s p = (.ok name?, q)) : (∃ name, name? = some name ∧ q = p) ∨
      name? = none ∧ (o.moduleName? = some "__future__" ∨
        OriginReported path o (newProblems p q)) := by
  obtain ⟨text?, r, hr, rest⟩ := bind_ok_iff.mp h
  rcases selfName?_ok hr with ⟨text, ho, rfl, rfl⟩ | ⟨future, rfl⟩ | ⟨ho, rfl, reported⟩
  · dsimp only at rest
    split at rest
    · rename_i part hpart
      obtain ⟨u, r, hr, rest⟩ := bind_ok_iff.mp rest
      cases rest
      have invalid : isIdentifier part = false := by simpa using find?_some hpart
      exact .inr ⟨rfl, .inr (.inr ⟨text, part, ho, mem_of_find?_eq_some hpart, invalid,
        mem_newProblems_report hr⟩)⟩
    · cases rest
      exact .inl ⟨_, rfl, rfl⟩
  · cases rest
    exact .inr ⟨rfl, .inl future⟩
  · cases rest
    exact .inr ⟨rfl, .inr (.inl ⟨ho, reported⟩)⟩

theorem aliasOf_ok {a? : Option Alias} (h : (aliasOf path o).outcome s p = (.ok a?, q)) :
    (∃ a, a? = some a ∧ a.name = path.last) ∨
      a? = none ∧ (o.moduleName? = some "__future__" ∨
        OriginReported path o (newProblems p q)) := by
  obtain ⟨name?, r, hr, rest⟩ := bind_ok_iff.mp h
  rcases fullName?_ok hr with ⟨name, rfl, -⟩ | ⟨rfl, reason⟩
  · obtain ⟨origin, r, -, rest⟩ := bind_ok_iff.mp rest
    obtain ⟨u, r, -, rest⟩ := bind_ok_iff.mp rest
    cases rest
    exact .inl ⟨_, rfl, rfl⟩
  · cases rest
    exact .inr ⟨rfl, reason⟩

theorem importOf_ok {i? : Option Import} (h : (importOf path o).outcome s p = (.ok i?, q)) :
    (∃ r origin, i? = some ⟨some path.last, origin⟩ ∧
        (fullName? path o).outcome s p = (.ok (some origin), r) ∧
        q = { r with imports := (Import.mk (some path.last) origin).insert r.imports }) ∨
      i? = none ∧ (fullName? path o).outcome s p = (.ok none, q) ∧
        (o.moduleName? = some "__future__" ∨ OriginReported path o (newProblems p q)) := by
  obtain ⟨name?, r, hr, rest⟩ := bind_ok_iff.mp h
  rcases fullName?_ok hr with ⟨name, rfl, -⟩ | ⟨rfl, reason⟩
  · cases rest
    exact .inl ⟨r, name, rfl, hr, rfl⟩
  · cases rest
    exact .inr ⟨rfl, hr, reason⟩

theorem attributeOf_ok {a? : Option Attribute}
    (h : (attributeOf path o).outcome s p = (.ok a?, q)) : (∃ a, a? = some a ∧ a.name = path.last) ∨
      a? = none ∧ (Typing.binds path.last o = true ∨ path.last ∈ hiddenAttributes) := by
  unfold attributeOf at h
  rw [outcome_ite] at h
  split at h
  · rename_i hidden
    cases h
    refine .inr ⟨rfl, ?_⟩
    simpa using hidden
  · refine .inl ?_
    obtain ⟨v, r, -, h⟩ := bind_ok_iff.mp h
    obtain ⟨type, r, -, h⟩ := bind_ok_iff.mp h
    rw [outcome_ite] at h
    split at h
    · cases h
      exact ⟨_, rfl, rfl⟩
    · obtain ⟨name, r, -, h⟩ := bind_ok_iff.mp h
      obtain ⟨u, r, -, h⟩ := bind_ok_iff.mp h
      cases h
      exact ⟨_, rfl, rfl⟩

/-! Members. -/

theorem isAlias_ok {isAlias? : Bool} (h : (isAlias path o).outcome s p = (.ok isAlias?, q)) :
    q = p ∧ (isAlias? = true → o.isRoutine = true ∨ o.isClass = true ∨ o.isModule = true) ∧
      (isAlias? = false → (o.isClass = true → o.name? = some path.last) ∧
        (o.isModule = true → o.name? = some path.text)) := by
  unfold isAlias at h
  split at h
  · rename_i name doc ms
    cases h
    refine ⟨rfl, fun _ => .inr (.inr rfl), fun own => ⟨fun hc => ?_, fun _ => ?_⟩⟩
    · cases hc
    · exact congrArg some (by simpa using own)
  · rename_i notModule
    have plain : o.isModule = true → o.name? = some path.text := by
      intro hm
      cases o with
      | moduleDef name doc ms => exact (notModule _ _ _ rfl).elim
      | _ => cases hm
    rw [outcome_ite] at h
    split at h
    · rename_i named
      split at h
      · rename_i name hname
        cases h
        refine ⟨rfl, fun _ => ?_, fun own => ⟨fun _ => ?_, plain⟩⟩
        · exact (Bool.or_eq_true_iff.mp named).elim .inl (.inr ∘ .inl)
        · rw [hname]
          exact congrArg some (by simpa using own)
      · cases h
    · rename_i other
      cases h
      refine ⟨rfl, fun h => absurd h Bool.false_ne_true, fun _ => ⟨fun hc => ?_, plain⟩⟩
      rw [hc, Bool.or_true] at other
      exact (other rfl).elim

/-- The ways that a member of a module can go, and what it contributes on each of them. -/
inductive ModuleStep (s : Setting) (path : QualifiedName) (ownerName : String) (o : Object)
    (nestedClass : Inspection Class) (nestedModule : Inspection Module) (p q : Progress) :
    ModuleMember → Prop
  | misnamed : isIdentifier path.last = false →
      (report (.identifier path.last path.parent)).outcome s p = (.ok (), q) →
      ModuleStep s path ownerName o nestedClass nestedModule p q .nothing
  | imported {i? : Option Import} : (importOf path o).outcome s p = (.ok i?, q) →
      ModuleStep s path ownerName o nestedClass nestedModule p q
        ((i?.map .imported).getD .nothing)
  | alias {a? : Option Alias} : (aliasOf path o).outcome s p = (.ok a?, q) →
      ModuleStep s path ownerName o nestedClass nestedModule p q ((a?.map .alias).getD .nothing)
  | functions {fs : List Function} : (functionsOf path o).outcome s p = (.ok fs, q) →
      ModuleStep s path ownerName o nestedClass nestedModule p q (.functions fs)
  | nested {c : Class} : o.isClass = true → o.name? = some path.last →
      (homeModule? o).any (· != ownerName) = false → nestedClass.outcome s p = (.ok c, q) →
      ModuleStep s path ownerName o nestedClass nestedModule p q (.nested c)
  | subModule {m : Module} : o.isModule = true → o.name? = some path.text →
      (homeModule? o).any (· != ownerName) = false → nestedModule.outcome s p = (.ok m, q) →
      ModuleStep s path ownerName o nestedClass nestedModule p q (.subModule m)
  | doc : path.last = "__doc__" → q = p →
      ModuleStep s path ownerName o nestedClass nestedModule p q (((docOf o).map .doc).getD .nothing)
  | attr {a? : Option Attribute} : o.isRoutine = false → o.isClass = false → o.isModule = false →
      (attributeOf path o).outcome s p = (.ok a?, q) →
      ModuleStep s path ownerName o nestedClass nestedModule p q ((a?.map .attr).getD .nothing)

theorem moduleMember_ok {ownerName : String} {nestedClass : Inspection Class}
    {nestedModule : Inspection Module} {m : ModuleMember}
    (h : (moduleMember path ownerName o nestedClass nestedModule).outcome s p = (.ok m, q)) :
    ModuleStep s path ownerName o nestedClass nestedModule p q m := by
  unfold moduleMember at h
  rw [outcome_ite] at h
  split at h
  · rename_i invalid
    obtain ⟨u, r, hr, rest⟩ := bind_ok_iff.mp h
    cases rest
    exact .misnamed (by simpa using invalid) hr
  dsimp only at h
  rw [outcome_ite] at h
  split at h
  · obtain ⟨i?, r, hr, rest⟩ := bind_ok_iff.mp h
    cases rest
    exact .imported hr
  rename_i notForeign
  have home : (homeModule? o).any (· != ownerName) = false := by
    simp only [Bool.or_eq_true, not_or] at notForeign
    exact Bool.eq_false_iff.mpr notForeign.1
  obtain ⟨isAlias?, r, hr, step⟩ := bind_ok_iff.mp h
  obtain ⟨rfl, -, own⟩ := isAlias_ok hr
  rw [outcome_ite] at step
  split at step
  · obtain ⟨a?, r', hr', rest⟩ := bind_ok_iff.mp step
    cases rest
    exact .alias hr'
  obtain ⟨classOwn, moduleOwn⟩ := own (Bool.eq_false_iff.mpr ‹_›)
  rw [outcome_ite] at step
  split at step
  · obtain ⟨fs, r', hr', rest⟩ := bind_ok_iff.mp step
    cases rest
    exact .functions hr'
  rename_i notRoutine
  rw [outcome_ite] at step
  split at step
  · obtain ⟨c, r', hr', rest⟩ := bind_ok_iff.mp step
    cases rest
    exact .nested ‹_› (classOwn ‹_›) home hr'
  rename_i notClass
  rw [outcome_ite] at step
  split at step
  · obtain ⟨c, r', hr', rest⟩ := bind_ok_iff.mp step
    cases rest
    exact .subModule ‹_› (moduleOwn ‹_›) home hr'
  rename_i notModule
  rw [outcome_ite] at step
  split at step
  · cases step
    exact .doc ‹_› rfl
  obtain ⟨a?, r', hr', rest⟩ := bind_ok_iff.mp step
  cases rest
  exact .attr (Bool.eq_false_iff.mpr notRoutine) (Bool.eq_false_iff.mpr notClass)
    (Bool.eq_false_iff.mpr notModule) hr'

/-! Methods, properties and fields. -/

/-- The methods of a routine have its name and a place in the class. There are none if methods of that
name are hidden, or if the routine is a constructor that the class does not define itself. -/
theorem methodsOf_ok {ms : List Method} (h : (methodsOf path o).outcome s p = (.ok ms, q)) :
    (∀ m ∈ ms, m.function.name = path.last ∧ m.modifier.rank?.isSome = true) ∧
      (ms = [] → path.last ∈ hiddenMethods ∨ path.last = "__init__" ∧
        ∃ p' q' fs, (functionsOf path o).outcome s p' = (.ok fs, q') ∧
          ∀ f ∈ fs, f.doc = some inheritedInitDoc) := by
  have same (f : Function) : (f.withoutSelfHint path.parent).name = f.name ∧
      (f.withoutSelfHint path.parent).doc = f.doc := by
    unfold Function.withoutSelfHint
    split
    · split
      · exact ⟨rfl, rfl⟩
      · exact ⟨rfl, rfl⟩
    · exact ⟨rfl, rfl⟩
  have placed (as : List Argument) : (methodModifier as).rank?.isSome = true := by
    unfold methodModifier
    split
    · rfl
    · rfl
    · rfl
  obtain ⟨r, inside, -⟩ := outcome_withLayer_ok_iff.mp h
  rw [outcome_ite] at inside
  split at inside
  · rename_i hidden
    cases inside
    exact ⟨forall_mem_nil _, fun _ => .inl (contains_iff_mem.mp hidden)⟩
  · obtain ⟨fs, r', hfs, done⟩ := bind_ok_iff.mp inside
    cases done
    obtain ⟨nonempty, named⟩ := ensures_functionsOf path o hfs
    constructor
    · intro m hm
      obtain ⟨f, hf, rfl⟩ := mem_map.mp (mem_filter.mp hm).1
      exact ⟨(same f).1.trans (named f hf), placed _⟩
    · intro empty
      have left (f : Function) (hf : f ∈ fs) :
          f.name = "__init__" ∧ f.doc = some inheritedInitDoc := by
        have out := filter_eq_nil_iff.mp empty _ (mem_map_of_mem hf)
        simp only [(same f).1, (same f).2, Bool.not_eq_true', Bool.not_eq_false, Bool.and_eq_true,
          decide_eq_true_eq] at out
        exact out
      obtain ⟨f, rest, rfl⟩ := exists_cons_of_ne_nil nonempty
      have init : path.last = "__init__" :=
        (named f mem_cons_self).symm.trans (left f mem_cons_self).1
      exact .inr ⟨init, _, _, _, hfs, fun f hf => (left f hf).2⟩

theorem Method.withEnumText_kept (m : Method) (h : m.modifier.rank?.isSome = true) :
    m.withEnumText.function.name = m.function.name ∧
      m.withEnumText.modifier.rank?.isSome = true := by
  unfold Method.withEnumText
  split
  · exact ⟨rfl, rfl⟩
  · exact ⟨rfl, h⟩

theorem ensures_accessorOf (path : QualifiedName) (o : Object) :
    Ensures s (accessorOf path o) fun f => f.isSome = true := by
  have single (fs : List Function) (h : fs ≠ []) :
      Ensures s (accessor? fs) fun f => f.isSome = true := by
    unfold accessor?
    split
    · exact (h rfl).elim
    · exact .pure rfl
    · exact .throw _
  have named : Ensures s (do accessor? (← functionsOf path o)) fun f => f.isSome = true :=
    (ensures_functionsOf path o).bind fun fs hfs => single fs hfs.1
  refine .after fun fs => .after fun f? => ?_
  split
  · exact .ite (fun _ => named) (fun _ => .pure rfl)
  · exact named

theorem propertyOf_ok {x? : Option Property} (h : (propertyOf path o).outcome s p = (.ok x?, q)) :
    (∀ x ∈ x?, x.name = path.last) ∧
      ∀ getter setter doc, o = .property (some getter) setter doc →
        ∃ x, x? = some x ∧ x.getter.isSome = true := by
  unfold propertyOf at h
  split at h
  · rename_i getterObject setterObject doc
    obtain ⟨getter, r, hg, rest⟩ := bind_ok_iff.mp h
    obtain ⟨setter, r', -, rest⟩ := bind_ok_iff.mp rest
    have some_getter (g : Object) (hs : getterObject = some g) : getter.isSome = true := by
      subst hs
      exact ensures_accessorOf path g hg
    rw [outcome_ite] at rest
    split at rest
    · rename_i neither
      cases rest
      refine ⟨by simp, ?_⟩
      intro g st d hd
      cases hd
      have none_getter := (Bool.and_eq_true_iff.mp neither).1
      rw [← Option.not_isSome, some_getter g rfl] at none_getter
      cases none_getter
    · cases rest
      refine ⟨?_, ?_⟩
      · intro x hx
        cases hx
        rfl
      · intro g st d hd
        cases hd
        exact ⟨_, rfl, (Option.isSome_map ..).trans (some_getter g rfl)⟩
  · rename_i other
    cases h
    exact ⟨by simp, fun g st d hd => (other _ _ _ hd).elim⟩

theorem Property.asField?_some {x : Property} {f : Field} (h : x.asField? = some f) :
    f.attr.name = x.name ∧ f.modifier.rank?.isSome = true := by
  unfold Property.asField? at h
  split at h
  · split at h
    · split at h
      · cases h
        exact ⟨rfl, rfl⟩
      · cases h
    · cases h
  · cases h

theorem fieldOf_ok {f? : Option Field} (h : (fieldOf path o).outcome s p = (.ok f?, q)) :
    (∃ f, f? = some f ∧ f.attr.name = path.last ∧ f.modifier.rank?.isSome = true) ∨
      f? = none ∧ (Typing.binds path.last o = true ∨ path.last ∈ hiddenAttributes) := by
  obtain ⟨a?, r, hr, rest⟩ := bind_ok_iff.mp h
  rcases attributeOf_ok hr with ⟨a, rfl, name⟩ | ⟨rfl, hidden⟩
  · obtain ⟨hint, r', -, rest⟩ := bind_ok_iff.mp rest
    cases rest
    exact .inl ⟨_, rfl, name, rfl⟩
  · cases rest
    exact .inr ⟨rfl, hidden⟩

/-- The ways that a member of a class can go by its kind, and what it contributes on each of them. -/
inductive KindStep (s : Setting) (path : QualifiedName) (o : Object) (nested : Inspection Class)
    (p q : Progress) : ClassMember → Prop
  | methods {ms : List Method} : o.isRoutine = true →
      (methodsOf path o).outcome s p = (.ok ms, q) → KindStep s path o nested p q (.methods ms)
  | alias {a? : Option Alias} : o.isRoutine = false → o.isClass = true ∨ o.isModule = true →
      (aliasOf path o).outcome s p = (.ok a?, q) →
      KindStep s path o nested p q ((a?.map .alias).getD .nothing)
  | nested {c : Class} : o.isClass = true → o.name? = some path.last →
      nested.outcome s p = (.ok c, q) → KindStep s path o nested p q (.nested c)
  | property {x? : Option Property} :
      (s.world.has o "__get__" || s.world.has o "__set__") = true →
      (propertyOf path o).outcome s p = (.ok x?, q) →
      KindStep s path o nested p q ((x?.map .property).getD .nothing)
  | doc : path.last = "__doc__" →
      KindStep s path o nested p q (((docOf o).map .doc).getD .nothing)
  | field {f? : Option Field} : o.isRoutine = false → o.isClass = false →
      (fieldOf path o).outcome s p = (.ok f?, q) →
      KindStep s path o nested p q ((f?.map .field).getD .nothing)

theorem classMemberByKind_ok (h : (classMemberByKind path o nested).outcome s p = (.ok m, q)) :
    KindStep s path o nested p q m := by
  unfold classMemberByKind at h
  rw [outcome_ite] at h
  split at h
  · obtain ⟨ms, r, hr, rest⟩ := bind_ok_iff.mp h
    cases rest
    exact .methods ‹_› hr
  rename_i notRoutine
  obtain ⟨isAlias?, r, hr, step⟩ := bind_ok_iff.mp h
  obtain ⟨rfl, shown, own⟩ := isAlias_ok hr
  rw [outcome_ite] at step
  split at step
  · obtain ⟨a?, r', hr', rest⟩ := bind_ok_iff.mp step
    cases rest
    exact .alias (Bool.eq_false_iff.mpr notRoutine) ((shown ‹_›).resolve_left notRoutine) hr'
  obtain ⟨classOwn, -⟩ := own (Bool.eq_false_iff.mpr ‹_›)
  rw [outcome_ite] at step
  split at step
  · obtain ⟨c, r', hr', rest⟩ := bind_ok_iff.mp step
    cases rest
    exact .nested ‹_› (classOwn ‹_›) hr'
  rename_i notClass
  have look : (isDescriptor o).outcome s r =
    (.ok (s.world.has o "__get__" || s.world.has o "__set__"), r) := rfl
  rw [bind_of_ok look, outcome_ite] at step
  split at step
  · obtain ⟨x?, r', hr', rest⟩ := bind_ok_iff.mp step
    cases rest
    exact .property ‹_› hr'
  rw [outcome_ite] at step
  split at step
  · cases step
    exact .doc ‹_›
  obtain ⟨f?, r', hr', rest⟩ := bind_ok_iff.mp step
  cases rest
  exact .field (Bool.eq_false_iff.mpr notRoutine) (Bool.eq_false_iff.mpr notClass) hr'

/-- The ways that a member of a class can go. What it is by its kind is shown in the end, with the
texts of enumerations, and with fields for simple properties. -/
inductive ClassStep (s : Setting) (path : QualifiedName) (owner o : Object)
    (nested : Inspection Class) (p q : Progress) : ClassMember → Prop
  | hidden : path.last ∈ hiddenClassMembers ∨ hasOwnMember owner path.last = false →
      ClassStep s path owner o nested p q .nothing
  | misnamed : isIdentifier path.last = false → ClassStep s path owner o nested p q .nothing
  | internal : isInternalMember path.last = true → ClassStep s path owner o nested p q .nothing
  | shown {m m' : ClassMember} : KindStep s path o nested p q m →
      (m' = m ∨ ∃ ms, m = .methods ms ∧ m' = .methods (ms.map Method.withEnumText)) →
      ClassStep s path owner o nested p q m'.withFields

theorem withEnumTexts_ok {owner : Object} {m' : ClassMember}
    (h : (withEnumTexts owner m).outcome s p = (.ok m', q)) :
    q = p ∧ (m' = m ∨ ∃ ms, m = .methods ms ∧ m' = .methods (ms.map Method.withEnumText)) := by
  unfold withEnumTexts at h
  split at h
  · rename_i ms
    obtain ⟨w, r, hr, rest⟩ := bind_ok_iff.mp h
    cases hr
    rw [outcome_ite] at rest
    split at rest
    · cases rest
      exact ⟨rfl, .inr ⟨ms, rfl, rfl⟩⟩
    · cases rest
      exact ⟨rfl, .inl rfl⟩
  · cases h
    exact ⟨rfl, .inl rfl⟩

theorem classMember_ok {owner : Object}
    (h : (classMember path owner o nested).outcome s p = (.ok m, q)) :
    ClassStep s path owner o nested p q m := by
  unfold classMember at h
  dsimp only at h
  rw [outcome_ite] at h
  split at h
  · rename_i hidden
    cases h
    simp only [Bool.or_eq_true, contains_iff_mem, Bool.not_eq_true'] at hidden
    exact .hidden hidden
  rw [outcome_ite] at h
  split at h
  · rename_i invalid
    obtain ⟨u, r, hr, rest⟩ := bind_ok_iff.mp h
    cases rest
    exact .misnamed (by simpa using invalid)
  rw [outcome_ite] at h
  split at h
  · cases h
    exact .internal ‹_›
  obtain ⟨kind, r, step, rest⟩ := bind_ok_iff.mp h
  obtain ⟨texts, r', enum, done⟩ := bind_ok_iff.mp rest
  cases done
  obtain ⟨rfl, same⟩ := withEnumTexts_ok enum
  exact .shown (classMemberByKind_ok step) same

/-! Runs over all members. -/

/-- Runs the steps for some members and adds what they contribute. -/
def gather (add : σ → α → σ) (m : σ) : List (String × Inspection α) → Inspection σ
  | [] => return m
  | (_, member) :: members => do
    let contribution ← member
    gather add (add m contribution) members

theorem addClassMembers_eq (c : Class) (members : List (String × Inspection ClassMember)) :
    addClassMembers c members = gather Class.add c members := by
  induction members generalizing c with
  | nil => rfl
  | cons m members ih => simp only [addClassMembers, gather, ih]

theorem addModuleMembers_eq (m : Module) (members : List (String × Inspection ModuleMember)) :
    addModuleMembers m members = gather Module.add m members := by
  induction members generalizing m with
  | nil => rfl
  | cons member members ih => simp only [addModuleMembers, gather, ih]

theorem composed_gather
    (hs : ∀ x ∈ steps, Composed x.2) (m : σ) : Composed (gather add m steps) := by
  induction steps generalizing m with
  | nil => exact .pure m
  | cons step steps ih =>
    obtain ⟨hx, hs⟩ := forall_mem_cons.mp hs
    exact .bind hx fun a => ih hs (add m a)

/-- The step has a result on the way from one state to another. -/
def TakesPlace (s : Setting) (p q : Progress) (x : Inspection α) (a : α) : Prop :=
  ∃ p' q', Grows p p' ∧ x.outcome s p' = (.ok a, q') ∧ Grows q' q

theorem gather_ok {m m' : σ}
    (hs : ∀ x ∈ steps, Composed x.2) (h : (gather add m steps).outcome s p = (.ok m', q)) :
    ∃ members : List (String × α), m' = members.foldl (fun m x => add m x.2) m ∧
      Forall₂ (fun step x => x.1 = step.1 ∧ TakesPlace s p q step.2 x.2) steps members := by
  induction steps generalizing m p with
  | nil =>
    cases h
    exact ⟨[], rfl, .nil⟩
  | cons step steps ih =>
    obtain ⟨name, x⟩ := step
    obtain ⟨hx, hs⟩ := forall_mem_cons.mp hs
    obtain ⟨a, r, first, rest⟩ := bind_ok_iff.mp h
    have grows : Grows p r := hx.keeps (keeps_grows s) first
    have onward : Grows r q := (composed_gather hs _).keeps (keeps_grows s) rest
    obtain ⟨members, rfl, each⟩ := ih hs rest
    refine ⟨(name, a) :: members, rfl, .cons ⟨rfl, p, r, .refl p, first, onward⟩ ?_⟩
    refine each.imp fun step member hm => ⟨hm.1, ?_⟩
    obtain ⟨p', q', before, outcome, after⟩ := hm.2
    exact ⟨p', q', grows.trans before, outcome, after⟩

theorem gather_keeps {I : σ → Progress → Prop}
    (hs : ∀ x ∈ steps, ∀ ⦃m p q a⦄, I m p → x.2.outcome s p = (.ok a, q) → I (add m a) q)
    {m m' : σ} (hm : I m p) (h : (gather add m steps).outcome s p = (.ok m', q)) : I m' q := by
  induction steps generalizing m p with
  | nil =>
    cases h
    exact hm
  | cons step steps ih =>
    obtain ⟨hx, hs⟩ := forall_mem_cons.mp hs
    obtain ⟨a, r, first, rest⟩ := bind_ok_iff.mp h
    exact ih hs (hx hm first) rest

end Inspection

end TypeStubs
