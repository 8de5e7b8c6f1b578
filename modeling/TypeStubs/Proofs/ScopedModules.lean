import TypeStubs.Proofs.ScopedClasses

/-! Every name that the stub of a module uses is brought into scope or reported, unless it is one of
several types with bars between them. -/

namespace TypeStubs

open List

variable {union : Option QualifiedName} {m : Module} {w : World}
variable {known : Option Object → String → Prop} {name : String}
variable {members : List (String × Inspection ModuleMember)} {member : ModuleMember}

/-- The first parts of the names that a module uses itself. -/
def Module.ownFirsts (union : Option QualifiedName) (m : Module) : List String :=
  m.aliases.map (·.origin.head) ++ m.functions.flatMap (Function.firsts union) ++
    m.attributes.flatMap fun a => Hint.firsts? union a.hint

def ModuleMember.firsts (union : Option QualifiedName) : ModuleMember → List String
  | .alias a => [a.origin.head]
  | .functions fs => fs.flatMap (Function.firsts union)
  | .attr a => Hint.firsts? union a.hint
  | _ => []

def ModuleMember.classes : ModuleMember → List Class
  | .nested c => [c]
  | _ => []

theorem Module.ownFirsts_add {f : String} (hf : f ∈ (m.add member).ownFirsts union) :
    f ∈ m.ownFirsts union ∨ f ∈ member.firsts union := by
  cases member with
  | nothing | doc text | imported i | nested d | subModule n => exact .inl hf
  | «alias» a | functions fs | attr a =>
    simp only [Module.add, Module.ownFirsts, ModuleMember.firsts, map_append,
      flatMap_append, map_cons, map_nil, flatMap_cons, flatMap_nil,
      append_nil, mem_append] at hf ⊢
    grind

theorem Module.classes_add (m : Module) (member : ModuleMember) :
    (m.add member).classes = m.classes ++ member.classes := by
  cases member with
  | nested d => rfl
  | _ => exact (append_nil _).symm

def ModuleMember.InScope (w : World) (union : Option QualifiedName)
    (known : Option Object → String → Prop) (class? : Option Object) (owner : Object)
    (m : ModuleMember) : Prop :=
  (∀ f ∈ m.firsts union, known class? f) ∧ Class.AllInScope w union known owner m.classes

/-- The names that the stub of a module uses are known in the module, and those of the classes in it
are known there. -/
def Module.InScope (w : World) (union : Option QualifiedName) (known : Option Object → String → Prop)
    (class? : Option Object) (o : Object) (m : Module) : Prop :=
  (∀ f ∈ m.ownFirsts union, known class? f) ∧ Class.AllInScope w union known o m.classes

theorem ModuleMember.inScope_of_empty {class? : Option Object} {owner : Object} {m : ModuleMember}
    (hf : m.firsts union = []) (hc : m.classes = []) : m.InScope w union known class? owner := by
  rw [InScope, hf, hc]
  exact ⟨forall_mem_nil _, trivial⟩

theorem Module.InScope.add {class? : Option Object} {o : Object}
    (hm : m.InScope w union known class? o) (h : member.InScope w union known class? o) :
    (m.add member).InScope w union known class? o := by
  refine ⟨fun f hf => (ownFirsts_add hf).elim (hm.1 f) (h.1 f), ?_⟩
  rw [classes_add, Class.allInScope_iff]
  intro d hd
  exact (mem_append.mp hd).elim (Class.allInScope_iff.mp hm.2 d) (Class.allInScope_iff.mp h.2 d)

theorem Module.InScope.withImports {class? : Option Object} {o : Object}
    (h : m.InScope w union known class? o) (imports : List Import) :
    (Inspection.withImports m imports).InScope w union known class? o := by
  unfold Inspection.withImports Inspection.withPublicNames
  split
  · exact h
  · refine ⟨fun f hf => h.1 f ?_, h.2⟩
    simpa [ownFirsts, Hint.firsts?] using hf

theorem Module.mem_imports_withImports {imports : List Import} {i : Import} :
    i ∈ (Inspection.withImports m imports).imports ↔
      i = Inspection.futureImport ∨ i ∈ m.imports ∨ i ∈ imports := by
  unfold Inspection.withImports Inspection.withPublicNames
  rw [Import.mem_insert]
  split <;> exact or_congr_right Import.mem_union

theorem World.has_class (h : 2 ≤ w.reach)
    (hc : (Builtins.asModule.ownMember? name).any Object.isClass = true) :
    w.has Builtins.asModule name = true := by
  obtain ⟨n, hn⟩ := Nat.exists_eq_add_of_le' h
  obtain ⟨o, own, isClass⟩ := (Option.any_eq_true _ _).mp hc
  have notClass : Builtins.asModule.isClass = false := rfl
  cases o with
  | classDef identity metatype bases ms =>
    simp [has, attribute?, member?, hn, memberAt?, Located.ownMember?, own, notClass, followAt?]
  | _ => cases isClass

theorem World.has_str (h : 2 ≤ w.reach) : w.has Builtins.asModule "str" = true :=
  has_class h rfl

namespace Inspection

variable {s : Setting} {p q : Progress} {path : QualifiedName} {class? : Option Object}
  {union : Option QualifiedName} {owner o : Object}

section

variable (ha : s.options.arrays = .asWritten)

include ha

theorem yields_moduleMember (site : QualifiedName)
    (ownerName : String) (o : Object) {nestedClass : Inspection Class}
    {nestedModule : Inspection Module} (hc : Yields s path class? nestedClass fun known c =>
      Class.AllInScope s.world (some (unionName path)) known owner [c])
    (hm : Composed nestedModule) :
    Yields s path class? (moduleMember site ownerName o nestedClass nestedModule)
      fun known m => m.InScope s.world (some (unionName path)) known class? owner := by
  have empty {m : ModuleMember} (hf : m.firsts (some (unionName path)) = []) (hc : m.classes = [])
      (known : Option Object → String → Prop) :
      m.InScope s.world (some (unionName path)) known class? owner :=
    ModuleMember.inScope_of_empty hf hc
  have byValue : Yields s path class? (do
      if site.last = "__doc__" then return ((docOf o).map .doc).getD .nothing
      return ((← attributeOf site o).map .attr).getD .nothing : Inspection ModuleMember)
      fun known m => m.InScope s.world (some (unionName path)) known class? owner := by
    refine .ite ?_ ?_
    · cases docOf o with
      | none => exact .pure (empty rfl rfl)
      | some text => exact .pure (empty rfl rfl)
    · refine (Yields.of_scopes (scopes_attributeOf site o (some (unionName path)))).bind fun a => ?_
      cases a with
      | none => exact .pure fun known _ => empty rfl rfl known
      | some a =>
        refine .pure fun known hk => ⟨fun g hg => hk g ?_, trivial⟩
        simpa [ModuleMember.firsts] using hg
  refine .ite ?_ (.ite ?_ ?_)
  · exact (Yields.of_composed (.plain (.report _))).bind fun _ => .pure fun k _ => empty rfl rfl k
  · refine (Yields.of_composed (composed_importOf site o)).bind fun i => ?_
    cases i <;> exact .pure fun known _ => empty rfl rfl known
  refine (Yields.of_composed (.plain (plain_isAlias site o))).bind fun _ => .ite ?_ ?_
  · refine (Yields.of_scopes (scopes_aliasOf site o)).bind fun a => ?_
    cases a with
    | none => exact .pure fun known _ _ => empty rfl rfl known
    | some a => exact .pure fun known hk _ => ⟨hk, trivial⟩
  refine .ite ?_ (.ite ?_ (.ite ?_ ?_))
  · refine (Yields.of_scopes (scopes_functionsOf ha site o)).bind fun fs => ?_
    exact .pure fun known hk _ => ⟨hk, trivial⟩
  · exact hc.bind fun c => .pure fun known hc _ => ⟨forall_mem_nil _, hc⟩
  · exact (Yields.of_composed hm).bind fun m => .pure fun known _ _ => empty rfl rfl known
  · exact byValue.imp fun _ _ h _ => h

omit ha in
theorem yields_addModuleMembers (m : Module) (members : List (String × Inspection ModuleMember))
    (h : ∀ m ∈ members, Yields s path class? m.2
      fun known m => m.InScope s.world union known class? o) :
    Yields s path class? (addModuleMembers m members) fun known m' =>
      m.InScope s.world union known class? o → m'.InScope s.world union known class? o := by
  induction members generalizing m with
  | nil => exact .pure fun _ hm => hm
  | cons member members ih =>
    refine (h member mem_cons_self).bind fun member => ?_
    refine (ih (m.add member) fun m hm => h m (.tail _ hm)).imp fun known m' hm' hmember hm => ?_
    exact hm' (hm.add hmember)

theorem yields_moduleMembersWith
    (hs : s.world.has Builtins.asModule "str" = true) {d : Descent} (hd : d.Scopes s path)
    (hd' : d.Composed) (site : QualifiedName) (ownerName : String) (owner : Object)
    (ms : List (String × Object)) (hms : ms ⊆ owner.members) :
    ∀ m ∈ moduleMembersWith d site ownerName ms, Yields s path class? m.2
      fun known m => m.InScope s.world (some (unionName path)) known class? owner := by
  induction ms with
  | nil => simp [moduleMembersWith]
  | cons m ms ih =>
    obtain ⟨name, o⟩ := m
    obtain ⟨hm, hms⟩ := cons_subset.mp hms
    simp only [moduleMembersWith, forall_mem_cons]
    refine ⟨.settle (yields_moduleMember ha _ _ _ (.ite ?_ ?_) (composed_ite ?_ ?_)), ih hms⟩
    · exact (hd _ _ _).shown ⟨o, hm, .inr (.inl rfl)⟩
    · exact (yields_classWith ha hs hd _ (site.member name) o).shown ⟨o, hm, .inl rfl⟩
    · exact hd'.moduleAt _ _
    · exact composed_moduleWith hd' _ o

theorem outcome_withTypeVariables (path : QualifiedName) (m : Module) (p : Progress) :
    (withTypeVariables path m).outcome s p = (.ok m, p) := by
  simp [withTypeVariables, outcome_bind, ha]

/-- A name is known in a module: in the language, the class or the module, by an import of its stub,
or by a report that the inspection made. -/
def KnownTo (w : World) (p q : Progress) (o : Object) (m : Module) (class? : Option Object)
    (first : String) : Prop :=
  Known w class? (some o) m.imports (q.found.drop p.found.length) first

omit ha in
/-- The members of a module are inspected in the module, and then it gets its type variables. What is
left of the run outside are its letters, messages and notes. -/
theorem moduleBody_parts (h : (moduleBody path o name members).outcome s p = (.ok m, q)) :
    ∃ doc m₁ m₂ r₁ r₂, doc = moduleMember (path.member "__doc__") name (.ofText? o.doc?)
        (throw .missingAttribute) (throw .missingAttribute) ∧
      (addModuleMembers { name := path.last } (inNameOrder (withDoc members doc))).outcome s
        { pushed path p with module? := some o, imports := [], modulePath := path } = (.ok m₁, r₁) ∧
      (withTypeVariables path m₁).outcome s { r₁ with modulePath := p.modulePath } = (.ok m₂, r₂) ∧
      m = withImports m₂ r₂.imports ∧
      q = popped { r₂ with module? := p.module?, imports := p.imports } := by
  obtain ⟨q₁, body, rfl⟩ := outcome_withLayer_ok_iff.mp h
  obtain ⟨⟨m₂, imports⟩, q₂, inside, done⟩ := bind_ok_iff.mp body
  cases done
  obtain ⟨r₂, both, rfl, rfl⟩ := outcome_withModule_ok_iff.mp inside
  obtain ⟨m₁, q₄, atPath, taken⟩ := bind_ok_iff.mp both
  obtain ⟨r₁, added, rfl⟩ := outcome_withModulePath_ok_iff.mp atPath
  exact ⟨_, m₁, m₂, r₁, r₂, rfl, added, taken, rfl, rfl⟩

/-- If arrays are left as they are written, the imports that the members ask for become those of the
stub, and nothing else does. -/
theorem moduleBody_ok (h : (moduleBody path o name members).outcome s p = (.ok m, q)) :
    ∃ doc m₁ r, doc = moduleMember (path.member "__doc__") name (.ofText? o.doc?)
        (throw .missingAttribute) (throw .missingAttribute) ∧
      (addModuleMembers { name := path.last } (inNameOrder (withDoc members doc))).outcome s
        { pushed path p with module? := some o, imports := [], modulePath := path } = (.ok m₁, r) ∧
      m = withImports m₁ r.imports ∧ q.found = r.found := by
  obtain ⟨doc, m₁, m₂, r₁, r₂, hdoc, added, taken, rfl, rfl⟩ := moduleBody_parts h
  rw [outcome_withTypeVariables ha] at taken
  cases taken
  exact ⟨doc, m₁, r₁, hdoc, added, rfl, rfl⟩

theorem moduleBody_inScope (hmembers : ∀ m ∈ members, Yields s path p.class? m.2
      fun known m => m.InScope s.world (some (unionName path)) known p.class? o)
    (h : (moduleBody path o name members).outcome s p = (.ok m, q)) :
    m.InScope s.world (some (unionName path)) (KnownTo s.world p q o m) p.class? o := by
  obtain ⟨doc, m₁, r, rfl, added, rfl, found⟩ := moduleBody_ok ha h
  have ordered := forall_ordered
    (P := fun x => Yields s path p.class? x
      fun known (m : ModuleMember) => m.InScope s.world (some (unionName path)) known p.class? o)
    (yields_moduleMember ha (path.member "__doc__") name (.ofText? o.doc?)
      (.throw .missingAttribute) (.plain (.throw .missingAttribute))) hmembers
  have all := yields_addModuleMembers { name := path.last } _ ordered
  obtain ⟨grows, yields⟩ := all (by rfl) (by rfl) added
  have module? : r.module? = some o := grows.module?
  refine .withImports (yields _ (fun class? f hf => ?_) ⟨forall_mem_nil _, trivial⟩) _
  rw [KnownTo, found]
  rcases hf with h | h | h | h | ⟨i, hi, h⟩ | h
  · exact .inl h
  · exact .inr (.inl h)
  · exact .inr (.inr (.inl h))
  · exact .inr (.inr (.inr (.inl (module? ▸ h))))
  · exact .inr (.inr (.inr (.inr (.inl ⟨i, Module.mem_imports_withImports.mpr (.inr (.inr hi)), h⟩))))
  · exact .inr (.inr (.inr (.inr (.inr h))))

theorem descent_scopes
    (hs : s.world.has Builtins.asModule "str" = true) (n : Nat) : (descent n).Scopes s path := by
  induction n with
  | zero => exact fun _ _ _ => .throw _
  | succ n ih => exact yields_classWith ha hs ih

theorem moduleWith_inScope (hs : s.world.has Builtins.asModule "str" = true) {n : Nat}
    (h : (moduleWith (descent n) path o).outcome s p = (.ok m, q)) :
    m.InScope s.world (some (unionName path)) (KnownTo s.world p q o m) p.class? o := by
  cases o with
  | moduleDef name doc ms =>
    simp only [moduleWith] at h
    refine moduleBody_inScope ha ?_ h
    exact yields_moduleMembersWith ha hs (descent_scopes ha hs n) (composed_descent n) path name _ ms
      (Subset.refl ms)
  | _ =>
    simp only [moduleWith] at h
    cases h

end

/-- Every name that the stub of a module uses is known in it or reported, apart from the names of
types with bars between them. Only these are left out: all names in a hint whose text has no such
types are known. -/
theorem names_known_without_bars (described : List Object) {options : Options}
    (ha : options.arrays = .asWritten) :
    (∀ ⦃path o p q m⦄, (moduleOf path o).outcome ⟨options, .ofModules described⟩ p = (.ok m, q) →
      m.InScope (.ofModules described) (some (unionName path))
        (KnownTo (.ofModules described) p q o m) p.class? o) ∧
    ∀ ⦃text hint p q⦄, (HintSyntax.ofText text).hasBars = false →
      (hintOfText text).outcome ⟨options, .ofModules described⟩ p = (.ok hint, q) →
      ∀ f ∈ hint.firsts none, Scoped (.ofModules described) p q f := by
  constructor
  · intro path o p q m h
    simp only [moduleOf, outcome_bind, outcome_world] at h
    exact moduleWith_inScope ha (World.has_str (Nat.le_add_left 2 _)) h
  · intro text hint p q bars h f hf
    exact (scopes_hintOfSyntax ha [] _ (.inr ⟨rfl, bars⟩)).known rfl h hf

def hinting (text : String) : Object := .moduleDef "m" none [("f", .routine .function
  { name? := some "f", qualified? := some "f", module? := some "m" }
  (some { parameters := [{ name := "x", hint := some (.str text) }] }))]

def hintingModules (text : String) : List Object :=
  [hinting text, .moduleDef "other" none [("A", .classDef
    { name? := some "A", qualified? := some "A", module? := some "other" } (.builtin "type") [] [])]]

def inspectHinting (text : String) : Except Failure Module × Progress :=
  (moduleOf ⟨["m"]⟩ (hinting text)).outcome ⟨{}, .ofModules (hintingModules text)⟩ {}

/-- The names of a union that is written without bars are known by the imports of the stub. -/
theorem union_names_known : ∃ m q, inspectHinting "Union[other.A, None]" = (.ok m, q) ∧
    m.imports = [⟨none, ⟨["other"]⟩⟩, ⟨none, ⟨["typing"]⟩⟩, futureImport] ∧
    m.InScope (.ofModules (hintingModules "Union[other.A, None]")) (some (unionName ⟨["m"]⟩))
      (KnownTo (.ofModules (hintingModules "Union[other.A, None]")) {} q
        (hinting "Union[other.A, None]") m) none (hinting "Union[other.A, None]") := by
  have imports : (inspectHinting "Union[other.A, None]").1.toOption.map (·.imports) =
      some [⟨none, ⟨["other"]⟩⟩, ⟨none, ⟨["typing"]⟩⟩, futureImport] := by
    rw [inspectHinting, World.ofModules_eq]
    decide +kernel
  rcases h : inspectHinting "Union[other.A, None]" with ⟨e | m, q⟩
  · rw [h] at imports
    cases imports
  · have known := (names_known_without_bars (hintingModules "Union[other.A, None]") rfl).1 h
    rw [h] at imports
    exact ⟨m, q, rfl, Option.some.inj imports, known⟩

/-- A name with a bar after it is left without an import and without a report. -/
theorem barred_name_unknown : ∃ m q, inspectHinting "other.A | None" = (.ok m, q) ∧
    "other" ∈ m.ownFirsts none ∧
    ¬ KnownTo (.ofModules (hintingModules "other.A | None")) {} q (hinting "other.A | None") m none
      "other" := by
  have result : (inspectHinting "other.A | None").1.toOption.map
        (fun m => (m.imports, m.ownFirsts none)) =
      some ([⟨none, ⟨["typing"]⟩⟩, futureImport], ["typing", "other", "None"]) := by
    rw [inspectHinting, World.ofModules_eq]
    decide +kernel
  have found : (inspectHinting "other.A | None").2.found.length = 0 := by
    rw [inspectHinting, World.ofModules_eq]
    decide +kernel
  have builtin : (World.ofModules (hintingModules "other.A | None")).has Builtins.asModule "other" =
    false := by decide +kernel
  have own : (World.ofModules (hintingModules "other.A | None")).has (hinting "other.A | None")
    "other" = false := by decide
  rcases h : inspectHinting "other.A | None" with ⟨e | m, q⟩
  · rw [h] at result
    cases result
  · rw [h] at result found
    obtain ⟨imports, firsts⟩ := Prod.mk.inj (Option.some.inj result)
    refine ⟨m, q, rfl, firsts ▸ .tail _ (.head _), ?_⟩
    have found : q.found = [] := List.length_eq_zero_iff.mp found
    simp [KnownTo, Known, builtin, own, imports, found, Import.bound, futureImport,
      QualifiedName.head]

end Inspection

end TypeStubs
