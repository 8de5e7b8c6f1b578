import TypeStubs.Proofs.ScopedModules
import TypeStubs.Proofs.ShownMembers

/-! No member of a module is lost or bound twice. What the module binds besides are imports of other
modules, the list of public names and the import from the future. -/

namespace TypeStubs

open List

variable {α : Type} {m : Module}

def ModuleMember.elements : ModuleMember → List Statement
  | .nothing => []
  | .doc _ => []
  | .imported i => [.importing i]
  | .alias a => [.alias a]
  | .nested c => [.classDef c]
  | .functions fs => fs.map .function
  | .subModule m => [.subModule m.name]
  | .attr a => [.attr a]

def ModuleMember.imports : ModuleMember → List Import
  | .imported i => [i]
  | _ => []

def ModuleMember.attributes : ModuleMember → List Attribute
  | .attr a => [a]
  | _ => []

namespace Module

variable {member : ModuleMember}

theorem mem_imports_add {i : Import} :
    i ∈ (m.add member).imports ↔ i ∈ m.imports ∨ i ∈ member.imports := by
  cases member with
  | imported j => rw [add, Import.mem_insert, or_comm, ModuleMember.imports, mem_singleton]
  | _ => exact (or_iff_left not_mem_nil).symm

theorem elements_add (new : ∀ i ∈ member.imports, i ∉ m.imports) :
    (m.add member).elements.Perm (m.elements ++ member.elements) := by
  classical
  rw [perm_iff_count]
  intro st
  cases member with
  | nothing | doc text => simp only [add, elements, ModuleMember.elements, append_nil]
  | imported i =>
    have absent : i ∉ m.imports := new i mem_cons_self
    simp only [add, Import.insert, if_neg absent, elements, ModuleMember.elements, map_append,
      map_cons, map_nil, count_append]
    omega
  | «alias» a | nested c | functions fs | subModule n | attr a =>
    simp only [add, elements, ModuleMember.elements, map_append, map_cons, map_nil, count_append]
    omega

theorem elements_foldl_add {members : List (String × ModuleMember)}
    (nodup : (members.map Prod.fst).Nodup)
    (named : ∀ x ∈ members, ∀ i ∈ x.2.imports, i.name = some x.1)
    (hm : ∀ i ∈ m.imports, ∀ x ∈ members, i.name ≠ some x.1) :
    (members.foldl (fun m x => m.add x.2) m).elements.Perm
      (m.elements ++ members.flatMap fun x => x.2.elements) := by
  induction members generalizing m with
  | nil => simp
  | cons x members ih =>
    obtain ⟨fresh, nodup⟩ := nodup_cons.mp nodup
    obtain ⟨namedFirst, named⟩ := forall_mem_cons.mp named
    have new (i : Import) (hi : i ∈ x.2.imports) : i ∉ m.imports := fun old =>
      hm i old x mem_cons_self (namedFirst i hi)
    rw [foldl_cons, flatMap_cons, ← append_assoc]
    refine (ih nodup named fun i hi y hy => ?_).trans ((elements_add new).append_right _)
    rcases mem_imports_add.mp hi with old | mine
    · exact hm i old y (.tail _ hy)
    · rw [namedFirst i mine]
      exact fun same => fresh (Option.some.inj same ▸ mem_map_of_mem hy)

theorem attributes_foldl_add (members : List (String × ModuleMember)) (m : Module) :
    (members.foldl (fun m x => m.add x.2) m).attributes =
      m.attributes ++ members.flatMap fun x => x.2.attributes := by
  induction members generalizing m with
  | nil => simp
  | cons x members ih =>
    have first : (m.add x.2).attributes = m.attributes ++ x.2.attributes := by
      cases x.2 with
      | attr a => rfl
      | _ => exact (append_nil _).symm
    rw [foldl_cons, ih, first, flatMap_cons, append_assoc]

theorem classes_foldl_add (members : List (String × ModuleMember)) (m : Module) :
    (members.foldl (fun m x => m.add x.2) m).classes =
      m.classes ++ members.flatMap fun x => x.2.classes := by
  induction members generalizing m with
  | nil => simp
  | cons x members ih => rw [foldl_cons, ih, classes_add, flatMap_cons, append_assoc]

end Module

theorem filter_flatMap_keyed {β : Type} (f : α → List β) (key? : β → Option String)
    {members : List (String × α)} (nodup : (members.map Prod.fst).Nodup)
    (keyed : ∀ x ∈ members, ∀ b ∈ f x.2, key? b = some x.1) {x : String × α} (hx : x ∈ members) :
    (members.flatMap fun x => f x.2).filter (fun b => key? b = some x.1) = f x.2 := by
  induction members with
  | nil => cases hx
  | cons y members ih =>
    obtain ⟨fresh, nodup⟩ := nodup_cons.mp nodup
    obtain ⟨keyedFirst, keyedRest⟩ := forall_mem_cons.mp keyed
    rw [flatMap_cons, filter_append]
    cases hx with
    | head =>
      have mine : (f x.2).filter (fun b => key? b = some x.1) = f x.2 :=
        filter_eq_self.mpr fun b hb => decide_eq_true (keyedFirst b hb)
      have others : (members.flatMap fun x => f x.2).filter (fun b => key? b = some x.1) = [] := by
        refine filter_eq_nil_iff.mpr fun b hb same => ?_
        obtain ⟨y, hy, hb⟩ := mem_flatMap.mp hb
        have names := (keyedRest y hy b hb).symm.trans (of_decide_eq_true same)
        exact fresh (Option.some.inj names ▸ mem_map_of_mem hy)
      rw [mine, others, append_nil]
    | tail _ hx =>
      have others : (f y.2).filter (fun b => key? b = some x.1) = [] := by
        refine filter_eq_nil_iff.mpr fun b hb same => ?_
        have names := (keyedFirst b hb).symm.trans (of_decide_eq_true same)
        exact fresh (Option.some.inj names ▸ mem_map_of_mem hx)
      rw [others, nil_append, ih nodup keyedRest hx]

theorem Import.union_eq_append (first second : List Import) :
    ∃ more, union first second = first ++ more ∧ ∀ i ∈ more, i ∈ second ∧ i ∉ first := by
  unfold union
  induction second generalizing first with
  | nil => exact ⟨[], (append_nil first).symm, forall_mem_nil _⟩
  | cons i second ih =>
    obtain ⟨more, joined, hmore⟩ := ih (i.insert first)
    rw [foldl_cons, joined]
    by_cases known : i ∈ first
    · rw [insert, if_pos known]
      exact ⟨more, rfl, fun j hj => ⟨.tail _ (hmore j hj).1,
        fun old => (hmore j hj).2 (mem_insert.mpr (.inr old))⟩⟩
    · rw [insert, if_neg known, append_assoc]
      refine ⟨i :: more, rfl, forall_mem_cons.mpr ⟨⟨.head _, known⟩, fun j hj => ?_⟩⟩
      exact ⟨.tail _ (hmore j hj).1, fun old => (hmore j hj).2 (mem_insert.mpr (.inr old))⟩

theorem Import.insert_eq_append (i : Import) (imports : List Import) :
    ∃ new, i.insert imports = imports ++ new ∧ new.Sublist [i] := by
  unfold insert
  split
  · exact ⟨[], (append_nil imports).symm, nil_sublist _⟩
  · exact ⟨[i], rfl, .refl _⟩

namespace Inspection

variable {steps : List (String × Inspection ModuleMember)}

theorem withPublicNames_eq (m : Module) :
    ∃ listed, withPublicNames m = { m with attributes := m.attributes ++ listed } ∧
      listed.Sublist [⟨"__all__", some (textsValue (publicNames m)), none⟩] ∧
      (m.attributes.any (·.name = "__all__") = true → listed = []) := by
  unfold withPublicNames
  split
  · rename_i present
    have same : m = { m with attributes := m.attributes ++ [] } := by
      cases m
      simp only [append_nil]
    exact ⟨[], same, nil_sublist _, fun _ => rfl⟩
  · rename_i absent
    exact ⟨_, rfl, .refl _, fun present => (absent present).elim⟩

/-- A module gets the imports that were asked for, the list of its public names if it has none, and
the import from the future. -/
theorem withImports_eq (m : Module) (imports : List Import) :
    ∃ (more future : List Import) (listed : List Attribute) (names : Value),
      withImports m imports =
        { m with imports := m.imports ++ more ++ future, attributes := m.attributes ++ listed } ∧
      (∀ i ∈ more, i ∈ imports ∧ i ∉ m.imports) ∧ future.Sublist [futureImport] ∧
      listed.Sublist [⟨"__all__", some names, none⟩] ∧
      (m.attributes.any (·.name = "__all__") = true → listed = []) := by
  obtain ⟨more, joined, hmore⟩ := Import.union_eq_append m.imports imports
  obtain ⟨listed, withNames, hlisted, once⟩ :=
    withPublicNames_eq { m with imports := Import.union m.imports imports }
  obtain ⟨future, inserted, hfuture⟩ :=
    futureImport.insert_eq_append (Import.union m.imports imports)
  refine ⟨more, future, listed, _, ?_, hmore, hfuture, hlisted, once⟩
  rw [withImports, withNames]
  dsimp only
  rw [inserted, joined]

/-! Imports that are asked for. -/

/-- The import is of a module whose first part the module being inspected does not know. -/
def IsUnknown (w : World) (module? : Option Object) (i : Import) : Prop :=
  i.name = none ∧ ∀ o ∈ module?, w.has o i.origin.head = false

/-- All that was asked for in between are imports of modules that are not known. -/
structure AsksUnknown (w : World) (p q : Progress) : Prop where
  module? : q.module? = p.module?
  imports : ∀ i ∈ q.imports, i ∈ p.imports ∨ IsUnknown w p.module? i

theorem AsksUnknown.refl {w : World} (p : Progress) : AsksUnknown w p p := ⟨rfl, fun _ => .inl⟩

theorem keepsInside_asksUnknown (s : Setting) : KeepsInside s (AsksUnknown s.world) where
  refl := .refl
  trans h h' := by
    refine ⟨h'.module?.trans h.module?, fun i hi => ?_⟩
    rcases h'.imports i hi with hi | unknown
    · exact h.imports i hi
    · exact .inr (h.module? ▸ unknown)
  report problem p := by
    obtain ⟨hscope, -, -⟩ := report_frame problem s p
    have imports : ((report problem).outcome s p).2.imports = p.imports :=
      congrArg Scope.imports hscope
    exact ⟨congrArg Scope.module? hscope, fun i hi => .inl (imports ▸ hi)⟩
  addModule origin p unknown := by
    refine ⟨rfl, fun i hi => ?_⟩
    rcases Import.mem_insert.mp hi with rfl | hi
    · exact .inr ⟨rfl, unknown⟩
    · exact .inl hi
  addDimension _ _ := ⟨rfl, fun _ => .inl⟩
  inLayer h := ⟨h.module?, h.imports⟩
  inClass h := ⟨h.module?, h.imports⟩

def KeepsOutside (s : Setting) (path : QualifiedName) (x : Inspection Module) : Prop :=
  ∀ ⦃p q m⦄, x.outcome s p = (.ok m, q) →
    m.name = path.last ∧ q.module? = p.module? ∧ q.imports = p.imports

variable {s : Setting} {p q : Progress} {path : QualifiedName} {o : Object}

theorem ensures_withTypeVariables (m : Module) : Ensures s (withTypeVariables path m) fun m' =>
    m'.name = m.name ∧ m'.classes = m.classes ∧ m'.subModules = m.subModules := by
  refine .after fun _ => .ite (fun _ => .pure ⟨rfl, rfl, rfl⟩) fun _ => .after fun _ => ?_
  refine .after fun _ => .after fun _ => .ite (fun _ => .pure ⟨rfl, rfl, rfl⟩) fun _ => ?_
  exact .pure ⟨rfl, rfl, rfl⟩

theorem moduleBody_gathers {name : String} {members : List (String × Inspection ModuleMember)}
    (h : (moduleBody path o name members).outcome s p = (.ok m, q)) :
    ∃ m₁ p' q', (gather Module.add { name := path.last } (inNameOrder (withDoc members
        (moduleMember (path.member "__doc__") name (.ofText? o.doc?) (throw .missingAttribute)
          (throw .missingAttribute))))).outcome s p' = (.ok m₁, q') ∧
      m.name = m₁.name ∧ m.classes = m₁.classes ∧ m.subModules = m₁.subModules ∧
      q.module? = p.module? ∧ q.imports = p.imports := by
  obtain ⟨doc, m₁, m₂, r₁, r₂, rfl, added, taken, rfl, rfl⟩ := moduleBody_parts h
  rw [addModuleMembers_eq] at added
  obtain ⟨sameName, sameClasses, sameModules⟩ := ensures_withTypeVariables m₁ taken
  obtain ⟨more, future, listed, names, same, -⟩ := withImports_eq m₂ r₂.imports
  rw [same]
  exact ⟨m₁, _, r₁, added, sameName, sameClasses, sameModules, rfl, rfl⟩

theorem keepsOutside_moduleBody {name : String}
    {members : List (String × Inspection ModuleMember)} :
    KeepsOutside s path (moduleBody path o name members) := by
  intro p q m h
  obtain ⟨m₁, p', q', added, sameName, -, -, outside⟩ := moduleBody_gathers h
  have named : m₁.name = path.last := ensures_gather (I := fun m => m.name = path.last)
    (P := fun _ => True) (fun m member hm _ => (m.name_add member).trans hm)
    (fun _ _ _ _ _ _ => trivial) rfl added
  exact ⟨sameName.trans named, outside⟩

theorem keepsOutside_throw (e : Failure) : KeepsOutside s path (throw e) := by
  intro p q m h
  cases h

theorem keepsOutside_moduleWith (d : Descent) (path : QualifiedName) (o : Object) :
    KeepsOutside s path (moduleWith d path o) := by
  cases o with
  | moduleDef name doc ms =>
    simp only [moduleWith]
    exact keepsOutside_moduleBody
  | _ =>
    simp only [moduleWith]
    exact keepsOutside_throw _

theorem keepsOutside_descent (n : Nat) (path : QualifiedName) (o : Object) :
    KeepsOutside s path ((descent n).moduleAt path o) := by
  cases n with
  | zero => exact keepsOutside_throw _
  | succ n => exact keepsOutside_moduleWith _ path o

/-! Members. -/

/-- A name is bound by one statement, or by functions and by nothing else. -/
inductive BoundOnce (name : String) : List Statement → Prop
  | imported (origin : QualifiedName) : BoundOnce name [.importing ⟨some name, origin⟩]
  | alias {a : Alias} : a.name = name → BoundOnce name [.alias a]
  | nested {c : Class} : c.name = name → BoundOnce name [.classDef c]
  | subModule : BoundOnce name [.subModule name]
  | attr {a : Attribute} : a.name = name → BoundOnce name [.attr a]
  | functions {fs : List Function} : fs ≠ [] → (∀ f ∈ fs, f.name = name) →
      BoundOnce name (fs.map .function)

theorem BoundOnce.bound {name : String} {sts : List Statement} (h : BoundOnce name sts) :
    ∀ st ∈ sts, st.bound? = some name := by
  cases h with
  | imported | subModule => exact forall_mem_singleton.mpr rfl
  | «alias» h | nested h | attr h => exact forall_mem_singleton.mpr (congrArg some h)
  | functions _ h => exact forall_mem_map.mpr fun f hf => congrArg some (h f hf)

/-- The reasons why a module binds nothing to the name of a member: a problem that was reported, or a
rule that leaves the member out. -/
inductive IsLeftOut (path : QualifiedName) (name : String) (o : Object) (problems : List Problem) :
    Prop
  | misnamed : isIdentifier name = false → .identifier name path ∈ problems →
      IsLeftOut path name o problems
  | unnamed : OriginReported (path.member name) o problems → IsLeftOut path name o problems
  | doc : name = "__doc__" → IsLeftOut path name o problems
  | hidden : o.isRoutine = false → o.isClass = false → o.isModule = false →
      name ∈ hiddenAttributes → IsLeftOut path name o problems
  | typing : Typing.binds name o = true → IsLeftOut path name o problems
  | future : o.moduleName? = some "__future__" → IsLeftOut path name o problems

theorem IsLeftOut.mono {name : String} {problems problems' : List Problem}
    (h : IsLeftOut path name o problems) (hp : problems ⊆ problems') :
    IsLeftOut path name o problems' := by
  cases h with
  | misnamed hi hmem => exact .misnamed hi (hp hmem)
  | unnamed h => exact .unnamed (h.mono hp)
  | doc h => exact .doc h
  | hidden hr hc hm h => exact .hidden hr hc hm h
  | typing h => exact .typing h
  | future h => exact .future h

/-- What a member of a module brings, with the problems that were found. -/
structure Brought (path : QualifiedName) (x : String × Object) (problems : List Problem)
    (m : ModuleMember) : Prop where
  binds : BoundOnce x.1 m.elements ∨ m.elements = [] ∧ IsLeftOut path x.1 x.2 problems
  named : ∀ i ∈ m.imports, i.name = some x.1
  printable : ∀ c ∈ m.classes, c.Printable

/-- What a member of a module brings and asks for on the way from one state to another. -/
structure Brings (s : Setting) (path : QualifiedName) (x : String × Object) (p q : Progress)
    (m : ModuleMember) : Prop extends Brought path x (newProblems p q) m where
  module? : q.module? = p.module?
  imports : ∀ i ∈ q.imports, i ∈ p.imports ∨ IsUnknown s.world p.module? i ∨ i ∈ m.imports

section

variable {name ownerName : String} {nestedClass : Inspection Class} {nestedModule : Inspection Module}
  {m : ModuleMember} (hc : Ensures s nestedClass (IsClassAt (path.member name)))
include hc

theorem ModuleStep.binds (hm : KeepsOutside s (path.member name) nestedModule)
    (h : ModuleStep s (path.member name) ownerName o nestedClass nestedModule p q m) :
    BoundOnce name m.elements ∨ m.elements = [] ∧ IsLeftOut path name o (newProblems p q) := by
  have last := path.last_member name
  cases h with
  | misnamed invalid reported =>
    rw [last] at invalid reported
    rw [path.parent_member] at reported
    exact .inr ⟨rfl, .misnamed invalid (mem_newProblems_report reported)⟩
  | imported hi =>
    rcases importOf_ok hi with ⟨r, origin, rfl, -, -⟩ | ⟨rfl, -, future | reported⟩
    · rw [last]
      exact .inl (.imported origin)
    · exact .inr ⟨rfl, .future future⟩
    · exact .inr ⟨rfl, .unnamed reported⟩
  | «alias» ha =>
    rcases aliasOf_ok ha with ⟨a, rfl, named⟩ | ⟨rfl, future | reported⟩
    · exact .inl (.alias (named.trans last))
    · exact .inr ⟨rfl, .future future⟩
    · exact .inr ⟨rfl, .unnamed reported⟩
  | functions hf =>
    obtain ⟨nonempty, named⟩ := ensures_functionsOf _ o hf
    exact .inl (.functions nonempty fun f hf => (named f hf).trans last)
  | nested _ _ _ hn => exact .inl (.nested ((hc hn).1.trans last))
  | @subModule n _ _ _ hn =>
    have named := (hm hn).1.trans last
    exact .inl (named ▸ .subModule)
  | doc hdoc _ =>
    have none : (((docOf o).map ModuleMember.doc).getD .nothing).elements = [] := by
      cases docOf o <;> rfl
    exact .inr ⟨none, .doc (last ▸ hdoc)⟩
  | attr hr hc hm ha =>
    rcases attributeOf_ok ha with ⟨a, rfl, named⟩ | ⟨rfl, typing | hidden⟩
    · exact .inl (.attr (named.trans last))
    · exact .inr ⟨rfl, .typing (last ▸ typing)⟩
    · exact .inr ⟨rfl, .hidden hr hc hm (last ▸ hidden)⟩

theorem ModuleStep.parts
    (h : ModuleStep s (path.member name) ownerName o nestedClass nestedModule p q m) :
    (∀ i ∈ m.imports, i.name = some name) ∧ ∀ c ∈ m.classes, c.Printable := by
  have last := path.last_member name
  cases h with
  | imported hi =>
    rcases importOf_ok hi with ⟨r, origin, rfl, -, -⟩ | ⟨rfl, -, -⟩
    · exact ⟨forall_mem_singleton.mpr (congrArg some last), forall_mem_nil _⟩
    · exact ⟨forall_mem_nil _, forall_mem_nil _⟩
  | nested _ _ _ hn => exact ⟨forall_mem_nil _, forall_mem_singleton.mpr (hc hn).2⟩
  | misnamed | functions | subModule => exact ⟨forall_mem_nil _, forall_mem_nil _⟩
  | @«alias» a? | @attr a? => cases a? <;> exact ⟨forall_mem_nil _, forall_mem_nil _⟩
  | doc => cases docOf o <;> exact ⟨forall_mem_nil _, forall_mem_nil _⟩

omit hc in
/-- A member of a module asks for imports of modules that are not known, and for itself if it is an
import. -/
theorem ModuleStep.asks (hc : Enclosed nestedClass) (hm : KeepsOutside s path nestedModule)
    (h : ModuleStep s path ownerName o nestedClass nestedModule p q m) :
    q.module? = p.module? ∧
      ∀ i ∈ q.imports, i ∈ p.imports ∨ IsUnknown s.world p.module? i ∨ i ∈ m.imports := by
  have enclosed {α : Type} {x : Inspection α} (hx : Enclosed x) {a : α} {q : Progress}
      {is : List Import} (h : x.outcome s p = (.ok a, q)) : q.module? = p.module? ∧
        ∀ i ∈ q.imports, i ∈ p.imports ∨ IsUnknown s.world p.module? i ∨ i ∈ is := by
    have asks := hx.keeps (keepsInside_asksUnknown s) h
    exact ⟨asks.module?, fun i hi => (asks.imports i hi).imp_right .inl⟩
  cases h with
  | misnamed _ h => exact enclosed (.plain (.report _)) h
  | «alias» h => exact enclosed (.plain (plain_aliasOf path o)) h
  | functions h => exact enclosed (.plain (plain_functionsOf path o)) h
  | attr _ _ _ h => exact enclosed (.plain (plain_attributeOf path o)) h
  | nested _ _ _ h => exact enclosed hc h
  | doc _ h =>
    subst h
    exact ⟨rfl, fun i hi => .inl hi⟩
  | subModule _ _ _ h =>
    obtain ⟨-, module?, imports⟩ := hm h
    exact ⟨module?, fun i hi => .inl (imports ▸ hi)⟩
  | imported h =>
    rcases importOf_ok h with ⟨r, origin, rfl, full, rfl⟩ | ⟨rfl, full, -⟩
    · have asks := (Plain.keeps (plain_fullName? path o) (keepsInside_asksUnknown s) p)
      rw [full] at asks
      refine ⟨asks.module?, fun i hi => ?_⟩
      rcases Import.mem_insert.mp hi with rfl | hi
      · exact .inr (.inr mem_cons_self)
      · exact (asks.imports i hi).imp_right .inl
    · exact enclosed (.plain (plain_fullName? path o)) full

theorem brings_moduleMember
    (enclosed : Enclosed nestedClass) (hm : KeepsOutside s (path.member name) nestedModule)
    (h : (moduleMember (path.member name) ownerName o nestedClass nestedModule).outcome s p =
      (.ok m, q)) : Brings s path (name, o) p q m := by
  have step := moduleMember_ok h
  obtain ⟨named, printable⟩ := step.parts hc
  obtain ⟨module?, imports⟩ := step.asks enclosed hm
  exact ⟨⟨step.binds hc hm, named, printable⟩, module?, imports⟩

end

/-! Runs over all members. -/

def moduleStep (d : Descent) (path : QualifiedName) (ownerName name : String) (o : Object) :
    Inspection ModuleMember := do
  let settled ← settle o
  moduleMember (path.member name) ownerName settled
    (if isReference o then d.classAt (path.member name) settled
      else classWith d (path.member name) o)
    (if isReference o then d.moduleAt (path.member name) settled
      else moduleWith d (path.member name) o)

theorem moduleMembersWith_eq (d : Descent) (path : QualifiedName) (ownerName : String)
    (ms : List (String × Object)) : moduleMembersWith d path ownerName ms =
      ms.map fun m => (m.1, moduleStep d path ownerName m.1 m.2) := by
  induction ms with
  | nil => rw [moduleMembersWith]; rfl
  | cons m ms ih => rw [moduleMembersWith, ih]; rfl

/-- What a module shows under its names: its members and its docstring. -/
def shownIn (w : World) (o : Object) : List (String × Object) :=
  withDoc (o.members.map fun m => (m.1, w.settle m.2)) (.ofText? o.doc?)

theorem nodup_withDoc {members : List (String × α)} {doc : α} (h : (members.map Prod.fst).Nodup) :
    ((withDoc members doc).map Prod.fst).Nodup := by
  unfold withDoc
  split
  · exact h
  · rename_i absent
    refine nodup_cons.mpr ⟨fun present => absent ?_, h⟩
    obtain ⟨x, hx, name⟩ := mem_map.mp present
    exact any_eq_true.mpr ⟨x, hx, decide_eq_true name⟩

theorem forall₂_withDoc {β : Type} {R : String × α → String × β → Prop}
    (keys : ∀ ⦃a b⦄, R a b → b.1 = a.1) {xs : List (String × α)} {ys : List (String × β)}
    (h : Forall₂ R xs ys) {a : α} {b : β} (hdoc : R ("__doc__", a) ("__doc__", b)) :
    Forall₂ R (withDoc xs a) (withDoc ys b) := by
  have same : xs.any (·.1 = "__doc__") = ys.any (·.1 = "__doc__") := by
    clear hdoc
    induction h with
    | nil => rfl
    | cons hab _ ih => rw [any_cons, any_cons, ih, keys hab]
  unfold withDoc
  rw [same]
  split
  · exact h
  · exact .cons hdoc h

/-- A step is the one for an object that a module shows under a name. -/
structure IsStepFor (s : Setting) (path : QualifiedName) (x : String × Object)
    (step : String × Inspection ModuleMember) : Prop where
  name : step.1 = x.1
  composed : Composed step.2
  brings {p q : Progress} {m : ModuleMember} : step.2.outcome s p = (.ok m, q) →
    Brings s path x p q m

theorem isStepFor_moduleStep (n : Nat) (path : QualifiedName) (ownerName name : String)
    (o : Object) : IsStepFor s path (name, s.world.settle o)
      (name, moduleStep (descent n) path ownerName name o) := by
  have enclosed (settled : Object) : Enclosed (if isReference o then
      (descent n).classAt (path.member name) settled
      else classWith (descent n) (path.member name) o) :=
    enclosed_ite ((composed_descent n).classAt _ _) (enclosed_classWith (composed_descent n) _ _)
  have outside (settled : Object) : KeepsOutside s (path.member name) (if isReference o then
      (descent n).moduleAt (path.member name) settled
      else moduleWith (descent n) (path.member name) o) := by
    split
    · exact keepsOutside_descent n _ _
    · exact keepsOutside_moduleWith _ _ _
  refine ⟨rfl, .bind (.plain (plain_settle o)) fun settled => ?_, fun h => ?_⟩
  · exact composed_moduleMember _ _ _ (enclosed settled) (composed_ite
      ((composed_descent n).moduleAt _ _) (composed_moduleWith (composed_descent n) _ _))
  · obtain ⟨settled, r, look, step⟩ := bind_ok_iff.mp h
    cases look
    refine brings_moduleMember (.ite (fun _ => ensures_descent n _ _) fun _ => ?_) (enclosed _)
      (outside _) step
    exact ensures_classWith (ensures_descent n) _ _

theorem isStepFor_all (n : Nat) (path : QualifiedName) (name : String) (doc : Option String)
    (ms : List (String × Object)) :
    Forall₂ (IsStepFor s path) (shownIn s.world (.moduleDef name doc ms))
      (withDoc (moduleMembersWith (descent n) path name ms)
        (moduleMember (path.member "__doc__") name (.ofText? (Object.moduleDef name doc ms).doc?)
          (throw .missingAttribute) (throw .missingAttribute))) := by
  refine forall₂_withDoc (fun _ _ h => h.name) ?_ ⟨rfl, ?_, fun h => ?_⟩
  · rw [moduleMembersWith_eq, forall₂_map_left_iff, forall₂_map_right_iff]
    exact forall₂_same.mpr fun m _ => isStepFor_moduleStep n path name m.1 m.2
  · exact composed_moduleMember _ _ _ (.plain (.throw _)) (.plain (.throw _))
  · exact brings_moduleMember (.throw _) (.plain (.throw _)) (keepsOutside_throw _) h

/-- What the members of a module brought, and the imports that they asked for, in the order of a
run. -/
structure Gathered (s : Setting) (path : QualifiedName) (shown : List (String × Object))
    (module? : Option Object) (problems : List Problem) (members : List (String × ModuleMember))
    (m : Module) (imports : List Import) : Prop where
  result : m = members.foldl (fun m x => m.add x.2) { name := path.last }
  nodup : (members.map Prod.fst).Nodup
  complete : ∀ y ∈ shown, ∃ x ∈ members, x.1 = y.1 ∧ Brought path y problems x.2
  sound : ∀ x ∈ members, ∃ y ∈ shown, x.1 = y.1 ∧ Brought path y problems x.2
  pending : ∀ i ∈ imports, IsUnknown s.world module? i ∨ i ∈ m.imports

theorem Brought.mono {x : String × Object} {problems problems' : List Problem} {m : ModuleMember}
    (h : Brought path x problems m) (hp : problems ⊆ problems') : Brought path x problems' m :=
  ⟨h.binds.imp_right fun ⟨empty, out⟩ => ⟨empty, out.mono hp⟩, h.named, h.printable⟩

/-- What the members ask for are imports of modules that are not known, and imports that they are
themselves. -/
theorem gather_pending (sound : ∀ step ∈ steps, ∃ x, IsStepFor s path x step) (hp : p.imports = [])
    (h : (gather Module.add { name := path.last } steps).outcome s p = (.ok m, q)) :
    ∀ i ∈ q.imports, IsUnknown s.world p.module? i ∨ i ∈ m.imports := by
  have pending : q.module? = p.module? ∧
      ∀ i ∈ q.imports, IsUnknown s.world p.module? i ∨ i ∈ m.imports := by
    refine gather_keeps (I := fun m (r : Progress) => r.module? = p.module? ∧
      ∀ i ∈ r.imports, IsUnknown s.world p.module? i ∨ i ∈ m.imports) ?_ ?_ h
    · intro step hstep m r r' member ⟨same, before⟩ outcome
      obtain ⟨x, hx⟩ := sound step hstep
      have brings := hx.brings outcome
      refine ⟨brings.module?.trans same, fun i hi => ?_⟩
      rcases brings.imports i hi with old | unknown | mine
      · exact (before i old).imp_right fun hi => Module.mem_imports_add.mpr (.inl hi)
      · exact .inl (same ▸ unknown)
      · exact .inr (Module.mem_imports_add.mpr (.inr mine))
    · exact ⟨rfl, by simp [hp]⟩
  exact pending.2

theorem gather_gathers {shown : List (String × Object)}
    (each : Forall₂ (IsStepFor s path) shown steps) (nodup : (shown.map Prod.fst).Nodup)
    (hp : p.imports = [])
    (h : (gather Module.add { name := path.last } (inNameOrder steps)).outcome s p = (.ok m, q)) :
    ∃ members, Gathered s path shown p.module? (newProblems p q) members m q.imports := by
  have ordered : (inNameOrder steps).Perm steps := sortBy_perm _ steps
  have backward : Forall₂ (fun step x => IsStepFor s path x step) steps shown := each.flip
  have sound (step) (hstep : step ∈ inNameOrder steps) : ∃ x ∈ shown, IsStepFor s path x step :=
    Forall₂.exists_of_mem backward (ordered.mem_iff.mp hstep)
  have pending := gather_pending (fun step hstep => (sound step hstep).imp fun _ hx => hx.2) hp h
  obtain ⟨members, result, run⟩ := gather_ok
    (fun step hstep => (sound step hstep).elim fun _ hx => hx.2.composed) h
  have keys : (members.map Prod.fst).Perm (shown.map Prod.fst) := by
    rw [Forall₂.map_eq_map each fun _ _ h => h.name.symm,
      ← Forall₂.map_eq_map run fun _ _ h => h.1.symm]
    exact ordered.map _
  have brought {step} {x : String × Object} {y : String × ModuleMember} (hx : IsStepFor s path x step)
      (hy : y.1 = step.1 ∧ TakesPlace s p q step.2 y.2) :
      y.1 = x.1 ∧ Brought path x (newProblems p q) y.2 := by
    obtain ⟨p', q', before, outcome, after⟩ := hy.2
    refine ⟨hy.1.trans hx.name, (hx.brings outcome).toBrought.mono ?_⟩
    exact newProblems_mono before.found after.found
  refine ⟨members, result, keys.symm.nodup nodup, fun x hx => ?_, fun y hy => ?_, pending⟩
  · obtain ⟨step, hstep, follows⟩ := Forall₂.exists_of_mem each hx
    obtain ⟨y, hy, place⟩ := Forall₂.exists_of_mem run (ordered.mem_iff.mpr hstep)
    exact ⟨y, hy, brought follows place⟩
  · obtain ⟨step, hstep, place⟩ := Forall₂.exists_of_mem run.flip hy
    obtain ⟨x, hx, follows⟩ := sound step hstep
    exact ⟨x, hx, brought follows place⟩

/-- The stub of a module binds each member once or leaves it out for a reason. What else it binds are
imports of modules whose names it does not have, apart from what is added in the end. -/
structure BindsMembers (s : Setting) (p q : Progress) (path : QualifiedName) (o : Object) (m : Module)
    (own added : List Statement) : Prop where
  elements : m.elements.Perm (own ++ added)
  added : ∃ names, added.Sublist [.importing futureImport, .attr ⟨"__all__", some names, none⟩]
  written (printer : Printer) : ∃ lines, printer.moduleLines m = .ok lines ∧
    printer.Writes m.statements lines
  members : ∀ x ∈ shownIn s.world o, s.world.has o x.1 = true →
    BoundOnce x.1 (own.filter (·.bound? = some x.1)) ∨
      own.filter (·.bound? = some x.1) = [] ∧ IsLeftOut path x.1 x.2 (newProblems p q)
  undescribed {name : String} : s.world.has o name = true →
    name ∉ (shownIn s.world o).map Prod.fst → own.filter (·.bound? = some name) = []
  others : ∀ st ∈ own, (∃ x ∈ shownIn s.world o, st.bound? = some x.1) ∨
    ∃ origin, st = .importing ⟨none, origin⟩ ∧ s.world.has o origin.head = false

section

variable {shown : List (String × Object)} {module? : Option Object} {problems : List Problem}
  {members : List (String × ModuleMember)} {m : Module} {imports : List Import}

section

variable (h : Gathered s path shown module? problems members m imports)
include h

theorem Gathered.bound : ∀ x ∈ members, ∀ st ∈ x.2.elements, st.bound? = some x.1 := by
  intro x hx st hst
  obtain ⟨y, -, name, brought⟩ := h.sound x hx
  rcases brought.binds with once | ⟨empty, -⟩
  · exact name ▸ once.bound st hst
  · rw [empty] at hst
    cases hst

theorem Gathered.elements : m.elements.Perm (members.flatMap fun x => x.2.elements) := by
  rw [h.result]
  refine Module.elements_foldl_add h.nodup (fun x hx i hi => ?_) (forall_mem_nil _)
  obtain ⟨y, -, name, brought⟩ := h.sound x hx
  exact name ▸ brought.named i hi

theorem Gathered.printable : ∀ c ∈ m.classes, c.Printable := by
  intro c hc
  rw [h.result, Module.classes_foldl_add, nil_append, mem_flatMap] at hc
  obtain ⟨x, hx, hc⟩ := hc
  obtain ⟨y, -, -, brought⟩ := h.sound x hx
  exact brought.printable c hc

theorem Gathered.attributes
    (name : String) : (m.attributes.filter (·.name == name)).length ≤ 1 := by
  have keyed : ∀ x ∈ members, ∀ a ∈ x.2.attributes, some a.name = some x.1 := by
    intro x hx a ha
    have bound := h.bound x hx (.attr a)
    cases hm : x.2 with
    | attr b =>
      rw [hm] at ha bound
      cases mem_singleton.mp ha
      exact bound mem_cons_self
    | _ =>
      rw [hm] at ha
      cases ha
  rw [h.result, Module.attributes_foldl_add, nil_append]
  by_cases present : ∃ x ∈ members, x.1 = name
  · obtain ⟨x, hx, rfl⟩ := present
    have mine := filter_flatMap_keyed ModuleMember.attributes (some ·.name) h.nodup keyed hx
    simp only [Option.some.injEq] at mine
    rw [show (fun a : Attribute => a.name == x.1) = fun a => decide (a.name = x.1) from rfl, mine]
    cases x.2 <;> simp [ModuleMember.attributes]
  · have none : (members.flatMap fun x => x.2.attributes).filter (·.name == name) = [] := by
      refine filter_eq_nil_iff.mpr fun a ha same => present ?_
      obtain ⟨x, hx, ha⟩ := mem_flatMap.mp ha
      exact ⟨x, hx, (Option.some.inj (keyed x hx a ha)).symm.trans (eq_of_beq same)⟩
    rw [none]
    exact Nat.zero_le 1

end

/-- With the imports that were asked for, the list of public names and the import from the future, a
module still binds each member once. -/
theorem Gathered.binds (h : Gathered s path (shownIn s.world o) (some o)
      (newProblems p q) members m imports) :
    ∃ own added, BindsMembers s p q path o (withImports m imports) own added := by
  obtain ⟨more, future, listed, names, result, unknown, hfuture, hlisted, once⟩ :=
    withImports_eq m imports
  have plain (i : Import) (hi : i ∈ more) : IsUnknown s.world (some o) i :=
    (h.pending i (unknown i hi).1).resolve_right (unknown i hi).2
  have others : ∀ st ∈ members.flatMap (fun x => x.2.elements) ++ more.map .importing,
      (∃ x ∈ shownIn s.world o, st.bound? = some x.1) ∨
        ∃ origin, st = .importing ⟨none, origin⟩ ∧ s.world.has o origin.head = false := by
    intro st hst
    rcases mem_append.mp hst with hst | hst
    · obtain ⟨x, hx, hst⟩ := mem_flatMap.mp hst
      obtain ⟨y, hy, name, -⟩ := h.sound x hx
      exact .inl ⟨y, hy, name ▸ h.bound x hx st hst⟩
    · obtain ⟨⟨name, origin⟩, hi, rfl⟩ := mem_map.mp hst
      obtain ⟨rfl, lacks⟩ := plain _ hi
      exact .inr ⟨origin, rfl, lacks o rfl⟩
  refine ⟨members.flatMap (fun x => x.2.elements) ++ more.map .importing,
    future.map .importing ++ listed.map .attr, ?_, ⟨names, ?_⟩, fun printer => ?_, ?_, ?_, others⟩
  · refine .trans ?_ ((h.elements.append_right (more.map .importing)).append_right _)
    classical
    rw [result, perm_iff_count]
    intro st
    simp only [Module.elements, map_append, count_append]
    omega
  · exact (hfuture.map Statement.importing).append (hlisted.map Statement.attr)
  · have printable : ∀ c ∈ (withImports m imports).classes, c.Printable := by
      rw [result]
      exact h.printable
    obtain ⟨lines, hlines⟩ := Printer.exists_moduleLines (p := printer) printable
    refine ⟨lines, hlines, Printer.moduleLines_ok ?_ hlines⟩
    have single := h.attributes "__all__"
    have filtered : (listed.filter (·.name == "__all__")).length ≤ 1 :=
      Nat.le_trans (length_filter_le ..) hlisted.length_le
    rw [result, filter_append, length_append]
    by_cases present : m.attributes.any (·.name = "__all__") = true
    · rw [once present]
      exact single
    · have absent : m.attributes.filter (·.name == "__all__") = [] := by
        refine filter_eq_nil_iff.mpr fun a ha same => present ?_
        exact any_eq_true.mpr ⟨a, ha, same⟩
      rw [absent, length_nil, Nat.zero_add]
      exact filtered
  · intro x hx has
    obtain ⟨y, hy, name, brought⟩ := h.complete x hx
    have others : (more.map Statement.importing).filter (·.bound? = some x.1) = [] := by
      refine filter_eq_nil_iff.mpr fun st hst same => ?_
      obtain ⟨⟨name, origin⟩, hi, rfl⟩ := mem_map.mp hst
      obtain ⟨rfl, lacks⟩ := plain _ hi
      have head : origin.head = x.1 := Option.some.inj (of_decide_eq_true same)
      rw [← head, lacks o rfl] at has
      cases has
    rw [filter_append, others, append_nil, ← name,
      filter_flatMap_keyed ModuleMember.elements Statement.bound? h.nodup h.bound hy, name]
    exact brought.binds
  · intro name has absent
    refine filter_eq_nil_iff.mpr fun st hst same => ?_
    have bound := of_decide_eq_true same
    rcases others st hst with ⟨x, hx, name'⟩ | ⟨origin, rfl, lacks⟩
    · exact absent (Option.some.inj (name'.symm.trans bound) ▸ mem_map_of_mem hx)
    · have head : origin.head = name := Option.some.inj bound
      rw [← head, lacks] at has
      cases has

end

/-- No member of a module is lost or bound twice. -/
theorem moduleOf_binds_members (ha : s.options.arrays = .asWritten) {name : String}
    {doc : Option String} {ms : List (String × Object)} (nodup : (ms.map Prod.fst).Nodup)
    {m : Module} (h : (moduleOf path (.moduleDef name doc ms)).outcome s p = (.ok m, q)) :
    ∃ own added, BindsMembers s p q path (.moduleDef name doc ms) m own added := by
  obtain ⟨w, p', look, inside⟩ := bind_ok_iff.mp h
  cases look
  simp only [moduleWith] at inside
  obtain ⟨docStep, m₁, r, rfl, added, rfl, found⟩ := moduleBody_ok ha inside
  rw [addModuleMembers_eq] at added
  have distinct : ((shownIn s.world (.moduleDef name doc ms)).map Prod.fst).Nodup := by
    refine nodup_withDoc ?_
    rw [map_map]
    exact nodup
  obtain ⟨members, gathered⟩ := gather_gathers (isStepFor_all _ path name doc ms) distinct rfl added
  have problems : newProblems p q = newProblems (pushed path p) r := by
    rw [newProblems, newProblems, found]
    rfl
  exact Gathered.binds (problems ▸ gathered)

/-- A module with a docstring, a class, an alias of it, a class of another module, a function that
takes one, a value, and a value whose name is no identifier. -/
def assorted : Object := .moduleDef "m" (some "Assorted.")
  [("A", .classDef { name? := some "A", qualified? := some "A", module? := some "m" }
      (.builtin "type") [] []),
    ("B", .ref ⟨["m", "A"]⟩),
    ("C", .ref ⟨["other", "C"]⟩),
    ("f", .routine .function { name? := some "f", qualified? := some "f", module? := some "m" }
      (some { parameters := [{ name := "x", hint := some (.ref ⟨["other", "C"]⟩) }] })),
    ("n", .int 1),
    ("n+1", .int 2)]

def assortedWorld : Setting := ⟨{}, .ofModules [assorted, .moduleDef "other" none [("C", .classDef
  { name? := some "C", qualified? := some "C", module? := some "other" } (.builtin "type") [] [])]]⟩

/-- The members of the module are bound once each, but for its docstring and the misnamed value. -/
theorem assorted_binds_members : ∃ m q,
    (moduleOf ⟨["m"]⟩ assorted).outcome assortedWorld {} = (.ok m, q) ∧
      m.elements.filterMap Statement.bound? =
        ["C", "other", "annotations", "A", "f", "n", "__all__", "B"] ∧
      newProblems {} q = [.identifier "n+1" ⟨["m"]⟩] ∧
      ∃ own added, BindsMembers assortedWorld {} q ⟨["m"]⟩ assorted m own added := by
  have result : ((moduleOf ⟨["m"]⟩ assorted).outcome assortedWorld {}).1.toOption.map
      (·.elements.filterMap Statement.bound?) =
        some ["C", "other", "annotations", "A", "f", "n", "__all__", "B"] := by
    rw [assortedWorld, World.ofModules_eq]
    decide +kernel
  have found : newProblems {} ((moduleOf ⟨["m"]⟩ assorted).outcome assortedWorld {}).2 =
      [.identifier "n+1" ⟨["m"]⟩] := by
    rw [assortedWorld, World.ofModules_eq]
    decide +kernel
  rcases h : (moduleOf ⟨["m"]⟩ assorted).outcome assortedWorld {} with ⟨e | m, q⟩
  · rw [h] at result
    cases result
  · rw [h] at result found
    exact ⟨m, q, rfl, Option.some.inj result, found, moduleOf_binds_members rfl (by decide) h⟩

end Inspection

end TypeStubs
