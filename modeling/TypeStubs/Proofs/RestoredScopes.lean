import TypeStubs.Proofs.BoundMembers
import TypeStubs.Proofs.Histories

/-! Classes and modules leave the scope that they found, apart from the imports that a class asks for.
So the imports of a module are those that were asked for in it and in no other one. -/

namespace TypeStubs

theorem Module.typeVariables_add (m : Module) (member : ModuleMember) :
    (m.add member).typeVariables = m.typeVariables := by
  cases member <;> rfl

namespace Inspection

variable {s : Setting} {p q : Progress} {path : QualifiedName} {o : Object} {name : String}
  {members : List (String × Inspection ModuleMember)} {m : Module}

def typingImport : Import := ⟨none, ⟨["typing"]⟩⟩

def AsksForMember (s : Setting) (x : Inspection ModuleMember) : Prop :=
  ∀ ⦃p q member⦄, x.outcome s p = (.ok member, q) → member.imports ⊆ q.imports

theorem asksForMember_moduleMember (path : QualifiedName) (ownerName : String) (o : Object)
    (nestedClass : Inspection Class) (nestedModule : Inspection Module) :
    AsksForMember s (moduleMember path ownerName o nestedClass nestedModule) := by
  intro p q member h
  have empty {member : ModuleMember} (none : member.imports = []) : member.imports ⊆ q.imports :=
    none ▸ List.nil_subset _
  cases moduleMember_ok h with
  | misnamed | functions | nested | subModule => exact empty rfl
  | @«alias» a? | @attr a? => cases a? <;> exact empty rfl
  | doc => cases docOf o <;> exact empty rfl
  | imported asked =>
    rcases importOf_ok asked with ⟨r, origin, rfl, -, rfl⟩ | ⟨rfl, -, -⟩
    · intro i hi
      exact Import.mem_insert.mpr (.inl (List.mem_singleton.mp hi))
    · exact empty rfl

theorem asksForMember_moduleMembersWith (d : Descent) (path : QualifiedName) (ownerName : String)
    (ms : List (String × Object)) :
    ∀ x ∈ moduleMembersWith d path ownerName ms, AsksForMember s x.2 := by
  rw [moduleMembersWith_eq, List.forall_mem_map]
  intro m _ p q member h
  obtain ⟨settled, r, -, step⟩ := bind_ok_iff.mp h
  exact asksForMember_moduleMember _ _ _ _ _ step

/-- The members of a module bring no type variables, and only imports that were asked for. -/
theorem gather_asked {steps : List (String × Inspection ModuleMember)}
    (hs : ∀ x ∈ steps, Composed x.2 ∧ AsksForMember s x.2)
    (h : (gather Module.add { name := path.last } steps).outcome s p = (.ok m, q)) :
    m.typeVariables = [] ∧ m.imports ⊆ q.imports := by
  refine gather_keeps (I := fun m (r : Progress) => m.typeVariables = [] ∧ m.imports ⊆ r.imports)
    ?_ ⟨rfl, List.nil_subset _⟩ h
  rintro x hx m r r' member ⟨none, before⟩ run
  obtain ⟨composed, asks⟩ := hs x hx
  have grows : Grows r r' := composed.keeps (keeps_grows s) run
  refine ⟨(m.typeVariables_add member).trans none, fun i hi => ?_⟩
  rcases Module.mem_imports_add.mp hi with old | own
  · exact grows.imports (before old)
  · exact asks run own

theorem withTypeVariables_adds {m' : Module} (none : m.typeVariables = [])
    (h : (withTypeVariables path m).outcome s p = (.ok m', q)) (i : Import) :
    i ∈ m'.imports ↔ i ∈ m.imports ∨ i = typingImport ∧ m'.typeVariables ≠ [] := by
  have same : i ∈ m.imports ↔ i ∈ m.imports ∨ i = typingImport ∧ m.typeVariables ≠ [] := by
    simp [none]
  obtain ⟨options, r, look, h⟩ := bind_ok_iff.mp h
  cases look
  rw [outcome_ite] at h
  split at h
  · cases h
    exact same
  obtain ⟨state, r, look, h⟩ := bind_ok_iff.mp h
  cases look
  obtain ⟨bounds, r, hr, h⟩ := bind_ok_iff.mp h
  obtain ⟨_, r', taken, h⟩ := bind_ok_iff.mp h
  rw [outcome_ite] at h
  split at h
  · cases h
    exact same
  · rename_i some
    cases h
    have bounded : bounds ≠ [] := by
      rintro rfl
      cases names : sortBy (fun a b => decide (a ≤ b)) p.dimensions with
      | nil => exact some (by rw [names]; rfl)
      | cons name names' =>
        rw [names] at hr
        obtain ⟨bound, r₁, -, hr⟩ := bind_ok_iff.mp hr
        obtain ⟨others, r₂, -, done⟩ := bind_ok_iff.mp hr
        cases done
    rw [Import.mem_insert, or_comm, typingImport]
    simp [bounded]

section

variable (hs : ∀ x ∈ members, Composed x.2 ∧ AsksForMember s x.2)
include hs

/-- What the content of a module has of imports was asked for, apart from what type variables
need. -/
theorem moduleContent_asked
    (h : (moduleContent path o name members).outcome s p = (.ok m, q)) (i : Import) :
    i ∈ m.imports ∨ i ∈ q.imports ↔
      i ∈ q.imports ∨ i = typingImport ∧ m.typeVariables ≠ [] := by
  obtain ⟨m₁, r, atPath, taken⟩ := bind_ok_iff.mp h
  obtain ⟨r₁, added, rfl⟩ := outcome_withModulePath_ok_iff.mp atPath
  rw [addModuleMembers_eq] at added
  have steps := forall_ordered (P := fun x => Composed x ∧ AsksForMember s x)
    ⟨composed_moduleMember (path.member "__doc__") name (.ofText? o.doc?)
      (.plain (.throw .missingAttribute)) (.plain (.throw .missingAttribute)),
      asksForMember_moduleMember _ _ _ _ _⟩ hs
  obtain ⟨none, asked⟩ := gather_asked steps added
  have later : r₁.imports ⊆ q.imports :=
    ((composed_withTypeVariables path m₁).keeps (keeps_grows s) taken).imports
  rw [withTypeVariables_adds none taken]
  constructor
  · rintro ((own | typing) | pending)
    · exact .inl (later (asked own))
    · exact .inr typing
    · exact .inl pending
  · rintro (pending | typing)
    · exact .inr pending
    · exact .inl (.inr typing)

/-- The imports of a module are those that were asked for in it, outside of its sub-modules, and what
every module and type variables need. -/
theorem moduleBody_asked (h : (moduleBody path o name members).outcome s p = (.ok m, q)) :
    ∃ k, Happens s true (moduleBody path o name members) p
        (.inLayer path (.next (.inModule k) .quiet)) ∧
      ∀ i, i ∈ m.imports ↔
        i ∈ k.imports ∨ i = futureImport ∨ i = typingImport ∧ m.typeVariables ≠ [] := by
  rw [moduleBody_eq] at h ⊢
  have composed := composed_moduleContent path o name fun x hx => (hs x hx).1
  obtain ⟨k, inside⟩ := composed.happens s { pushed path p with module? := some o, imports := [] }
  obtain ⟨q₁, body, rfl⟩ := outcome_withLayer_ok_iff.mp h
  obtain ⟨⟨m₁, imports⟩, q₂, around, done⟩ := bind_ok_iff.mp body
  cases done
  obtain ⟨r, content, rfl, rfl⟩ := outcome_withModule_ok_iff.mp around
  refine ⟨k, .inLayer path (.next (.inModule o inside) around (.look fun _ _ => rfl)), fun i => ?_⟩
  have asked : i ∈ r.imports ↔ i ∈ k.imports := by
    have all := inside.mem_imports (fun _ => ⟨m₁, r, content⟩) i
    rw [content] at all
    simpa using all
  obtain ⟨more, future, listed, listing, same, -⟩ := withImports_eq m₁ r.imports
  have kept : (withImports m₁ r.imports).typeVariables = m₁.typeVariables := by rw [same]
  rw [Module.mem_imports_withImports, moduleContent_asked hs content, asked, kept, or_left_comm]

end

/-- Two states are in the same class and module. -/
structure SameScope (p q : Progress) : Prop where
  class? : q.class? = p.class?
  module? : q.module? = p.module?
  modulePath : q.modulePath = p.modulePath

theorem Grows.sameScope (h : Grows p q) : SameScope p q := ⟨h.class?, h.module?, h.modulePath⟩

/-- A class or module that is done leaves the class, the module and its path as they were. A class
only adds the imports that it asked for, and a module adds none. The imports of a module are those
that were asked for in it, outside of its sub-modules, the one from the future, and with type
variables the one that they need. -/
theorem scopes_restored (s : Setting) (n : Nat) (path : QualifiedName) (o : Object) (p q : Progress) :
    (∀ ⦃c⦄, (classWith (descent n) path o).outcome s p = (.ok c, q) →
      SameScope p q ∧ p.imports ⊆ q.imports ∧
        ∃ h, Happens s false (classWith (descent n) path o) p h ∧
          ∀ i, i ∈ q.imports ↔ i ∈ p.imports ∨ i ∈ h.imports) ∧
    ∀ ⦃m⦄, (moduleWith (descent n) path o).outcome s p = (.ok m, q) →
      SameScope p q ∧ q.imports = p.imports ∧
        ∃ h, Happens s true (moduleWith (descent n) path o) p
            (.inLayer path (.next (.inModule h) .quiet)) ∧
          ∀ i, i ∈ m.imports ↔
            i ∈ h.imports ∨ i = futureImport ∨ i = typingImport ∧ m.typeVariables ≠ [] := by
  constructor
  · intro c run
    have enclosed := enclosed_classWith (composed_descent n) path o
    have grows : Grows p q := enclosed.keeps (keeps_grows s).toKeepsInside run
    obtain ⟨h, happens⟩ := enclosed.happens s false p
    refine ⟨grows.sameScope, grows.imports, h, happens, fun i => ?_⟩
    have asked := happens.mem_imports nofun i
    rwa [run] at asked
  · intro m run
    have composed := composed_moduleWith (composed_descent n) path o
    have grows : Grows p q := composed.keeps (keeps_grows s) run
    refine ⟨grows.sameScope, (keepsOutside_moduleWith _ path o run).2.2, ?_⟩
    cases o with
    | moduleDef name doc ms =>
      simp only [moduleWith] at run ⊢
      refine moduleBody_asked (fun x hx => ⟨?_, ?_⟩) run
      · exact composed_moduleMembersWith (composed_descent n) path name ms x hx
      · exact asksForMember_moduleMembersWith _ path name ms x hx
    | _ =>
      simp only [moduleWith] at run
      cases run

def routineIn (module name hint : String) : Object := .routine .function
  { name? := some name, qualified? := some name, module? := some module }
  (some { parameters := [{ name := "x", hint := some (.str hint) }] })

def classIn (module name : String) (ms : List (String × Object)) : Object := .classDef
  { name? := some name, qualified? := some name, module? := some module } (.builtin "type") [] ms

def needyClass : Object := classIn "m" "C" [("f", routineIn "m" "f" "other.A")]

def needyModule : Object := .moduleDef "m" none
  [("C", needyClass), ("e", .moduleDef "m.e" none [("g", routineIn "m.e" "g" "another.B")])]

/-- The module, and those that its imports are about. -/
def needyModules : List Object :=
  [needyModule, .moduleDef "other" none [("A", classIn "other" "A" [])],
    .moduleDef "another" none [("B", classIn "another" "B" [])]]

/-- Somewhere inside of something else. -/
def elsewhere : Progress :=
  { layers := [⟨⟨["n"]⟩, []⟩], modulePath := ⟨["n"]⟩, module? := some (.moduleDef "n" none [])
    class? := some (classIn "n" "D" []), imports := [⟨none, ⟨["sys"]⟩⟩] }

/-- The class leaves its import behind, and the module and its sub-module keep theirs. -/
theorem needyModule_restores : ∃ c m q q',
    (classWith (descent 0) ⟨["m", "C"]⟩ needyClass).outcome ⟨{}, .ofModules needyModules⟩ elsewhere =
        (.ok c, q) ∧ SameScope elsewhere q ∧
      q.imports = [⟨none, ⟨["sys"]⟩⟩, ⟨none, ⟨["other"]⟩⟩] ∧
    (moduleWith (descent 0) ⟨["m"]⟩ needyModule).outcome ⟨{}, .ofModules needyModules⟩ elsewhere =
        (.ok m, q') ∧ SameScope elsewhere q' ∧ q'.imports = elsewhere.imports ∧
      m.imports = [⟨none, ⟨["other"]⟩⟩, futureImport] ∧
      m.subModules.map Module.imports = [[⟨none, ⟨["another"]⟩⟩, futureImport]] := by
  have class? : (fun r => (r.1.isOk, r.2.imports)) ((classWith (descent 0) ⟨["m", "C"]⟩
      needyClass).outcome ⟨{}, .ofModules needyModules⟩ elsewhere) =
        (true, [⟨none, ⟨["sys"]⟩⟩, ⟨none, ⟨["other"]⟩⟩]) := by
    rw [World.ofModules_eq]
    decide +kernel
  have module? : ((moduleWith (descent 0) ⟨["m"]⟩ needyModule).outcome ⟨{}, .ofModules needyModules⟩
      elsewhere).1.toOption.map (fun m => (m.imports, m.subModules.map Module.imports)) =
        some ([⟨none, ⟨["other"]⟩⟩, futureImport], [[⟨none, ⟨["another"]⟩⟩, futureImport]]) := by
    rw [World.ofModules_eq]
    decide +kernel
  rcases hc : (classWith (descent 0) ⟨["m", "C"]⟩ needyClass).outcome ⟨{}, .ofModules needyModules⟩
    elsewhere with ⟨e | c, q⟩
  · rw [hc] at class?
    cases class?
  rcases hm : (moduleWith (descent 0) ⟨["m"]⟩ needyModule).outcome ⟨{}, .ofModules needyModules⟩
    elsewhere with ⟨e | m, q'⟩
  · rw [hm] at module?
    cases module?
  rw [hc] at class?
  rw [hm] at module?
  obtain ⟨own, inner⟩ := Prod.mk.inj (Option.some.inj module?)
  obtain ⟨sameClass, -⟩ := (scopes_restored _ 0 _ _ _ q).1 hc
  obtain ⟨sameModule, kept, -⟩ := (scopes_restored _ 0 _ _ _ q').2 hm
  exact ⟨c, m, q, q', rfl, sameClass, (Prod.mk.inj class?).2, rfl, sameModule, kept, own, inner⟩

end Inspection

end TypeStubs
