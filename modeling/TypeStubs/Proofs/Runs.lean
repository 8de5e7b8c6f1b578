import TypeStubs.Proofs.ComposedMembers
import TypeStubs.Proofs.Reports

/-! What whole runs keep, and when two runs go the same way. Both are settled for the basic steps
alone and hold for everything that is put together from them. -/

namespace TypeStubs.Inspection

open List

variable {p q : Progress}

variable {α : Type} {s t : Setting} {x : Inspection α}

/-- A relation between the states before and after that all basic steps inside a module fit into, and
that holds around a layer or class if it holds inside. Modules are only imported whole, and only if
the module being inspected has nothing of that name. -/
structure KeepsInside (s : Setting) (K : Progress → Progress → Prop) : Prop where
  refl (p : Progress) : K p p
  trans {p q r : Progress} : K p q → K q r → K p r
  report (problem : Problem) (p : Progress) : K p ((report problem).outcome s p).2
  addModule (origin : QualifiedName) (p : Progress)
    (h : ∀ o ∈ p.module?, s.world.has o origin.head = false) :
    K p { p with imports := (Import.mk none origin).insert p.imports }
  addDimension (name : String) (p : Progress) :
    K p { p with letters := p.letters ++ [.found p.modulePath name] }
  inLayer {path : QualifiedName} {p q : Progress} : K (pushed path p) q → K p (popped q)
  inClass {c : Object} {p q : Progress} :
    K { p with class? := some c } q → K p { q with class? := p.class? }

/-- A relation between the states before and after that all basic steps fit into, and that holds
around a layer, class or module if it holds inside. -/
structure Keeps (s : Setting) (K : Progress → Progress → Prop) : Prop extends KeepsInside s K where
  addNamed (name : String) (origin : QualifiedName) (p : Progress) :
    K p { p with imports := (Import.mk (some name) origin).insert p.imports }
  takeDimensions (path : QualifiedName) (p : Progress) :
    K p { p with letters := p.letters ++ [.taken path] }
  inModule {m : Object} {p q : Progress} : K { p with module? := some m, imports := [] } q →
    K p { q with module? := p.module?, imports := p.imports }
  inModulePath {path : QualifiedName} {p q : Progress} :
    K { p with modulePath := path } q → K p { q with modulePath := p.modulePath }

section

variable {K : Progress → Progress → Prop}

/-- The name needs no import in a state. -/
def knows (v : View) (name : QualifiedName) : Bool :=
  name.parts = [] || name.parts = [""] || v.world.has Builtins.asModule name.head ||
    v.scope.class?.any (v.world.has · name.head) || v.scope.module?.any (v.world.has · name.head)

theorem outcome_isKnown (name : QualifiedName) (s : Setting) (p : Progress) :
    (isKnown name).outcome s p = (.ok (knows (viewOf s p) name), p) := rfl

theorem knows_of_has {name : QualifiedName} {o : Object} (ho : o ∈ p.module?)
    (h : s.world.has o name.head = true) : knows (viewOf s p) name = true := by
  have own : (viewOf s p).scope.module?.any (s.world.has · name.head) = true := by
    simp only [Option.any_eq_true]
    exact ⟨o, ho, h⟩
  simp only [knows, Bool.or_eq_true]
  exact .inr own

/-- What a name needs is nothing, a report, or the import of a module that the one being inspected
does not know. -/
theorem requireImport_cases (name : QualifiedName) (s : Setting) (p : Progress) :
    ((requireImport name).outcome s p).2 = p ∨
      ((requireImport name).outcome s p).2 = ((report (.name name)).outcome s p).2 ∨
      ∃ origin : QualifiedName, (∀ o ∈ p.module?, s.world.has o origin.head = false) ∧
        ((requireImport name).outcome s p).2 =
          { p with imports := (Import.mk none origin).insert p.imports } := by
  obtain ⟨r, hr⟩ := parentModuleAmong?_looks s.world name name.parents
  have parent : (parentModule? name).outcome s p = (r, p) := hr s p rfl
  rw [requireImport, outcome_bind, outcome_isKnown]
  cases known : knows (viewOf s p) name with
  | true => exact .inl rfl
  | false =>
    simp only [Bool.false_eq_true, reduceIte, outcome_bind, parent]
    match r with
    | .error e => exact .inl rfl
    | .ok none => exact .inr (.inl rfl)
    | .ok (some origin) =>
      obtain ⟨hmem, hlen⟩ := parentModuleAmong?_ok parent
      refine .inr (.inr ⟨origin, fun o ho => ?_, rfl⟩)
      rw [head_of_mem_parents hmem hlen]
      refine Bool.eq_false_iff.mpr fun has => ?_
      rw [knows_of_has ho has] at known
      cases known

theorem KeepsInside.requireImport (hK : KeepsInside s K) (name : QualifiedName) (p : Progress) :
    K p ((Inspection.requireImport name).outcome s p).2 := by
  rcases requireImport_cases name s p with same | reported | ⟨origin, unknown, asked⟩
  · exact same.symm ▸ hK.refl p
  · exact reported.symm ▸ hK.report (.name name) p
  · exact asked.symm ▸ hK.addModule origin p unknown

theorem Plain.keeps (hx : Plain x) (hK : KeepsInside s K) (p : Progress) :
    K p (x.outcome s p).2 := by
  induction hx generalizing p with
  | pure a => exact hK.refl p
  | throw e => exact hK.refl p
  | view => exact hK.refl p
  | report problem => exact hK.report problem p
  | requireImport name => exact hK.requireImport name p
  | addDimension name => exact hK.addDimension name p
  | withLayer path hx ih => exact hK.inLayer (ih (pushed path p))
  | @bind _ _ x f hx hf ihx ihf =>
    have first := ihx p
    rw [outcome_bind]
    generalize x.outcome s p = r at first ⊢
    obtain ⟨e | a, q⟩ := r
    · exact first
    · exact hK.trans first (ihf a q)
  | @tryCatch _ x f hx hf ihx ihf =>
    have first := ihx p
    rw [outcome_tryCatch]
    generalize x.outcome s p = r at first ⊢
    obtain ⟨e | a, q⟩ := r
    · exact hK.trans first (ihf e q)
    · exact first

theorem Enclosed.keeps (hx : Enclosed x) (hK : KeepsInside s K) {a : α}
    (h : x.outcome s p = (.ok a, q)) : K p q := by
  induction hx generalizing p q with
  | plain hx =>
    have kept := hx.keeps hK p
    rwa [h] at kept
  | bind hx hf ihx ihf =>
    obtain ⟨b, r, h₁, h₂⟩ := bind_ok_iff.mp h
    exact hK.trans (ihx h₁) (ihf b h₂)
  | withLayer path hx ih =>
    obtain ⟨r, hr, rfl⟩ := outcome_withLayer_ok_iff.mp h
    exact hK.inLayer (ih hr)
  | withClass c hx ih =>
    obtain ⟨r, hr, rfl⟩ := outcome_withClass_ok_iff.mp h
    exact hK.inClass (ih hr)

theorem Composed.keeps (hx : Composed x) (hK : Keeps s K) {a : α}
    (h : x.outcome s p = (.ok a, q)) : K p q := by
  induction hx generalizing p q with
  | enclosed hx => exact hx.keeps hK.toKeepsInside h
  | bind hx hf ihx ihf =>
    obtain ⟨b, r, h₁, h₂⟩ := bind_ok_iff.mp h
    exact hK.trans (ihx h₁) (ihf b h₂)
  | takeDimensions path =>
    cases h
    exact hK.takeDimensions path p
  | addImport name origin =>
    cases h
    exact hK.addNamed name origin p
  | withLayer path hx ih =>
    obtain ⟨r, hr, rfl⟩ := outcome_withLayer_ok_iff.mp h
    exact hK.inLayer (ih hr)
  | withModule m hx ih =>
    obtain ⟨r, hr, -, rfl⟩ := outcome_withModule_ok_iff.mp h
    exact hK.inModule (ih hr)
  | withModulePath path hx ih =>
    obtain ⟨r, hr, rfl⟩ := outcome_withModulePath_ok_iff.mp h
    exact hK.inModulePath (ih hr)

end

theorem keeps_paths (s : Setting) : Keeps s fun p q => pathsOf p = pathsOf q where
  refl _ := rfl
  trans := Eq.trans
  report problem p := (report_frame problem s p).2.1.symm
  addModule _ _ _ := rfl
  addDimension _ _ := rfl
  addNamed _ _ _ := rfl
  takeDimensions _ _ := rfl
  inLayer {path p q} h := by
    simp only [pathsOf, popped, map_drop] at h ⊢
    rw [← h]
    rfl
  inClass h := h
  inModule h := h
  inModulePath h := h

theorem layers_ne_nil (h : pathsOf p = pathsOf q) (hl : p.layers ≠ []) : q.layers ≠ [] := by
  intro hq
  have hp : pathsOf p = [] := by rw [h, pathsOf, hq, map_nil]
  exact hl (map_eq_nil_iff.mp hp)

/-- The second of two states is further on in the same class and module. -/
structure Grows (p q : Progress) : Prop where
  modulePath : q.modulePath = p.modulePath
  module? : q.module? = p.module?
  class? : q.class? = p.class?
  imports : p.imports ⊆ q.imports
  found : p.found <+: q.found

theorem Grows.refl (p : Progress) : Grows p p :=
  ⟨rfl, rfl, rfl, fun _ h => h, prefix_rfl⟩

theorem Grows.trans {r : Progress} (h : Grows p q) (h' : Grows q r) : Grows p r :=
  ⟨h'.modulePath.trans h.modulePath, h'.module?.trans h.module?, h'.class?.trans h.class?,
    fun _ hi => h'.imports (h.imports hi), h.found.trans h'.found⟩

theorem keeps_grows (s : Setting) : Keeps s Grows where
  refl := .refl
  trans := .trans
  report problem p := by
    obtain ⟨hscope, -, hfound⟩ := report_frame problem s p
    refine ⟨congrArg Scope.modulePath hscope, congrArg Scope.module? hscope,
      congrArg Scope.class? hscope, ?_, ?_⟩
    · have imports : ((report problem).outcome s p).2.imports = p.imports :=
        congrArg Scope.imports hscope
      exact imports ▸ fun _ h => h
    · exact hfound ▸ prefix_append _ _
  addModule _ _ _ := ⟨rfl, rfl, rfl, fun _ h => Import.mem_insert.mpr (.inr h), prefix_rfl⟩
  addNamed _ _ _ := ⟨rfl, rfl, rfl, fun _ h => Import.mem_insert.mpr (.inr h), prefix_rfl⟩
  addDimension _ _ := ⟨rfl, rfl, rfl, fun _ h => h, prefix_rfl⟩
  takeDimensions _ _ := ⟨rfl, rfl, rfl, fun _ h => h, prefix_rfl⟩
  inLayer h := ⟨h.modulePath, h.module?, h.class?, h.imports, h.found⟩
  inClass h := ⟨h.modulePath, h.module?, rfl, h.imports, h.found⟩
  inModule h := ⟨h.modulePath, rfl, h.class?, fun _ hi => hi, h.found⟩
  inModulePath h := ⟨rfl, h.module?, h.class?, h.imports, h.found⟩

/-- Two outcomes are the same up to states that are related. -/
def Together (R : Progress → Progress → Prop) (x y : Except Failure α × Progress) : Prop :=
  x.1 = y.1 ∧ R x.2 y.2

theorem Together.exists {R : Progress → Progress → Prop} {x y : Except Failure α × Progress}
    (h : Together R x y) : ∃ r p q, x = (r, p) ∧ y = (r, q) ∧ R p q :=
  ⟨x.1, x.2, y.2, rfl, Prod.ext h.1.symm rfl, h.2⟩

theorem Together.bind {β : Type} {R : Progress → Progress → Prop}
    {f : α → Inspection β} (hx : Together R (x.outcome s p) (x.outcome t q))
    (hf : ∀ a p' q', x.outcome s p = (.ok a, p') → R p' q' →
      Together R ((f a).outcome s p') ((f a).outcome t q')) :
    Together R ((x >>= f).outcome s p) ((x >>= f).outcome t q) := by
  obtain ⟨r, p', q', hp, hq, hR⟩ := hx.exists
  rw [outcome_bind, outcome_bind, hp, hq]
  cases r with
  | error e => exact ⟨rfl, hR⟩
  | ok a => exact hf a p' q' hp hR

/-- A relation between the states of two runs that makes them go the same way: related states look
the same to steps, and what basic steps do to them keeps them related. -/
structure Lockstep (s t : Setting) (R : Progress → Progress → Prop) : Prop where
  view {p q : Progress} : R p q → viewOf s p = viewOf t q
  paths {p q : Progress} : R p q → pathsOf p = pathsOf q
  within {p q : Progress} (c : Scope) : R p q → R (within p c) (within q c)
  push {p q : Progress} (path : QualifiedName) : R p q → R (pushed path p) (pushed path q)
  pop {p q : Progress} : R p q → R (popped p) (popped q)
  report {p q : Progress} (problem : Problem) : p.layers ≠ [] → R p q →
    Together R ((report problem).outcome s p) ((report problem).outcome t q)

section

variable {R : Progress → Progress → Prop}

section

variable (h : Lockstep s t R)
include h

theorem Lockstep.scope (hR : R p q) : scopeOf p = scopeOf q :=
  congrArg View.scope (h.view hR)

theorem Lockstep.rescope (f : Scope → Scope) (hR : R p q) :
    R (Inspection.within p (f (scopeOf p))) (Inspection.within q (f (scopeOf q))) := by
  rw [h.scope hR]
  exact h.within _ hR

theorem Lockstep.addImport (i : Import) (hR : R p q) :
    Together R ((Inspection.addImport i).outcome s p) ((Inspection.addImport i).outcome t q) :=
  ⟨rfl, h.rescope (fun c => { c with imports := i.insert c.imports }) hR⟩

theorem Lockstep.requireImport (name : QualifiedName) (hl : p.layers ≠ []) (hR : R p q) :
    Together R ((Inspection.requireImport name).outcome s p)
      ((Inspection.requireImport name).outcome t q) := by
  obtain ⟨r, hr⟩ := parentModuleAmong?_looks s.world name name.parents
  have parent : (parentModule? name).outcome s p = (r, p) := hr s p rfl
  have parent' : (parentModule? name).outcome t q = (r, q) :=
    hr t q (congrArg View.world (h.view hR)).symm
  rw [Inspection.requireImport, outcome_bind, outcome_bind, outcome_isKnown, outcome_isKnown,
    ← h.view hR]
  cases knows (viewOf s p) name with
  | true => exact ⟨rfl, hR⟩
  | false =>
    simp only [Bool.false_eq_true, reduceIte, outcome_bind, parent, parent']
    match r with
    | .error e => exact ⟨rfl, hR⟩
    | .ok none => exact h.report (.name name) hl hR
    | .ok (some origin) => exact h.addImport ⟨none, origin⟩ hR

end

theorem Lockstep.withLayer (h : Lockstep s t R) {path : QualifiedName} (inside : Together R
    (x.outcome s (pushed path p)) (x.outcome t (pushed path q))) :
    Together R ((withLayer path x).outcome s p) ((withLayer path x).outcome t q) :=
  ⟨inside.1, h.pop inside.2⟩

theorem Plain.together (hx : Plain x) (h : Lockstep s t R) (hl : p.layers ≠ [])
    (hR : R p q) : Together R (x.outcome s p) (x.outcome t q) := by
  induction hx generalizing p q with
  | pure a => exact ⟨rfl, hR⟩
  | throw e => exact ⟨rfl, hR⟩
  | view => exact ⟨congrArg Except.ok (h.view hR), hR⟩
  | report problem => exact h.report problem hl hR
  | requireImport name => exact h.requireImport name hl hR
  | addDimension name =>
    exact ⟨rfl, h.rescope (fun c => { c with letters := c.letters ++ [.found c.modulePath name] }) hR⟩
  | withLayer path hx ih => exact h.withLayer (ih (cons_ne_nil _ _) (h.push path hR))
  | bind hx hf ihx ihf =>
    refine (ihx hl hR).bind fun a p' q' hp hR' => ihf a (layers_ne_nil ?_ hl) hR'
    exact (Composed.plain hx).keeps (keeps_paths s) hp
  | @tryCatch _ x f hx hf ihx ihf =>
    have first := ihx hl hR
    have kept := layers_ne_nil (hx.keeps (keeps_paths s).toKeepsInside p) hl
    rw [outcome_tryCatch, outcome_tryCatch]
    obtain ⟨r, p', q', hp, hq, hR'⟩ := first.exists
    rw [hp] at kept
    rw [hp, hq]
    cases r with
    | error e => exact ihf e kept hR'
    | ok a => exact ⟨rfl, hR'⟩

theorem Enclosed.together (hx : Enclosed x) (h : Lockstep s t R)
    (hl : p.layers ≠ []) (hR : R p q) : Together R (x.outcome s p) (x.outcome t q) := by
  induction hx generalizing p q with
  | plain hx => exact hx.together h hl hR
  | withLayer path hx ih => exact h.withLayer (ih (cons_ne_nil _ _) (h.push path hR))
  | bind hx hf ihx ihf =>
    exact (ihx hl hR).bind fun a p' q' hp hR' =>
      ihf a (layers_ne_nil (hx.keeps (keeps_paths s).toKeepsInside hp) hl) hR'
  | withClass c hx ih =>
    have inside := ih (p := { p with class? := some c }) (q := { q with class? := some c }) hl
      (h.rescope (fun sc => { sc with class? := some c }) hR)
    have before : q.class? = p.class? := (congrArg Scope.class? (h.scope hR)).symm
    obtain ⟨r, p', q', hp, hq, hR'⟩ := inside.exists
    rw [outcome_withClass, outcome_withClass, hp, hq, before]
    cases r with
    | error e => exact ⟨rfl, hR'⟩
    | ok a => exact ⟨rfl, h.rescope (fun sc => { sc with class? := p.class? }) hR'⟩

theorem Composed.together (hx : Composed x) (h : Lockstep s t R)
    (hl : p.layers ≠ []) (hR : R p q) : Together R (x.outcome s p) (x.outcome t q) := by
  induction hx generalizing p q with
  | enclosed hx => exact hx.together h hl hR
  | addImport name origin => exact h.addImport ⟨some name, origin⟩ hR
  | takeDimensions path =>
    exact ⟨rfl, h.rescope (fun c => { c with letters := c.letters ++ [.taken path] }) hR⟩
  | withLayer path hx ih => exact h.withLayer (ih (cons_ne_nil _ _) (h.push path hR))
  | bind hx hf ihx ihf =>
    exact (ihx hl hR).bind fun a p' q' hp hR' =>
      ihf a (layers_ne_nil (hx.keeps (keeps_paths s) hp) hl) hR'
  | withModule m hx ih =>
    have inside := ih (p := { p with module? := some m, imports := [] })
      (q := { q with module? := some m, imports := [] }) hl
      (h.rescope (fun sc => { sc with module? := some m, imports := [] }) hR)
    have before : q.module? = p.module? := (congrArg Scope.module? (h.scope hR)).symm
    have imports : q.imports = p.imports := (congrArg Scope.imports (h.scope hR)).symm
    obtain ⟨r, p', q', hp, hq, hR'⟩ := inside.exists
    rw [outcome_withModule, outcome_withModule, hp, hq, before, imports]
    cases r with
    | error e => exact ⟨rfl, hR'⟩
    | ok a =>
      have found : p'.imports = q'.imports := congrArg Scope.imports (h.scope hR')
      exact ⟨congrArg (fun i => Except.ok (a, i)) found,
        h.rescope (fun sc => { sc with module? := p.module?, imports := p.imports }) hR'⟩
  | withModulePath path hx ih =>
    have inside := ih (p := { p with modulePath := path }) (q := { q with modulePath := path }) hl
      (h.rescope (fun sc => { sc with modulePath := path }) hR)
    have before : q.modulePath = p.modulePath := (congrArg Scope.modulePath (h.scope hR)).symm
    obtain ⟨r, p', q', hp, hq, hR'⟩ := inside.exists
    rw [outcome_withModulePath, outcome_withModulePath, hp, hq, before]
    cases r with
    | error e => exact ⟨rfl, hR'⟩
    | ok a => exact ⟨rfl, h.rescope (fun sc => { sc with modulePath := p.modulePath }) hR'⟩

/-- Modules are inspected the same way in related states, also when nothing is being inspected. -/
theorem moduleOf_together (h : Lockstep s t R) (path : QualifiedName) (o : Object) (hR : R p q) :
    Together R ((moduleOf path o).outcome s p) ((moduleOf path o).outcome t q) := by
  have hw : s.world = t.world := congrArg View.world (h.view hR)
  simp only [moduleOf, outcome_bind, outcome_world, hw]
  cases o with
  | moduleDef name doc ms =>
    obtain ⟨x, hx, hm⟩ := moduleWith_descent t.world.reach path name doc ms
    have inside := hx.together h (p := pushed path p) (cons_ne_nil _ _) (h.push path hR)
    rw [hm]
    exact ⟨inside.1, h.pop inside.2⟩
  | _ =>
    simp only [moduleWith]
    exact ⟨rfl, hR⟩

end

end TypeStubs.Inspection
