import TypeStubs.Proofs.ScopedMembers

/-! The names that the stub of a class uses are brought into scope in the class. -/

namespace TypeStubs

open List

variable {c : Class} {m : ClassMember}

/-- The first parts of the names that a class uses itself: those of its bases, of the origins of its
aliases, and in its hints. -/
def Class.ownFirsts (union : Option QualifiedName) (c : Class) : List String :=
  c.bases.map QualifiedName.head ++ c.aliases.map (·.origin.head) ++
    c.fields.flatMap (fun f => Hint.firsts? union f.attr.hint) ++
    c.methods.flatMap (fun m => m.function.firsts union) ++
    c.properties.flatMap (Property.firsts union)

def World.Shows (w : World) (owner : Object) (name : String) (o : Object) : Prop :=
  ∃ member, (name, member) ∈ owner.members ∧
    (o = member ∨ o = w.settle member ∨ o = (w.settle member).readFrom owner)

section

variable (w : World) (union : Option QualifiedName) (known : Option Object → String → Prop)

mutual

/-- The names that the stub of a class uses are known in the class, and those of the classes in it
are known there. -/
def Class.InScope (o : Object) : Class → Prop
  | .mk name doc bases classes fields methods properties aliases =>
    (∀ f ∈ Class.ownFirsts union
      (.mk name doc bases classes fields methods properties aliases), known (some o) f) ∧
    Class.AllInScope o classes

def Class.AllInScope (owner : Object) : List Class → Prop
  | [] => True
  | c :: cs => (∃ o, w.Shows owner c.name o ∧ Class.InScope o c) ∧ Class.AllInScope owner cs

end

end

variable {w : World} {union : Option QualifiedName} {known : Option Object → String → Prop}

theorem Class.inScope_iff {o : Object} : c.InScope w union known o ↔
      (∀ f ∈ c.ownFirsts union, known (some o) f) ∧ AllInScope w union known o c.classes := by
  cases c
  rw [InScope]

theorem Class.allInScope_iff {owner : Object} {cs : List Class} :
    AllInScope w union known owner cs ↔
      ∀ c ∈ cs, ∃ o, w.Shows owner c.name o ∧ c.InScope w union known o := by
  induction cs with
  | nil => simp [AllInScope]
  | cons c cs ih => simp [AllInScope, ih]

def ClassMember.firsts (union : Option QualifiedName) : ClassMember → List String
  | .alias a => [a.origin.head]
  | .field f => Hint.firsts? union f.attr.hint
  | .methods ms => ms.flatMap fun m => m.function.firsts union
  | .property p => p.firsts union
  | _ => []

def ClassMember.classes : ClassMember → List Class
  | .nested c => [c]
  | _ => []

theorem Class.ownFirsts_add {f : String}
    (hf : f ∈ (c.add m).ownFirsts union) : f ∈ c.ownFirsts union ∨ f ∈ m.firsts union := by
  cases m with
  | nothing | doc text | nested d => exact .inl hf
  | «alias» a | field g | methods ms | property p =>
    simp only [Class.add, Class.ownFirsts, ClassMember.firsts, map_append, flatMap_append,
      map_cons, map_nil, flatMap_cons, flatMap_nil, append_nil,
      mem_append] at hf ⊢
    grind

theorem Class.classes_add (c : Class) (m : ClassMember) :
    (c.add m).classes = c.classes ++ m.classes := by
  cases m with
  | nested d => rfl
  | _ => exact (append_nil _).symm

def ClassMember.InScope (w : World) (union : Option QualifiedName) (known : Option Object → String → Prop)
    (owner : Object) (m : ClassMember) : Prop :=
  (∀ f ∈ m.firsts union, known (some owner) f) ∧ Class.AllInScope w union known owner m.classes

theorem ClassMember.inScope_of_empty {owner : Object} (hf : m.firsts union = [])
    (hc : m.classes = []) : m.InScope w union known owner := by
  rw [InScope, hf, hc]
  exact ⟨forall_mem_nil _, trivial⟩

theorem Class.InScope.add {o : Object} (hc : c.InScope w union known o)
    (hm : m.InScope w union known o) : (c.add m).InScope w union known o := by
  rw [inScope_iff, allInScope_iff] at hc ⊢
  refine ⟨fun f hf => (ownFirsts_add hf).elim (hc.1 f) (hm.1 f), fun d hd => ?_⟩
  rw [classes_add] at hd
  exact (mem_append.mp hd).elim (hc.2 d) (allInScope_iff.mp hm.2 d)

theorem Property.firsts_asField? {p : Property} {field : Field}
    (h : p.asField? = some field) : Hint.firsts? union field.attr.hint ⊆ p.firsts union := by
  obtain ⟨name, doc, getter, setter⟩ := p
  unfold asField? at h
  split at h
  · rename_i g s _ hg hs
    cases hg
    split at h
    · split at h
      · cases h
        intro f hf
        simp only [firsts, Option.toList, flatMap_cons, flatMap_nil, append_nil]
        exact mem_append_left _ (mem_append_right _ hf)
      · cases h
    · cases h
  · cases h

theorem ClassMember.InScope.withFields {owner : Object} (h : m.InScope w union known owner) :
    m.withFields.InScope w union known owner := by
  cases m with
  | property p =>
    cases hp : p.asField? with
    | none => simpa [ClassMember.withFields, hp] using h
    | some field =>
      simp only [ClassMember.withFields, hp, Option.map_some, Option.getD_some]
      exact ⟨fun f hf => h.1 f (Property.firsts_asField? hp hf), trivial⟩
  | _ => exact h

theorem Method.firsts_withEnumText {m : Method} {f : String}
    (hf : f ∈ m.withEnumText.function.firsts union) :
    f ∈ m.function.firsts union ∨ f = "str" := by
  unfold withEnumText at hf
  split at hf
  · exact .inr (mem_singleton.mp hf)
  · exact .inl hf

namespace Inspection

variable {α β : Type} {s : Setting} {path : QualifiedName} {class? : Option Object}
variable {R : (Option Object → String → Prop) → β → Prop}

/-- Whatever at least the names are known to that a step has brought into scope, its result has a
property that depends on what is known. -/
def Yields (s : Setting) (path : QualifiedName) (class? : Option Object) (x : Inspection α)
    (P : (Option Object → String → Prop) → α → Prop) : Prop :=
  ∀ ⦃p q a⦄, p.modulePath = path → p.class? = class? → x.outcome s p = (.ok a, q) →
    Grows p q ∧ ∀ known, (∀ o f, KnownIn s.world p q o f → known o f) → P known a

section

variable {P Q : (Option Object → String → Prop) → α → Prop} {x y : Inspection α}

theorem Yields.of_composed (hx : Composed x) : Yields s path class? x fun _ _ => True :=
  fun _ _ _ _ _ h => ⟨hx.keeps (keeps_grows s) h, fun _ _ => trivial⟩

theorem Yields.of_scopes {firsts : α → List String} (hx : Scopes s path [] x firsts) :
    Yields s path class? x fun known a => ∀ f ∈ firsts a, known class? f := by
  intro p q a hp hc h
  have grows := (hx hp h).1
  refine ⟨grows, fun known hk f hf => hk _ _ ?_⟩
  have scope := hx.known hp h hf
  rwa [Scoped, grows.class?, hc] at scope

theorem Yields.pure_of_builtins {a : α}
    (h : ∀ known, (∀ o f, s.world.has Builtins.asModule f = true → known o f) → P known a) :
    Yields s path class? (pure a) P := by
  intro p q b _ _ hb
  cases hb
  exact ⟨.refl p, fun known hk => h known fun o f hf => hk o f (.inr (.inl hf))⟩

theorem Yields.pure {a : α} (h : ∀ known, P known a) : Yields s path class? (pure a) P :=
  .pure_of_builtins fun known _ => h known

theorem Yields.throw (e : Failure) : Yields s path class? (throw e) P := by
  intro p q b _ _ hb
  cases hb

theorem Yields.bind {f : α → Inspection β} (hx : Yields s path class? x P)
    (hf : ∀ a, Yields s path class? (f a) fun known b => P known a → R known b) :
    Yields s path class? (x >>= f) R := by
  intro p q b hp hc h
  obtain ⟨a, r, h₁, h₂⟩ := bind_ok_iff.mp h
  obtain ⟨grows, hx⟩ := hx hp hc h₁
  obtain ⟨grows', hf⟩ := hf a (grows.modulePath.trans hp) (grows.class?.trans hc) h₂
  refine ⟨grows.trans grows', fun known hk => ?_⟩
  refine hf known (fun o g hg => hk o g (hg.mono grows (.refl q))) ?_
  exact hx known fun o g hg => hk o g (hg.mono (.refl p) grows')

theorem Yields.imp (hx : Yields s path class? x P) (h : ∀ known a, P known a → Q known a) :
    Yields s path class? x Q := by
  intro p q a hp hc ho
  obtain ⟨grows, hx⟩ := hx hp hc ho
  exact ⟨grows, fun known hk => h known a (hx known hk)⟩

theorem Yields.ite {c : Prop} [Decidable c] (hx : Yields s path class? x P)
    (hy : Yields s path class? y P) : Yields s path class? (if c then x else y) P := by
  split
  · exact hx
  · exact hy

theorem Yields.withLayer (site : QualifiedName) (hx : Yields s path class? x P) :
    Yields s path class? (withLayer site x) P := by
  intro p q a hp hc h
  obtain ⟨r, hr, rfl⟩ := outcome_withLayer_ok_iff.mp h
  obtain ⟨grows, hx⟩ := hx (p := pushed site p) hp hc hr
  exact ⟨(keeps_grows s).inLayer grows, hx⟩

theorem Yields.withClass (o : Object) (hx : Yields s path (some o) x P) :
    Yields s path class? (withClass o x) P := by
  intro p q a hp hc h
  obtain ⟨r, hr, rfl⟩ := outcome_withClass_ok_iff.mp h
  obtain ⟨grows, hx⟩ := hx (p := { p with class? := some o }) hp rfl hr
  exact ⟨(keeps_grows s).inClass grows, hx⟩

end

/-! Classes. -/

section

variable {owner o : Object} {nested : Inspection Class}

theorem Yields.settle {f : Object → Inspection β}
    (h : Yields s path class? (f (s.world.settle o)) R) :
    Yields s path class? (settle o >>= f) R := by
  intro p q b hp hc ho
  refine h hp hc ?_
  simpa [Inspection.settle, outcome_bind] using ho

theorem yields_classMemberByKind (ha : s.options.arrays = .asWritten) (site : QualifiedName)
    (o : Object) (h : Yields s path (some owner) nested fun known c =>
      Class.AllInScope s.world (some (unionName path)) known owner [c]) :
    Yields s path (some owner) (classMemberByKind site o nested)
      fun known m => m.InScope s.world (some (unionName path)) known owner := by
  have byValue : Yields s path (some owner) (do
      if site.last = "__doc__" then return ((docOf o).map .doc).getD .nothing
      return ((← fieldOf site o).map .field).getD .nothing : Inspection ClassMember)
      fun known m => m.InScope s.world (some (unionName path)) known owner := by
    refine .ite ?_ ?_
    · cases docOf o <;> exact .pure fun _ => ClassMember.inScope_of_empty rfl rfl
    · refine (Yields.of_scopes (scopes_fieldOf ha site o)).bind fun f => .pure fun known hk => ?_
      cases f with
      | none => exact ClassMember.inScope_of_empty rfl rfl
      | some f => exact ⟨fun g hg => hk g (by simpa [ClassMember.firsts] using hg), trivial⟩
  refine .ite ?_ ?_
  · refine (Yields.of_scopes (scopes_methodsOf ha site o)).bind fun ms => .pure fun known hk => ?_
    exact ⟨hk, trivial⟩
  refine (Yields.of_composed (.plain (plain_isAlias site o))).bind fun _ => .ite ?_ ?_
  · refine (Yields.of_scopes (scopes_aliasOf site o)).bind fun a => .pure fun known hk _ => ?_
    cases a with
    | none => exact ClassMember.inScope_of_empty rfl rfl
    | some a => exact ⟨hk, trivial⟩
  refine .ite ?_ ?_
  · exact h.bind fun c => .pure fun known hc _ => ⟨forall_mem_nil _, hc⟩
  refine (Yields.of_composed (.plain (plain_isDescriptor o))).bind fun _ => .ite ?_ ?_
  · refine (Yields.of_scopes (scopes_propertyOf ha site o)).bind fun p => .pure fun known hk _ _ => ?_
    cases p with
    | none => exact ClassMember.inScope_of_empty rfl rfl
    | some p => exact ⟨fun g hg => hk g (by simpa [propertyFirsts?, ClassMember.firsts] using hg), trivial⟩
  · exact byValue.imp fun _ _ h _ _ => h

theorem yields_withEnumTexts (hs : s.world.has Builtins.asModule "str" = true)
    (union : Option QualifiedName) (m : ClassMember) :
    Yields s path class? (withEnumTexts owner m) fun known m' =>
      m.InScope s.world union known owner → m'.InScope s.world union known owner := by
  unfold withEnumTexts
  split
  · rename_i ms
    refine (Yields.of_composed (.plain plain_world)).bind fun _ => .ite ?_ ?_
    · refine .pure_of_builtins fun known hk _ hms => ⟨fun f hf => ?_, trivial⟩
      obtain ⟨m', hm', hf⟩ := mem_flatMap.mp hf
      obtain ⟨m, hm, rfl⟩ := mem_map.mp hm'
      rcases Method.firsts_withEnumText hf with hf | rfl
      · exact hms.1 f (mem_flatMap.mpr ⟨m, hm, hf⟩)
      · exact hk _ _ hs
    · exact .pure fun _ _ h => h
  · exact .pure fun _ h => h

variable (ha : s.options.arrays = .asWritten) (hs : s.world.has Builtins.asModule "str" = true)

include ha hs

theorem yields_classMember (site : QualifiedName) (o : Object)
    (h : Yields s path (some owner) nested fun known c =>
      Class.AllInScope s.world (some (unionName path)) known owner [c]) :
    Yields s path (some owner) (classMember site owner o nested)
      fun known m => m.InScope s.world (some (unionName path)) known owner := by
  have nothing (known : Option Object → String → Prop) :
      ClassMember.nothing.InScope s.world (some (unionName path)) known owner :=
    ClassMember.inScope_of_empty rfl rfl
  refine .ite (.pure nothing) (.ite ?_ (.ite (.pure nothing) ?_))
  · exact (Yields.of_composed (.plain (.report _))).bind fun _ => .pure fun known _ => nothing known
  · refine (yields_classMemberByKind ha site o h).bind fun m => ?_
    refine (yields_withEnumTexts hs (some (unionName path)) m).bind fun m' => .pure fun known hm' hm => ?_
    exact (hm' hm).withFields

omit ha hs in
theorem scopes_basesOf {given : List String} (bases : List Object) :
    Scopes s path given (basesOf bases) (map QualifiedName.head) := by
  have names {given : List String} :
      Scopes s path given (basesOf.go bases) (map QualifiedName.head) := by
    induction bases generalizing given with
    | nil => exact .pure fun _ hf => nomatch hf
    | cons b bs ih =>
      refine .ite ih ((scopes_typeNameOf b).bind fun name => ih.bind fun names => .pure ?_)
      intro f hf
      rcases mem_cons.mp hf with rfl | hf
      · exact mem_append_left _ (mem_append_right _ mem_cons_self)
      · exact mem_append_right _ hf
  refine names.bind fun names => .pure fun f hf => mem_append_right _ ?_
  obtain ⟨name, hname, rfl⟩ := mem_map.mp hf
  exact mem_map_of_mem ((takeWhile_sublist _).subset hname)

omit ha hs in
theorem yields_addClassMembers (c : Class) (members : List (String × Inspection ClassMember))
    (h : ∀ m ∈ members, Yields s path (some o) m.2 fun known m => m.InScope s.world union known o) :
    Yields s path (some o) (addClassMembers c members) fun known c' =>
      c.InScope s.world union known o → c'.InScope s.world union known o ∧ c'.name = c.name := by
  induction members generalizing c with
  | nil => exact .pure fun _ hc => ⟨hc, rfl⟩
  | cons m members ih =>
    refine (h m mem_cons_self).bind fun m => ?_
    refine (ih (c.add m) fun m hm => h m (.tail _ hm)).imp fun known c' hc' hm hc => ?_
    exact Class.name_add c m ▸ hc' (hc.add hm)

theorem yields_classBody (site : QualifiedName) (o : Object)
    (bases : List QualifiedName) {members : List (String × Inspection ClassMember)}
    (h : ∀ m ∈ members, Yields s path (some o) m.2
      fun known m => m.InScope s.world (some (unionName path)) known o) :
    Yields s path class? (classBody site o bases members) fun known c =>
      c.InScope s.world (some (unionName path)) known o ∧ c.name = site.last := by
  refine .withLayer site (.withClass o ?_)
  refine (Yields.of_composed (.plain plain_world)).bind fun w => ?_
  refine (Yields.of_scopes (scopes_basesOf _)).bind fun bases => ?_
  have ordered := forall_ordered
    (P := fun x => Yields s path (some o) x
      fun known (m : ClassMember) => m.InScope s.world (some (unionName path)) known o)
    (yields_classMember ha hs (site.member "__doc__") (.ofText? o.doc?) (.throw .missingAttribute)) h
  refine (yields_addClassMembers _ _ ordered).imp fun known c hc hb _ => hc ?_
  rw [Class.inScope_iff]
  exact ⟨fun f hf => hb f (by simpa [Class.ownFirsts] using hf), trivial⟩

/-- What references lead to is inspected as classes that are in scope. -/
def Descent.Scopes (s : Setting) (path : QualifiedName) (d : Descent) : Prop :=
  ∀ class? site o, Yields s path class? (d.classAt site o) fun known c =>
    c.InScope s.world (some (unionName path)) known o ∧ c.name = site.last

omit ha hs in
theorem Yields.shown {x : Inspection Class} {site : QualifiedName} {name : String}
    (hx : Yields s path class? x fun known c =>
      c.InScope s.world union known o ∧ c.name = (site.member name).last)
    (h : s.world.Shows owner name o) :
    Yields s path class? x fun known c => Class.AllInScope s.world union known owner [c] := by
  refine hx.imp fun known c hc => ⟨⟨o, ?_, hc.1⟩, trivial⟩
  rw [hc.2, QualifiedName.last_member]
  exact h

mutual

theorem yields_classWith {d : Descent} (hd : d.Scopes s path)
    (class? : Option Object) (site : QualifiedName) (o : Object) :
    Yields s path class? (classWith d site o) fun known c =>
      c.InScope s.world (some (unionName path)) known o ∧ c.name = site.last := by
  cases o with
  | classDef identity metatype bases ms =>
    simp only [classWith]
    exact yields_classBody ha hs site _ bases
      (yields_classMembersWith hd site _ ms (Subset.refl ms))
  | _ =>
    simp only [classWith]
    exact .throw _

theorem yields_classMembersWith {d : Descent} (hd : d.Scopes s path)
    (site : QualifiedName) (owner : Object) (ms : List (String × Object))
    (hms : ms ⊆ owner.members) :
    ∀ m ∈ classMembersWith d site owner ms, Yields s path (some owner) m.2
      fun known m => m.InScope s.world (some (unionName path)) known owner := by
  match ms with
  | [] => simp [classMembersWith]
  | (name, o) :: ms =>
    obtain ⟨hm, hms⟩ := cons_subset.mp hms
    simp only [classMembersWith, forall_mem_cons]
    refine ⟨.settle (yields_classMember ha hs _ _ (.ite ?_ ?_)),
      yields_classMembersWith hd site owner ms hms⟩
    · exact (hd _ _ _).shown ⟨o, hm, .inr (.inr rfl)⟩
    · exact (yields_classWith hd _ (site.member name) o).shown ⟨o, hm, .inl rfl⟩

end

end

end Inspection

end TypeStubs
