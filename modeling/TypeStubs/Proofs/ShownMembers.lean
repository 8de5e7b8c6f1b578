import TypeStubs.Proofs.Contributions

/-! No member of a class is lost silently: the body of the class binds its name, or it was reported,
or a rule leaves it out. -/

namespace TypeStubs

open List

variable {c : Class} {bases : List QualifiedName} {m : ClassMember}

def ClassMember.elements : ClassMember → List Statement
  | .nothing => []
  | .doc _ => []
  | .alias a => [.alias a]
  | .field f => [.attr f.attr]
  | .nested c => [.classDef c]
  | .methods ms => ms.map .method
  | .property x => if x.getter.isSome then [.property x] else []

theorem Class.elements_add (c : Class) (m : ClassMember) :
    (c.add m).elements.Perm (c.elements ++ m.elements) := by
  have property (x : Property) : ((c.properties ++ [x]).filter (·.getter.isSome)).map
      Statement.property = (c.properties.filter (·.getter.isSome)).map .property ++
        ClassMember.elements (.property x) := by
    cases hx : x.getter with
    | none => simp [ClassMember.elements, hx]
    | some g => simp [ClassMember.elements, hx]
  classical
  rw [perm_iff_count]
  intro st
  cases m with
  | nothing | doc text => simp only [add, elements, ClassMember.elements, append_nil]
  | «alias» a | field f | nested n | methods ms =>
    simp only [add, elements, ClassMember.elements, map_append, map_cons, map_nil, count_append]
    omega
  | property x => simp only [add, elements, property, count_append, Nat.add_assoc]

theorem Class.mem_elements_foldl_add {members : List (String × ClassMember)} {st : Statement} :
    st ∈ (members.foldl (fun c m => c.add m.2) c).elements ↔
      st ∈ c.elements ∨ ∃ m ∈ members, st ∈ m.2.elements := by
  induction members generalizing c with
  | nil => simp
  | cons m members ih =>
    rw [foldl_cons, ih, (c.elements_add m.2).mem_iff, mem_append]
    simp [or_assoc]

/-- All members of a class have a place in its body, and the classes in it have lines. -/
structure Class.Placed (c : Class) : Prop where
  classes : ∀ n ∈ c.classes, n.Printable
  fields : ∀ f ∈ c.fields, f.modifier.rank?.isSome = true
  methods : ∀ m ∈ c.methods, m.modifier.rank?.isSome = true

theorem Class.Placed.printable (h : c.Placed) : c.Printable :=
  printable_of_placed h.classes h.fields h.methods

def ClassMember.Placed : ClassMember → Prop
  | .nested c => c.Printable
  | .field f => f.modifier.rank?.isSome = true
  | .methods ms => ∀ m ∈ ms, m.modifier.rank?.isSome = true
  | _ => True

theorem Class.Placed.add (h : c.Placed) (hm : m.Placed) : (c.add m).Placed := by
  have joined {α : Type} {P : α → Prop} {xs ys : List α} (hx : ∀ x ∈ xs, P x)
      (hy : ∀ y ∈ ys, P y) : ∀ x ∈ xs ++ ys, P x :=
    fun x h => (mem_append.mp h).elim (hx x) (hy x)
  cases m with
  | nested n => exact ⟨joined h.classes (forall_mem_singleton.mpr hm), h.fields, h.methods⟩
  | field f => exact ⟨h.classes, joined h.fields (forall_mem_singleton.mpr hm), h.methods⟩
  | methods ms => exact ⟨h.classes, h.fields, joined h.methods hm⟩
  | nothing | doc text | «alias» a | property x => exact ⟨h.classes, h.fields, h.methods⟩

theorem ClassMember.withFields_property (x : Property) :
    ClassMember.withFields (.property x) = .property x ∨
      ∃ f, x.asField? = some f ∧ ClassMember.withFields (.property x) = .field f := by
  cases hx : x.asField? with
  | none => exact .inl (by rw [withFields, hx]; rfl)
  | some f => exact .inr ⟨f, rfl, by rw [withFields, hx]; rfl⟩

namespace Printer

variable {p : Printer}

theorem statementLines_ne_nil {st : Statement} (hst : st ∈ c.elements) {lines : List String}
    (h : p.statementLines st = .ok lines) : lines ≠ [] := by
  have function (f : Function) : p.functionLines f ≠ [] := by simp [functionLines]
  simp only [Class.elements, mem_append, mem_map] at hst
  rcases hst with (((⟨n, -, rfl⟩ | ⟨f, -, rfl⟩) | ⟨a, -, rfl⟩) | ⟨m, -, rfl⟩) | ⟨x, hx, rfl⟩
  · rw [statementLines, classLines_eq] at h
    obtain ⟨body, -, rfl⟩ := map_ok h
    exact cons_ne_nil _ _
  · cases h
    exact cons_ne_nil _ _
  · cases h
    exact cons_ne_nil _ _
  · simp only [statementLines, methodLines] at h
    split at h <;> cases h
    · exact cons_ne_nil _ _
    · exact cons_ne_nil _ _
    · exact function _
  · cases h
    obtain ⟨g, hg⟩ := Option.isSome_iff_exists.mp (mem_filter.mp hx).2
    simp [propertyLines, hg]

theorem classBody_writes {lines : List String} (h : p.classBody c = .ok lines)
    (hne : c.elements ≠ []) : p.Writes c.statements lines := by
  obtain ⟨written, ⟨order, parts, perm, each, rfl⟩, rfl⟩ := classBody_ok h
  obtain ⟨st, rest, first⟩ := exists_cons_of_ne_nil hne
  have hst : st ∈ c.elements := first ▸ mem_cons_self
  have some_lines : parts.flatten ≠ [] := by
    intro empty
    obtain ⟨part, hpart, lines⟩ := Forall₂.exists_of_mem each
      (perm.mem_iff.mpr (mem_append_right _ hst : st ∈ c.statements))
    exact statementLines_ne_nil hst lines (flatten_eq_nil_iff.mp empty part hpart)
  rw [if_neg (by simpa using some_lines)]
  exact ⟨order, parts, perm, each, rfl⟩

end Printer

namespace Inspection

variable {α σ : Type} {s : Setting} {p q : Progress} {path : QualifiedName} {owner o : Object}
variable {members : List (String × Inspection ClassMember)} {nested : Inspection Class}

theorem ensures_gather {add : σ → α → σ} {I : σ → Prop} {P : α → Prop}
    (hadd : ∀ m a, I m → P a → I (add m a)) {steps : List (String × Inspection α)}
    (hs : ∀ x ∈ steps, Ensures s x.2 P) {m : σ} (hm : I m) : Ensures s (gather add m steps) I := by
  induction steps generalizing m with
  | nil => exact .pure hm
  | cons step steps ih =>
    obtain ⟨hx, hs⟩ := forall_mem_cons.mp hs
    exact hx.bind fun a ha => ih hs (hadd m a hm ha)

/-- What is inspected as a class at a path has the last part of the path as its name, and lines. -/
def IsClassAt (path : QualifiedName) (c : Class) : Prop := c.name = path.last ∧ c.Printable

theorem ClassStep.elim {motive : ClassMember → Prop}
    (h : ClassStep s path owner o nested p q m) (nothing : motive .nothing)
    (methods : ∀ ms, (∀ m ∈ ms, m.function.name = path.last ∧ m.modifier.rank?.isSome = true) →
      motive (.methods ms)) (aliases : ∀ a, motive (.alias a))
    (classes : ∀ c, o.isClass = true → o.name? = some path.last → nested.outcome s p = (.ok c, q) →
      motive (.nested c)) (properties : ∀ x, motive (.property x)) (docs : ∀ d, motive (.doc d))
    (fields : ∀ f, f.modifier.rank?.isSome = true → motive (.field f)) : motive m := by
  cases h with
  | hidden | misnamed | internal => exact nothing
  | @shown kind m' step same =>
    cases step with
    | @methods ms _ hms =>
      have named := (methodsOf_ok hms).1
      rcases same with rfl | ⟨ms', hms', rfl⟩
      · exact methods ms named
      · cases hms'
        refine methods _ fun m hm => ?_
        obtain ⟨m', hm', rfl⟩ := mem_map.mp hm
        have kept := Method.withEnumText_kept m' (named m' hm').2
        exact ⟨kept.1.trans (named m' hm').1, kept.2⟩
    | @«alias» a? _ _ _ =>
      rcases same with rfl | ⟨ms', hms', -⟩
      · cases a? with
        | none => exact nothing
        | some a => exact aliases a
      · cases a? <;> cases hms'
    | @nested c isClass named hc =>
      rcases same with rfl | ⟨ms', hms', -⟩
      · exact classes c isClass named hc
      · cases hms'
    | @property x? _ _ =>
      rcases same with rfl | ⟨ms', hms', -⟩
      · cases x? with
        | none => exact nothing
        | some x =>
          rcases ClassMember.withFields_property x with kept | ⟨f, hf, field⟩
          · exact kept ▸ properties x
          · exact field ▸ fields f (Property.asField?_some hf).2
      · cases x? <;> cases hms'
    | doc _ =>
      rcases same with rfl | ⟨ms', hms', -⟩
      · cases docOf o with
        | none => exact nothing
        | some d => exact docs d
      · cases hd : docOf o <;> rw [hd] at hms' <;> cases hms'
    | @field f? _ _ hf =>
      rcases same with rfl | ⟨ms', hms', -⟩
      · rcases fieldOf_ok hf with ⟨f, rfl, -, placed⟩ | ⟨rfl, -⟩
        · exact fields f placed
        · exact nothing
      · cases f? <;> cases hms'

theorem ensures_classMember (path : QualifiedName) (owner o : Object)
    (hn : Ensures s nested (IsClassAt path)) :
    Ensures s (classMember path owner o nested) ClassMember.Placed := by
  intro p q m h
  refine (classMember_ok h).elim trivial (fun ms named m hm => (named m hm).2) (fun _ => trivial)
    (fun c _ _ hc => (hn hc).2) (fun _ => trivial) (fun _ => trivial) fun f placed => placed

/-- The members of a class are inspected one after the other, in some state inside of the class. -/
theorem classBody_ok (h : (classBody path o bases members).outcome s p = (.ok c, q)) :
    ∃ names p' q', p.found <+: p'.found ∧ q'.found = q.found ∧
      (gather Class.add { name := path.last, bases := names } (inNameOrder (withDoc members
        (classMember (path.member "__doc__") o (.ofText? o.doc?)
          (throw .missingAttribute))))).outcome s p' = (.ok c, q') := by
  obtain ⟨r, layer, rfl⟩ := outcome_withLayer_ok_iff.mp h
  obtain ⟨r', inside, rfl⟩ := outcome_withClass_ok_iff.mp layer
  obtain ⟨w, p₁, look, body⟩ := bind_ok_iff.mp inside
  cases look
  obtain ⟨names, p₂, based, added⟩ := bind_ok_iff.mp body
  rw [addClassMembers_eq] at added
  have grows : Grows _ p₂ := (Composed.plain (plain_basesOf _)).keeps (keeps_grows s) based
  exact ⟨names, p₂, r', grows.found, rfl, added⟩

theorem ensures_classBody (hm : ∀ m ∈ members, Ensures s m.2 ClassMember.Placed) :
    Ensures s (classBody path o bases members) (IsClassAt path) := by
  intro p q c h
  obtain ⟨names, p', q', -, -, added⟩ := classBody_ok h
  have steps := forall_ordered (P := fun x => Ensures s x ClassMember.Placed)
    (ensures_classMember (path.member "__doc__") o (.ofText? o.doc?) (.throw .missingAttribute)) hm
  have start : Class.Placed { name := path.last, bases := names } :=
    ⟨forall_mem_nil _, forall_mem_nil _, forall_mem_nil _⟩
  have all := ensures_gather (I := fun c => c.name = path.last ∧ c.Placed)
    (fun c m hc hm => ⟨(c.name_add m).trans hc.1, hc.2.add hm⟩) steps ⟨rfl, start⟩ added
  exact ⟨all.1, all.2.printable⟩

theorem mem_inNameOrder_withDoc {members : List (String × Inspection α)} {doc : Inspection α}
    {m : String × Inspection α} (h : m ∈ members) : m ∈ inNameOrder (withDoc members doc) := by
  rw [inNameOrder, mem_sortBy, withDoc]
  split
  · exact h
  · exact .tail _ h

def classStep (d : Descent) (path : QualifiedName) (owner : Object) (name : String) (o : Object) :
    Inspection ClassMember := do
  let settled := (← settle o).readFrom owner
  classMember (path.member name) owner settled
    (if isReference o then d.classAt (path.member name) settled
      else classWith d (path.member name) o)

theorem classMembersWith_eq (d : Descent) (path : QualifiedName) (owner : Object)
    (ms : List (String × Object)) :
    classMembersWith d path owner ms = ms.map fun m => (m.1, classStep d path owner m.1 m.2) := by
  induction ms with
  | nil => rw [classMembersWith]; rfl
  | cons m ms ih => rw [classMembersWith, ih]; rfl

mutual

theorem ensures_classWith {d : Descent}
    (hd : ∀ site o, Ensures s (d.classAt site o) (IsClassAt site)) (path : QualifiedName)
    (o : Object) : Ensures s (classWith d path o) (IsClassAt path) := by
  cases o with
  | classDef identity metatype bases ms =>
    simp only [classWith]
    exact ensures_classBody (ensures_classMembersWith hd path _ ms)
  | _ =>
    simp only [classWith]
    exact .throw _

theorem ensures_classMembersWith {d : Descent}
    (hd : ∀ site o, Ensures s (d.classAt site o) (IsClassAt site)) (path : QualifiedName)
    (owner : Object) (ms : List (String × Object)) :
    ∀ m ∈ classMembersWith d path owner ms, Ensures s m.2 ClassMember.Placed := by
  match ms with
  | [] => simp [classMembersWith]
  | (name, o) :: ms =>
    simp only [classMembersWith, forall_mem_cons]
    refine ⟨.after fun settled => ensures_classMember _ _ _ (.ite (fun _ => hd _ _) fun _ => ?_),
      ensures_classMembersWith hd path owner ms⟩
    exact ensures_classWith hd (path.member name) o

end

theorem ensures_descent (n : Nat) (path : QualifiedName) (o : Object) :
    Ensures s ((descent n).classAt path o) (IsClassAt path) := by
  induction n generalizing path o with
  | zero => exact .throw _
  | succ n ih => exact ensures_classWith ih path o

/-- Members of classes with these names are left out, whatever they are. -/
def IsFilteredName (name : String) : Prop :=
  name ∈ hiddenClassMembers ∨ name = "__doc__" ∨ isInternalMember name = true

instance (name : String) : Decidable (IsFilteredName name) :=
  inferInstanceAs (Decidable (_ ∨ _ ∨ _))

/-- The rules that leave a member of a class out for what it is. -/
inductive IsFiltered (s : Setting) (path : QualifiedName) (o : Object) : Prop
  | method : o.isRoutine = true → path.last ∈ hiddenMethods → IsFiltered s path o
  | inherited {p q : Progress} {fs : List Function} : o.isRoutine = true → path.last = "__init__" →
      (functionsOf path o).outcome s p = (.ok fs, q) →
      (∀ f ∈ fs, f.doc = some inheritedInitDoc) → IsFiltered s path o
  | field : o.isRoutine = false → path.last ∈ hiddenAttributes → IsFiltered s path o
  | typing : o.isRoutine = false → Typing.binds path.last o = true → IsFiltered s path o

/-- What has neither a statement nor a report although no rule leaves it out: an alias of a class of
the future, and what takes over the access to a member without a function that reads it. -/
inductive IsUnreadable (w : World) (o : Object) : Prop
  | future : o.isClass = true → o.moduleName? = some "__future__" → IsUnreadable w o
  | access : (w.has o "__get__" || w.has o "__set__") = true →
      (∀ getter setter doc, o ≠ .property (some getter) setter doc) → IsUnreadable w o

/-- A member of a class brings a statement that binds its name, unless it is left out, reported or
unreadable. -/
theorem classStep_shown {d : Descent} {name : String} {x : Object}
    (hd : ∀ site o, Ensures s (d.classAt site o) (IsClassAt site))
    (own : hasOwnMember owner name = true) (valid : isIdentifier name = true)
    (h : (classStep d path owner name x).outcome s p = (.ok m, q)) :
    (∃ st ∈ m.elements, st.bound? = some name) ∨ IsFilteredName name ∨
      IsFiltered s (path.member name) ((s.world.settle x).readFrom owner) ∨
      OriginReported (path.member name) ((s.world.settle x).readFrom owner) (newProblems p q) ∨
      IsUnreadable s.world ((s.world.settle x).readFrom owner) := by
  obtain ⟨settled, r, look, step⟩ := bind_ok_iff.mp h
  cases look
  generalize ho : (s.world.settle x).readFrom owner = o at step ⊢
  have last := QualifiedName.last_member path name
  cases classMember_ok step with
  | hidden out =>
    rw [last] at out
    rcases out with hidden | missing
    · exact .inr (.inl (.inl hidden))
    · exact (Bool.false_ne_true (missing.symm.trans own)).elim
  | misnamed invalid =>
    rw [last] at invalid
    exact (Bool.false_ne_true (invalid.symm.trans valid)).elim
  | internal hidden => exact .inr (.inl (.inr (.inr (last ▸ hidden))))
  | @shown kind m' byKind same =>
    cases byKind with
    | @methods ms routine hms =>
      obtain ⟨each, none⟩ := methodsOf_ok hms
      cases ms with
      | nil =>
        rcases none rfl with hidden | ⟨init, p', q', fs, hfs, inherited⟩
        · exact .inr (.inr (.inl (.method routine hidden)))
        · exact .inr (.inr (.inl (.inherited routine init hfs inherited)))
      | cons f fs =>
        obtain ⟨named, placed⟩ := each f mem_cons_self
        rw [last] at named
        rcases same with rfl | ⟨ms', hms', rfl⟩
        · exact .inl ⟨_, mem_cons_self, congrArg some named⟩
        · cases hms'
          exact .inl ⟨_, mem_cons_self,
            congrArg some ((Method.withEnumText_kept f placed).1.trans named)⟩
    | @«alias» a? routine shown ha =>
      rcases aliasOf_ok ha with ⟨a, rfl, named⟩ | ⟨rfl, future | reported⟩
      · rcases same with rfl | ⟨ms', hms', -⟩
        · exact .inl ⟨_, mem_cons_self, congrArg some (named.trans last)⟩
        · cases hms'
      · rcases shown with isClass | isModule
        · exact .inr (.inr (.inr (.inr (.future isClass future))))
        · cases o with
          | moduleDef => cases future
          | _ => cases isModule
      · exact .inr (.inr (.inr (.inl reported)))
    | @nested c _ _ hc =>
      have nested : IsClassAt (path.member name) c := Ensures.ite (fun _ => hd _ _)
        (fun _ => ensures_classWith hd (path.member name) x) hc
      rcases same with rfl | ⟨ms', hms', -⟩
      · exact .inl ⟨_, mem_cons_self, congrArg some (nested.1.trans last)⟩
      · cases hms'
    | @property x? access hx =>
      obtain ⟨named, read⟩ := propertyOf_ok hx
      by_cases readable : ∃ getter setter doc, o = .property (some getter) setter doc
      · obtain ⟨getter, setter, doc, hp⟩ := readable
        obtain ⟨x, rfl, hg⟩ := read getter setter doc hp
        have named := (named x rfl).trans last
        rcases same with rfl | ⟨ms', hms', -⟩
        · refine .inl ?_
          change ∃ st ∈ ((ClassMember.property x).withFields).elements, _
          rcases ClassMember.withFields_property x with kept | ⟨f, hf, field⟩
          · rw [kept, ClassMember.elements, if_pos hg]
            exact ⟨_, mem_cons_self, congrArg some named⟩
          · rw [field]
            exact ⟨_, mem_cons_self, congrArg some ((Property.asField?_some hf).1.trans named)⟩
        · cases hms'
      · exact .inr (.inr (.inr (.inr (.access access fun g st d h => readable ⟨g, st, d, h⟩))))
    | doc hdoc => exact .inr (.inl (.inr (.inl (last ▸ hdoc))))
    | @field f? routine _ hf =>
      rcases fieldOf_ok hf with ⟨f, rfl, named, -⟩ | ⟨rfl, typing | hidden⟩
      · rcases same with rfl | ⟨ms', hms', -⟩
        · exact .inl ⟨_, mem_cons_self, congrArg some (named.trans last)⟩
        · cases hms'
      · exact .inr (.inr (.inl (.typing routine typing)))
      · exact .inr (.inr (.inl (.field routine hidden)))

/-- No member of a class is lost silently: the body of the class can be written, and it binds every
name of the class, unless the member is left out, reported or unreadable. -/
structure ShowsMembers (s : Setting) (p q : Progress) (path : QualifiedName) (o : Object)
    (c : Class) : Prop where
  written (printer : Printer) : ∃ lines, printer.classBody c = .ok lines ∧
    (c.elements ≠ [] → printer.Writes c.statements lines)
  shown {name : String} : hasOwnMember o name = true → isIdentifier name = true →
    (∃ st ∈ c.elements, st.bound? = some name) ∨ IsFilteredName name ∨
      ∃ x, (name, x) ∈ o.members ∧
        (IsFiltered s (path.member name) ((s.world.settle x).readFrom o) ∨
          OriginReported (path.member name) ((s.world.settle x).readFrom o) (newProblems p q) ∨
          IsUnreadable s.world ((s.world.settle x).readFrom o))

/-- Every member of a class has its step in the inspection of the class, and what it brings is in
the stub. -/
theorem classWith_takes {n : Nat} {identity : Identity} {metatype : TypeName}
    {ms : List (String × Object)} (ho : o = .classDef identity metatype bases ms)
    (h : (classWith (descent n) path o).outcome s p = (.ok c, q)) {name : String} {x : Object}
    (hx : (name, x) ∈ ms) :
    ∃ m p' q', (classStep (descent n) path o name x).outcome s p' = (.ok m, q') ∧
      newProblems p' q' ⊆ newProblems p q ∧ m.elements ⊆ c.elements := by
  subst ho
  simp only [classWith] at h
  obtain ⟨names, p₁, q₁, before, after, added⟩ := classBody_ok h
  obtain ⟨members, rfl, each⟩ := gather_ok (forall_ordered
    (.enclosed (enclosed_classMember _ _ _ (.plain (.throw .missingAttribute))))
    fun m hm => .enclosed (enclosed_classMembersWith (composed_descent n) path _ ms m hm)) added
  rw [classMembersWith_eq] at each
  obtain ⟨m, hm, -, p₂, q₂, grows, outcome, grows'⟩ :=
    Forall₂.exists_of_mem each (mem_inNameOrder_withDoc (mem_map_of_mem hx))
  refine ⟨m.2, p₂, q₂, outcome, ?_, fun st hst => ?_⟩
  · exact newProblems_mono (before.trans grows.found) (after ▸ grows'.found)
  · exact Class.mem_elements_foldl_add.mpr (.inr ⟨m, hm, hst⟩)

/-- No member of a class is lost silently: its body binds the name of the member or a rule leaves the
member out, or no origin can be written for it and that is reported. Only aliases of classes of the
future and objects that cannot be read are not mentioned at all. -/
theorem classOf_shows_members {identity : Identity} {metatype : TypeName}
    {bases : List QualifiedName} {ms : List (String × Object)} {c : Class}
    (h : (classOf path (.classDef identity metatype bases ms)).outcome s p = (.ok c, q)) :
    ShowsMembers s p q path (.classDef identity metatype bases ms) c := by
  obtain ⟨w, p', look, inside⟩ := bind_ok_iff.mp h
  cases look
  refine ⟨fun printer => ?_, fun {name} own valid => ?_⟩
  · obtain ⟨lines, hlines⟩ := (ensures_classWith (ensures_descent _) path _ inside).2 printer
    exact ⟨lines, hlines, Printer.classBody_writes hlines⟩
  rcases Bool.or_eq_true_iff.mp own with described | implicit
  · obtain ⟨⟨name', x⟩, hx, named⟩ := any_eq_true.mp described
    obtain rfl : name' = name := of_decide_eq_true named
    obtain ⟨m, p', q', outcome, problems, elements⟩ := classWith_takes rfl inside hx
    rcases classStep_shown (ensures_descent _) own valid outcome with
      ⟨st, hst, bound⟩ | filtered | rest
    · exact .inl ⟨st, elements hst, bound⟩
    · exact .inr (.inl filtered)
    · refine .inr (.inr ⟨x, hx, rest.imp_right fun rest => ?_⟩)
      exact rest.imp_left fun reported => reported.mono problems
  · have filtered : ∀ name ∈ Implicit.inClassDictionary, IsFilteredName name := by
      simp [Implicit.inClassDictionary, IsFilteredName, hiddenClassMembers]
    exact .inr (.inl (filtered name (contains_iff_mem.mp implicit)))

/-- A class with a method, a class that does not say where it was defined, a property and a value. -/
def shape : Object := .classDef
  { name? := some "Shape", qualified? := some "Shape", module? := some "m" } (.builtin "type") []
  [("area", .routine .function { name? := some "area", qualified? := some "Shape.area" } none),
    ("corner", .classDef { name? := some "Corner", module? := some "m" } (.builtin "type") [] []),
    ("side", .property (some (.routine .native {} none)) none none),
    ("sides", .int 4)]

/-- A class with an alias of a class of the future, and with an object that takes over the access to
a member and has no function that reads it. -/
def silent : Object := .classDef
  { name? := some "Silent", qualified? := some "Silent", module? := some "m" } (.builtin "type") []
  [("division", .classDef
      { name? := some "Feature", qualified? := some "Feature", module? := some "__future__" }
      (.builtin "type") [] []),
    ("slot", .descriptor {} true true)]

def worldOfClass (name : String) (o : Object) : Setting :=
  ⟨{}, .ofModules [.moduleDef "m" none [(name, o)]]⟩

/-- Three members are shown, and the fourth is reported. -/
theorem shape_shows_members : ∃ c q,
    (classOf ⟨["m", "Shape"]⟩ shape).outcome (worldOfClass "Shape" shape) {} = (.ok c, q) ∧
      c.elements.filterMap Statement.bound? = ["sides", "area", "side"] ∧
      newProblems {} q = [.name ⟨["m", "Shape", "corner"]⟩] ∧
      ShowsMembers (worldOfClass "Shape" shape) {} q ⟨["m", "Shape"]⟩ shape c := by
  have result : ((classOf ⟨["m", "Shape"]⟩ shape).outcome (worldOfClass "Shape" shape) {}).1.toOption.map
      (·.elements.filterMap Statement.bound?) = some ["sides", "area", "side"] := by
    rw [worldOfClass, World.ofModules_eq]
    decide +kernel
  have found : newProblems {} ((classOf ⟨["m", "Shape"]⟩ shape).outcome
      (worldOfClass "Shape" shape) {}).2 = [.name ⟨["m", "Shape", "corner"]⟩] := by
    rw [worldOfClass, World.ofModules_eq]
    decide +kernel
  rcases h : (classOf ⟨["m", "Shape"]⟩ shape).outcome (worldOfClass "Shape" shape) {} with ⟨e | c, q⟩
  · rw [h] at result
    cases result
  · rw [h] at result found
    exact ⟨c, q, rfl, Option.some.inj result, found, classOf_shows_members h⟩

/-- Nothing is said of two members that no rule leaves out. -/
theorem silent_members_lost : ∃ c q,
    (classOf ⟨["m", "Silent"]⟩ silent).outcome (worldOfClass "Silent" silent) {} = (.ok c, q) ∧
      c.elements = [] ∧ newProblems {} q = [] ∧
      ∀ m ∈ silent.members, hasOwnMember silent m.1 = true ∧ isIdentifier m.1 = true ∧
        ¬ IsFilteredName m.1 ∧
        ¬ IsFiltered (worldOfClass "Silent" silent) ((QualifiedName.mk ["m", "Silent"]).member m.1)
          (((worldOfClass "Silent" silent).world.settle m.2).readFrom silent) := by
  have result : ((classOf ⟨["m", "Silent"]⟩ silent).outcome
      (worldOfClass "Silent" silent) {}).1.toOption.map (·.elements.length) = some 0 := by
    rw [worldOfClass, World.ofModules_eq]
    decide +kernel
  have found : newProblems {} ((classOf ⟨["m", "Silent"]⟩ silent).outcome
      (worldOfClass "Silent" silent) {}).2 = [] := by
    rw [worldOfClass, World.ofModules_eq]
    decide +kernel
  have plain : ∀ m ∈ silent.members, hasOwnMember silent m.1 = true ∧ isIdentifier m.1 = true ∧
      ¬ IsFilteredName m.1 ∧
      (((worldOfClass "Silent" silent).world.settle m.2).readFrom silent).isRoutine = false ∧
      m.1 ∉ hiddenAttributes ∧ Typing.binds m.1
        (((worldOfClass "Silent" silent).world.settle m.2).readFrom silent) = false := by
    rw [worldOfClass, World.ofModules_eq]
    decide +kernel
  rcases h : (classOf ⟨["m", "Silent"]⟩ silent).outcome (worldOfClass "Silent" silent) {} with
    ⟨e | c, q⟩
  · rw [h] at result
    cases result
  · rw [h] at result found
    refine ⟨c, q, rfl, length_eq_zero_iff.mp (Option.some.inj result), found, fun m hm => ?_⟩
    obtain ⟨own, valid, name, routine, hidden, typing⟩ := plain m hm
    refine ⟨own, valid, name, fun filtered => ?_⟩
    cases filtered with
    | method h _ | inherited h _ _ _ => exact Bool.false_ne_true (routine.symm.trans h)
    | field _ h => exact hidden (QualifiedName.last_member _ m.1 ▸ h)
    | typing _ h => exact Bool.false_ne_true (typing.symm.trans (QualifiedName.last_member _ m.1 ▸ h))

end Inspection

end TypeStubs
