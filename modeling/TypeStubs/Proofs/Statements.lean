import Mathlib.Data.List.Forall2
import Mathlib.Data.List.Perm.Basic
import TypeStubs.Proofs.Scope

/-! The statements that the text of a stub is made of, and the names that they bind. The printer
writes the statements of a module or of a class body one after the other, each once. -/

namespace TypeStubs

open List

variable {lines : List String} {cs : List Class}

/-- A statement in a module or in the body of a class. -/
inductive Statement where
  | docstring (text : String)
  | importing (i : Import)
  | subModule (name : String)
  | typeVariable (t : TypeVariable)
  | attr (a : Attribute)
  | alias (a : Alias)
  | function (f : Function)
  | method (m : Method)
  | property (p : Property)
  | classDef (c : Class)

/-- The name that a statement binds. -/
def Statement.bound? : Statement → Option String
  | .docstring _ => none
  | .importing i => some i.bound
  | .subModule name => some name
  | .typeVariable t => some t.name
  | .attr a => some a.name
  | .alias a => some a.name
  | .function f => some f.name
  | .method m => some m.function.name
  | .property p => some p.name
  | .classDef c => some c.name

def Printer.statementLines (p : Printer) : Statement → Except PrintError (List String)
  | .docstring text => .ok (p.docstringLines text)
  | .importing i => .ok [p.importLine i]
  | .subModule name => .ok [p.subModuleLine name]
  | .typeVariable t => .ok [t.display]
  | .attr a => .ok [p.attributeLine a]
  | .alias a => .ok [p.aliasLine a]
  | .function f => .ok (p.functionLines f)
  | .method m => p.methodLines m
  | .property x => .ok (p.propertyLines x)
  | .classDef c => p.classLines c

def Module.elements (m : Module) : List Statement :=
  m.imports.map .importing ++ m.subModules.map (.subModule ·.name) ++
    m.typeVariables.map .typeVariable ++ m.classes.map .classDef ++ m.functions.map .function ++
    m.attributes.map .attr ++ m.aliases.map .alias

def Module.statements (m : Module) : List Statement := m.doc.toList.map .docstring ++ m.elements

/-- The statements of the body of a class that bind names. A property without a getter has none. -/
def Class.elements (c : Class) : List Statement :=
  c.classes.map .classDef ++ c.fields.map (.attr ·.attr) ++ c.aliases.map .alias ++
    c.methods.map .method ++ (c.properties.filter (·.getter.isSome)).map .property

def Class.statements (c : Class) : List Statement := c.doc.toList.map .docstring ++ c.elements

/-! Sorting. -/

theorem insertSorted_perm {α : Type} (le : α → α → Bool) (x : α) (ys : List α) :
    (insertSorted le x ys).Perm (x :: ys) := by
  induction ys with
  | nil => exact .refl _
  | cons y ys ih =>
    unfold insertSorted
    split
    · exact .refl _
    · exact (ih.cons y).trans (.swap x y ys)

theorem sortBy_perm {α : Type} (le : α → α → Bool) (xs : List α) : (sortBy le xs).Perm xs := by
  induction xs with
  | nil => exact .refl _
  | cons x xs ih => exact (insertSorted_perm le x _).trans (ih.cons x)

theorem sortByName_perm {α : Type} (name : α → String) (xs : List α) :
    (sortByName name xs).Perm xs :=
  sortBy_perm _ xs

theorem mapM_ok_iff {ε α β : Type} {f : α → Except ε β} {xs : List α} {ys : List β} :
    xs.mapM f = .ok ys ↔ Forall₂ (fun x y => f x = .ok y) xs ys := by
  induction xs generalizing ys with
  | nil =>
    rw [mapM_nil, forall₂_nil_left_iff]
    exact ⟨fun h => (Except.ok.inj h).symm, fun h => h ▸ rfl⟩
  | cons x xs ih =>
    rw [mapM_cons, forall₂_cons_left_iff]
    constructor
    · intro h
      obtain ⟨y, first, h⟩ := bind_ok h
      obtain ⟨ys, rest, h⟩ := bind_ok h
      cases h
      exact ⟨y, ys, first, ih.mp rest, rfl⟩
    · rintro ⟨y, ys, first, rest, rfl⟩
      rw [first, ih.mpr rest]
      rfl

theorem Forall₂.map_eq_map {α β γ : Type} {R : α → β → Prop} {f : α → γ} {g : β → γ}
    {xs : List α} {ys : List β} (h : Forall₂ R xs ys) (hR : ∀ x y, R x y → f x = g y) :
    xs.map f = ys.map g := by
  rw [← forall₂_eq_eq_eq, forall₂_map_left_iff, forall₂_map_right_iff]
  exact h.imp hR

theorem Forall₂.exists_of_mem {α β : Type} {R : α → β → Prop} {xs : List α} {ys : List β}
    (h : Forall₂ R xs ys) {x : α} (hx : x ∈ xs) : ∃ y ∈ ys, R x y := by
  induction h with
  | nil => cases hx
  | cons hxy _ ih =>
    cases hx with
    | head => exact ⟨_, mem_cons_self, hxy⟩
    | tail _ hx =>
      obtain ⟨y, hy, hr⟩ := ih hx
      exact ⟨y, .tail _ hy, hr⟩

section

variable {α : Type} {modifier : α → Modifier} {name : α → String} {xs ys : List α}

def ranked (modifier : α → Modifier) (x : α) : Except PrintError (Nat × α) :=
  match (modifier x).rank? with
  | some r => .ok (r, x)
  | none => .error .unplacedModifier

theorem sortMembers_eq (modifier : α → Modifier) (name : α → String) (xs : List α) :
    sortMembers modifier name xs = (xs.mapM (ranked modifier)).map fun pairs =>
      (sortBy (fun a b => a.1 < b.1 || (a.1 == b.1 && decide (name a.2 ≤ name b.2))) pairs).map
        (·.2) := rfl

theorem ranked_ok {x : α} {pair : Nat × α} (h : ranked modifier x = .ok pair) : pair.2 = x := by
  unfold ranked at h
  split at h
  · cases h
    rfl
  · cases h

theorem sortMembers_perm (h : sortMembers modifier name xs = .ok ys) : ys.Perm xs := by
  rw [sortMembers_eq] at h
  obtain ⟨pairs, hr, rfl⟩ := map_ok h
  have same : pairs.map (·.2) = xs := by
    have each := mapM_ok_iff.mp hr
    clear h hr
    induction each with
    | nil => rfl
    | cons hx _ ih => rw [map_cons, ih, ranked_ok hx]
  rw [← same]
  exact (sortBy_perm _ pairs).map _

def Modifier.rank (m : Modifier) : Nat := m.rank?.getD 0

/-- The order of members in a class body: by the rank of the modifier, then by name. -/
def mayPrecede (modifier : α → Modifier) (name : α → String) (a b : α) : Bool :=
  (modifier a).rank < (modifier b).rank ||
    ((modifier a).rank == (modifier b).rank && decide (name a ≤ name b))

theorem sortMembers_of_placed (modifier : α → Modifier) (name : α → String)
    (h : ∀ x ∈ xs, (modifier x).rank?.isSome = true) :
    sortMembers modifier name xs = .ok (sortBy (mayPrecede modifier name) xs) := by
  have pairs : xs.mapM (ranked modifier) = .ok (xs.map fun x => ((modifier x).rank, x)) := by
    refine mapM_ok_iff.mpr ?_
    induction xs with
    | nil => exact .nil
    | cons x xs ih =>
      obtain ⟨r, hr⟩ := Option.isSome_iff_exists.mp (h x mem_cons_self)
      refine .cons ?_ (ih fun y hy => h y (.tail _ hy))
      simp only [ranked, Modifier.rank, hr, Option.getD_some]
  rw [sortMembers_eq, pairs]
  simp only [Except.map, sortBy_map, map_map]
  exact congrArg Except.ok (map_id _)

theorem exists_sortMembers (modifier : α → Modifier) (name : α → String)
    (h : ∀ x ∈ xs, (modifier x).rank?.isSome = true) :
    ∃ ys, sortMembers modifier name xs = .ok ys :=
  ⟨_, sortMembers_of_placed modifier name h⟩

end

namespace Printer

variable {p : Printer} {statements : List Statement} {named : List (String × List String)}
variable {statements' : List Statement}

def Writes (p : Printer) (statements : List Statement) (lines : List String) : Prop :=
  ∃ order parts, order.Perm statements ∧
    Forall₂ (fun st part => p.statementLines st = .ok part) order parts ∧
    lines = parts.flatten

section

variable (h : p.Writes statements lines)
include h

theorem Writes.append {lines' : List String} (h' : p.Writes statements' lines') :
    p.Writes (statements ++ statements') (lines ++ lines') := by
  obtain ⟨order, parts, perm, written, rfl⟩ := h
  obtain ⟨order', parts', perm', written', rfl⟩ := h'
  exact ⟨order ++ order', parts ++ parts', perm.append perm', rel_append written written',
    flatten_append.symm⟩

theorem Writes.perm (hp : statements.Perm statements') :
    p.Writes statements' lines := by
  obtain ⟨order, parts, perm, written, rfl⟩ := h
  exact ⟨order, parts, perm.trans hp, written, rfl⟩

theorem Writes.mem {line : String} (hl : line ∈ lines) :
    ∃ st ∈ statements, ∃ part, p.statementLines st = .ok part ∧ line ∈ part := by
  obtain ⟨order, parts, perm, written, rfl⟩ := h
  obtain ⟨part, hp, hline⟩ := mem_flatten.mp hl
  obtain ⟨st, hs, hst⟩ := Forall₂.exists_of_mem written.flip hp
  exact ⟨st, perm.mem_iff.mp hs, part, hst, hline⟩

end

theorem writes_flatMap {α : Type} {f : α → Statement} {g : α → List String}
    (h : ∀ a, p.statementLines (f a) = .ok (g a)) {xs ys : List α} (hp : ys.Perm xs) :
    p.Writes (xs.map f) (ys.flatMap g) := by
  refine ⟨ys.map f, ys.map g, hp.map f, ?_, flatMap_def⟩
  rw [forall₂_map_left_iff, forall₂_map_right_iff]
  exact forall₂_same.mpr fun a _ => h a

theorem writes_map {α : Type} {f : α → Statement} {g : α → String}
    (h : ∀ a, p.statementLines (f a) = .ok [g a]) {xs ys : List α} (hp : ys.Perm xs) :
    p.Writes (xs.map f) (ys.map g) := by
  have single := writes_flatMap h hp
  rwa [← map_eq_flatMap] at single

theorem writes_docstring (doc : Option String) :
    p.Writes (doc.toList.map .docstring) (p.optionalDocstring doc) := by
  cases doc with
  | none => exact ⟨[], [], .refl _, .nil, rfl⟩
  | some text =>
    exact ⟨[.docstring text], [p.docstringLines text], .refl _, .cons rfl .nil, (append_nil _).symm⟩

theorem classLines_eq (c : Class) : p.classLines c = (p.classBody c).map fun body =>
    ("class " ++ c.name ++ (if c.bases.isEmpty then "" else
      "(" ++ joinWith ", " (c.bases.map (·.text)) ++ ")") ++ ":") :: indentLines body := by
  simp only [classLines, namedClasses]
  cases p.classBody c with
  | error e => rfl
  | ok body => simp [Except.map, bind, Except.bind, pure, Except.pure]

theorem namedClasses_eq (cs : List Class) :
    p.namedClasses cs = cs.mapM fun c => (p.classLines c).map (c.name, ·) := by
  induction cs with
  | nil => rw [namedClasses, mapM_nil]; rfl
  | cons c cs ih =>
    rw [namedClasses, mapM_cons, classLines_eq, ih]
    cases p.classBody c <;> rfl

theorem namedClasses_ok_iff : p.namedClasses cs = .ok named ↔
      Forall₂ (fun c n => p.classLines c = .ok n.2 ∧ n.1 = c.name) cs named := by
  have single (c : Class) (n : String × List String) :
      (p.classLines c).map (c.name, ·) = .ok n ↔ p.classLines c = .ok n.2 ∧ n.1 = c.name := by
    cases p.classLines c with
    | error e => simp [Except.map]
    | ok lines =>
      simp only [Except.map, Except.ok.injEq, Prod.ext_iff, eq_comm (a := c.name)]
      exact and_comm
  rw [namedClasses_eq, mapM_ok_iff]
  simp only [single]

theorem writes_classes {named' : List (String × List String)}
    (h : p.namedClasses cs = .ok named) (hp : named'.Perm named) :
    p.Writes (cs.map .classDef) (named'.flatMap (·.2)) := by
  have both : Relation.Comp (Forall₂ fun c n => p.classLines c = .ok n.2 ∧ n.1 = c.name)
      Perm cs named' := ⟨named, namedClasses_ok_iff.mp h, hp.symm⟩
  rw [forall₂_comp_perm_eq_perm_comp_forall₂] at both
  obtain ⟨order, perm, written⟩ := both
  refine ⟨order.map .classDef, named'.map (·.2), (perm.map _).symm, ?_, flatMap_def⟩
  rw [forall₂_map_left_iff, forall₂_map_right_iff]
  exact written.imp fun _ _ h => h.1

end Printer

def Class.Printable (c : Class) : Prop := ∀ p : Printer, ∃ lines, p.classBody c = .ok lines

namespace Printer

variable {p : Printer} {m : Module}

theorem exists_namedClasses (h : ∀ c ∈ cs, c.Printable) :
    ∃ named, p.namedClasses cs = .ok named := by
  induction cs with
  | nil => exact ⟨[], by rw [namedClasses]⟩
  | cons c cs ih =>
    obtain ⟨body, hbody⟩ := h c mem_cons_self p
    obtain ⟨rest, hrest⟩ := ih fun c hc => h c (.tail _ hc)
    rw [namedClasses, hbody, hrest]
    exact ⟨_, rfl⟩

theorem head?_toList {α : Type} {xs : List α} (h : xs.length ≤ 1) : xs.head?.toList = xs := by
  match xs, h with
  | [], _ => rfl
  | [_], _ => rfl

theorem listed_perm {attributes : List Attribute}
    (h : (attributes.filter (·.name == "__all__")).length ≤ 1) :
    ((attributes.find? (·.name == "__all__")).toList ++
      attributes.filter (·.name != "__all__")).Perm attributes := by
  rw [← head?_filter, head?_toList h]
  exact filter_append_perm _ _

/-- The statements of a module in the order of their kinds. The list of public names comes before
the other attributes. -/
def inWritingOrder (m : Module) : List Statement :=
  let attributes := sortByName Attribute.name m.attributes
  m.doc.toList.map .docstring ++ m.imports.map .importing ++
    m.subModules.map (.subModule ·.name) ++
    (attributes.find? (·.name == "__all__")).toList.map .attr ++
    m.typeVariables.map .typeVariable ++ m.classes.map .classDef ++ m.functions.map .function ++
    (attributes.filter (·.name != "__all__")).map .attr ++ m.aliases.map .alias

theorem moduleLines_inWritingOrder
    (h : p.moduleLines m = .ok lines) : p.Writes (inWritingOrder m) lines := by
  obtain ⟨named, hc, h⟩ := bind_ok h
  cases h
  have doc := writes_docstring (p := p) m.doc
  have imports := writes_map (p := p) (f := .importing) (fun _ => rfl)
    (sortBy_perm Import.le m.imports)
  have subModules := writes_map (p := p) (f := fun n : Module => .subModule n.name) (fun _ => rfl)
    (.refl m.subModules)
  have listed := writes_map (p := p) (f := .attr) (fun _ => rfl)
    (.refl ((sortByName Attribute.name m.attributes).find? (·.name == "__all__")).toList)
  have typeVariables := writes_map (p := p) (f := .typeVariable) (fun _ => rfl)
    (sortByName_perm TypeVariable.name m.typeVariables)
  have classes := writes_classes hc (sortByName_perm (·.1) named)
  have functions := writes_flatMap (p := p) (f := .function) (fun _ => rfl)
    (sortByName_perm Function.name m.functions)
  have unlisted := writes_map (p := p) (f := .attr) (fun _ => rfl)
    (.refl ((sortByName Attribute.name m.attributes).filter (·.name != "__all__")))
  have aliases := writes_map (p := p) (f := .alias) (fun _ => rfl) (.refl m.aliases)
  rw [Option.toList_map]
  exact (((((((doc.append imports).append subModules).append listed).append
    typeVariables).append classes).append functions).append unlisted).append aliases

theorem moduleLines_ok (hl : (m.attributes.filter (·.name == "__all__")).length ≤ 1)
    (h : p.moduleLines m = .ok lines) : p.Writes m.statements lines := by
  have sorted := sortByName_perm Attribute.name m.attributes
  have single : ((sortByName Attribute.name m.attributes).filter
      (·.name == "__all__")).length ≤ 1 := by
    rw [(sorted.filter _).length_eq]
    exact hl
  refine (moduleLines_inWritingOrder h).perm ?_
  -- All statements stand in their place but the attributes, which are in two parts.
  have attributes := ((listed_perm single).trans sorted).map Statement.attr
  classical
  rw [perm_iff_count]
  intro st
  have count := attributes.count_eq st
  simp only [inWritingOrder, Module.statements, Module.elements, map_append,
    count_append] at count ⊢
  omega

theorem exists_moduleLines (h : ∀ c ∈ m.classes, c.Printable) :
    ∃ lines, p.moduleLines m = .ok lines := by
  obtain ⟨named, hnamed⟩ := exists_namedClasses (p := p) h
  rw [moduleLines, hnamed]
  exact ⟨_, rfl⟩

theorem exists_methodLines (ms : List Method) (h : ∀ m ∈ ms, m.modifier.rank?.isSome = true) :
    ∃ parts, ms.mapM p.methodLines = .ok parts := by
  induction ms with
  | nil => exact ⟨[], rfl⟩
  | cons m ms ih =>
    obtain ⟨parts, hparts⟩ := ih fun m hm => h m (.tail _ hm)
    have first : ∃ lines, p.methodLines m = .ok lines := by
      unfold methodLines
      cases hm : m.modifier with
      | plain | static | classwide => exact ⟨_, rfl⟩
      | other label =>
        have placed := h m mem_cons_self
        rw [hm] at placed
        cases placed
    obtain ⟨lines, hlines⟩ := first
    rw [mapM_cons, hlines, hparts]
    exact ⟨_, rfl⟩

theorem writes_methods {ms ms' : List Method} {parts : List (List String)}
    (h : ms'.mapM p.methodLines = .ok parts) (hp : ms'.Perm ms) :
    p.Writes (ms.map .method) parts.flatten := by
  refine ⟨ms'.map .method, parts, hp.map _, ?_, rfl⟩
  rw [forall₂_map_left_iff]
  exact mapM_ok_iff.mp h

theorem flatMap_propertyLines (ps : List Property) :
    ps.flatMap p.propertyLines = (ps.filter (·.getter.isSome)).flatMap p.propertyLines := by
  induction ps with
  | nil => rfl
  | cons x ps ih =>
    cases hg : x.getter with
    | none => simp [ih, hg, propertyLines]
    | some g => simp [ih, hg]

/-- The body of a class is written by writing its statements. Without any it says so. -/
theorem classBody_ok {c : Class} (h : p.classBody c = .ok lines) :
    ∃ written, p.Writes c.statements written ∧
      lines = if written.isEmpty then ["pass"] else written := by
  obtain ⟨name, doc, bases, classes, fields, methods, properties, aliases⟩ := c
  rw [classBody] at h
  obtain ⟨named, hc, h⟩ := bind_ok h
  obtain ⟨fields', hf, h⟩ := bind_ok h
  obtain ⟨methods', hm, h⟩ := bind_ok h
  obtain ⟨parts, hl, h⟩ := bind_ok h
  refine ⟨_, ?_, (Except.ok.inj h).symm⟩
  have doc := writes_docstring (p := p) doc
  have classes := writes_classes hc (sortByName_perm (·.1) named)
  have fields := writes_map (p := p) (f := fun f : Field => .attr f.attr) (fun _ => rfl)
    (sortMembers_perm hf)
  have aliases := writes_map (p := p) (f := .alias) (fun _ => rfl)
    (sortByName_perm Alias.name aliases)
  have methods := writes_methods hl (sortMembers_perm hm)
  have properties := writes_flatMap (p := p) (f := .property) (fun _ => rfl)
    ((sortByName_perm Property.name properties).filter (·.getter.isSome))
  rw [← flatMap_propertyLines] at properties
  have all := ((((doc.append classes).append fields).append aliases).append methods).append
    properties
  simpa only [Class.statements, Class.elements, append_assoc] using all

end Printer

theorem Class.printable_of_placed {c : Class} (hc : ∀ n ∈ c.classes, n.Printable)
    (hf : ∀ f ∈ c.fields, f.modifier.rank?.isSome = true)
    (hm : ∀ m ∈ c.methods, m.modifier.rank?.isSome = true) : c.Printable := by
  intro p
  obtain ⟨name, doc, bases, classes, fields, methods, properties, aliases⟩ := c
  obtain ⟨named, hnamed⟩ := Printer.exists_namedClasses (p := p) hc
  obtain ⟨fields', hfields⟩ := exists_sortMembers Field.modifier (·.attr.name) hf
  obtain ⟨methods', hmethods⟩ := exists_sortMembers Method.modifier (·.function.name) hm
  obtain ⟨parts, hparts⟩ := Printer.exists_methodLines (p := p) methods' fun m h =>
    hm m ((sortMembers_perm hmethods).mem_iff.mp h)
  rw [Printer.classBody, hnamed, hfields, hmethods]
  simp only [bind, Except.bind, hparts]
  exact ⟨_, rfl⟩

end TypeStubs
