import Mathlib.Data.List.Lex
import Mathlib.Data.List.Nodup
import Mathlib.Data.Prod.Lex
import Mathlib.Data.String.Basic
import TypeStubs.Proofs.MethodOrder

/-! The lines of a stub do not depend on the order in which its members were collected. What is
sorted before it is printed may stand in any order, and members with equal keys only in the order
they have among each other. -/

namespace TypeStubs

open List

variable {cs cs' : List Class}

/-! Lists that are sorted to the same list. -/

section

variable {α κ : Type} [DecidableEq κ] {key : α → κ} {xs ys : List α}

/-- The second list is a permutation of the first in which the elements with equal keys keep their
order. -/
structure Reordered (key : α → κ) (xs ys : List α) : Prop where
  perm : xs.Perm ys
  inOrder : ∀ k, xs.filter (key · = k) = ys.filter (key · = k)

theorem Reordered.of_distinct (perm : xs.Perm ys)
    (distinct : (xs.map key).Nodup) : Reordered key xs ys := by
  refine ⟨perm, fun k => ?_⟩
  have kept := perm.filter (key · = k)
  have single : (xs.filter (key · = k)).length ≤ 1 := by
    have count := nodup_iff_count_le_one.mp distinct k
    rw [count_eq_countP, countP_map, countP_eq_length_filter] at count
    exact count
  cases h : xs.filter (key · = k) with
  | nil =>
    rw [h] at kept
    exact kept.nil_eq
  | cons x rest =>
    rw [h] at kept single
    obtain rfl : rest = [] := length_eq_zero_iff.mp (Nat.le_zero.mp (Nat.le_of_succ_le_succ single))
    exact (perm_singleton.mp kept.symm).symm

theorem reordered_iff : Reordered key xs ys ↔
    xs.Perm ys ∧ ∀ x ∈ xs, xs.filter (key · = key x) = ys.filter (key · = key x) := by
  constructor
  · intro h
    exact ⟨h.perm, fun x _ => h.inOrder (key x)⟩
  · rintro ⟨perm, same⟩
    refine ⟨perm, fun k => ?_⟩
    by_cases present : ∃ x ∈ xs, key x = k
    · obtain ⟨x, hx, rfl⟩ := present
      exact same x hx
    · have none : xs.filter (key · = k) = [] :=
        filter_eq_nil_iff.mpr fun x hx hk => present ⟨x, hx, of_decide_eq_true hk⟩
      have kept := perm.filter (key · = k)
      rw [none] at kept ⊢
      exact kept.nil_eq

instance [DecidableEq α] (key : α → κ) (xs ys : List α) : Decidable (Reordered key xs ys) :=
  decidable_of_iff _ reordered_iff.symm

variable {le : α → α → Bool} (trans : ∀ a b c, le a b = true → le b c = true → le a c = true)
  (total : ∀ a b, le a b = true ∨ le b a = true)

/-- The elements that may stand on either side of one. -/
def level (le : α → α → Bool) (a b : α) : Bool := le a b && le b a

include total in
theorem level_self (a : α) : level le a a = true := by
  have self := (total a a).elim id id
  rw [level, self]
  rfl

include total in
theorem eq_of_pairwise (hx : xs.Pairwise (le · ·)) (hy : ys.Pairwise (le · ·))
    (perm : xs.Perm ys) (same : ∀ a ∈ xs, xs.filter (level le a) = ys.filter (level le a)) :
    xs = ys := by
  induction xs generalizing ys with
  | nil => exact perm.nil_eq
  | cons a xs ih =>
    cases ys with
    | nil => exact absurd perm.symm (not_perm_nil_cons a xs)
    | cons b ys =>
      obtain ⟨first, hx⟩ := pairwise_cons.mp hx
      obtain ⟨first', hy'⟩ := pairwise_cons.mp hy
      have self : ∀ c : α, le c c = true := fun c => (total c c).elim id id
      have before : le a b = true := by
        rcases mem_cons.mp (perm.mem_iff.mpr mem_cons_self) with rfl | hb
        · exact self b
        · exact first b hb
      have behind : le b a = true := by
        rcases mem_cons.mp (perm.mem_iff.mp mem_cons_self) with rfl | ha
        · exact self a
        · exact first' a ha
      have heads := same a mem_cons_self
      rw [filter_cons_of_pos (level_self total a),
        filter_cons_of_pos (by rw [level, before, behind]; rfl)] at heads
      obtain ⟨rfl, -⟩ := List.cons.inj heads
      refine congrArg (a :: ·) (ih hx hy' perm.cons_inv fun c hc => ?_)
      have rest := same c (.tail _ hc)
      rw [filter_cons, filter_cons] at rest
      cases hl : level le c a with
      | true =>
        rw [hl] at rest
        exact (List.cons.inj rest).2
      | false =>
        rw [hl] at rest
        exact rest

include trans total in
/-- Sorting does not see how elements that may not stand on either side of each other are mixed. -/
theorem sortBy_congr (perm : xs.Perm ys)
    (same : ∀ a ∈ xs, xs.filter (level le a) = ys.filter (level le a)) :
    sortBy le xs = sortBy le ys := by
  refine eq_of_pairwise total (pairwise_sortBy trans total xs) (pairwise_sortBy trans total ys)
    ((sortBy_perm le xs).trans (perm.trans (sortBy_perm le ys).symm)) fun a ha => ?_
  rw [filter_sortBy trans total, filter_sortBy trans total, same a (mem_sortBy.mp ha)]

include trans total in
theorem sortBy_of_reordered (h : Reordered key xs ys)
    (keyed : ∀ a ∈ xs, ∀ b ∈ xs, level le a b = decide (key b = key a)) :
    sortBy le xs = sortBy le ys := by
  refine sortBy_congr trans total h.perm fun a ha => ?_
  have left : xs.filter (level le a) = xs.filter (key · = key a) :=
    filter_congr fun b hb => keyed a ha b hb
  have right : ys.filter (level le a) = ys.filter (key · = key a) :=
    filter_congr fun b hb => keyed a ha b (h.perm.mem_iff.mpr hb)
  rw [left, right, h.inOrder]

end

theorem sortBy_of_keys {α κ : Type} [LinearOrder κ] [DecidableEq κ] {le : α → α → Bool} {key : α → κ}
    (keyed : ∀ a b, le a b = true ↔ key a ≤ key b) {xs ys : List α} (h : Reordered key xs ys) :
    sortBy le xs = sortBy le ys := by
  refine sortBy_of_reordered ?_ ?_ h fun a _ b _ => Bool.eq_iff_iff.mpr ?_
  · intro a b c hab hbc
    exact (keyed a c).mpr (((keyed a b).mp hab).trans ((keyed b c).mp hbc))
  · intro a b
    rw [keyed, keyed]
    exact le_total _ _
  · rw [level, Bool.and_eq_true, keyed, keyed, decide_eq_true_eq, and_comm]
    exact le_antisymm_iff.symm

theorem sortByName_of_reordered {α : Type} {name : α → String} {xs ys : List α}
    (h : Reordered name xs ys) : sortByName name xs = sortByName name ys :=
  sortBy_of_keys (fun _ _ => decide_eq_true_iff) h

section

variable {α : Type} {modifier : α → Modifier} {name : α → String} {xs ys : List α}

theorem sortMembers_of_unplaced {x : α} (hx : x ∈ xs) (unplaced : (modifier x).rank? = none) :
    sortMembers modifier name xs = .error .unplacedModifier := by
  rw [sortMembers_eq]
  suffices failed : xs.mapM (ranked modifier) = .error .unplacedModifier by
    rw [failed]
    rfl
  induction xs with
  | nil => cases hx
  | cons y xs ih =>
    rw [mapM_cons]
    cases hy : (modifier y).rank? with
    | none =>
      rw [ranked, hy]
      rfl
    | some r =>
      rcases mem_cons.mp hx with rfl | hx
      · rw [unplaced] at hy
        cases hy
      · rw [ih hx, ranked, hy]
        rfl

theorem sortMembers_error {e : PrintError} (h : sortMembers modifier name xs = .error e) :
    e = .unplacedModifier := by
  by_cases placed : ∀ x ∈ xs, (modifier x).rank?.isSome = true
  · rw [sortMembers_of_placed modifier name placed] at h
    cases h
  · push Not at placed
    obtain ⟨x, hx, unplaced⟩ := placed
    rw [sortMembers_of_unplaced hx (Option.not_isSome_iff_eq_none.mp unplaced)] at h
    exact (Except.error.inj h).symm

theorem isSome_rank?_of_sortMembers (h : sortMembers modifier name xs = .ok ys) :
    ∀ y ∈ ys, (modifier y).rank?.isSome = true := by
  intro y hy
  by_contra unplaced
  have failed : sortMembers modifier name xs = .error .unplacedModifier := sortMembers_of_unplaced
    ((sortMembers_perm h).mem_iff.mp hy) (Option.not_isSome_iff_eq_none.mp unplaced)
  cases failed.symm.trans h

theorem sortMembers_of_reordered (h : Reordered (fun x => (modifier x, name x)) xs ys) :
    sortMembers modifier name xs = sortMembers modifier name ys := by
  by_cases placed : ∀ x ∈ xs, (modifier x).rank?.isSome = true
  · have placed' : ∀ y ∈ ys, (modifier y).rank?.isSome = true :=
      fun y hy => placed y (h.perm.mem_iff.mpr hy)
    rw [sortMembers_of_placed modifier name placed, sortMembers_of_placed modifier name placed']
    refine congrArg Except.ok (sortBy_of_reordered mayPrecede_trans mayPrecede_total h ?_)
    intro a ha b hb
    refine Bool.eq_iff_iff.mpr ?_
    rw [level, Bool.and_eq_true, decide_eq_true_eq]
    constructor
    · rintro ⟨before, behind⟩
      obtain ⟨ranks, names⟩ := mayPrecede_antisymm before behind
      exact (Prod.ext (Modifier.rank_inj (placed a ha) (placed b hb) ranks) names).symm
    · intro same
      obtain ⟨modifiers, names⟩ := Prod.mk.inj same
      rw [mayPrecede_iff, mayPrecede_iff, modifiers, names]
      exact ⟨.inr ⟨rfl, String.le_refl _⟩, .inr ⟨rfl, String.le_refl _⟩⟩
  · push Not at placed
    obtain ⟨x, hx, unplaced⟩ := placed
    have none : (modifier x).rank? = none := Option.not_isSome_iff_eq_none.mp unplaced
    rw [sortMembers_of_unplaced hx none, sortMembers_of_unplaced (h.perm.mem_iff.mp hx) none]

end

/-! Imports. -/

theorem QualifiedName.partsLe_iff {a b : List String} : partsLe a b = true ↔ a ≤ b := by
  refine Iff.trans ?_ not_lt
  induction a generalizing b with
  | nil => exact iff_of_true rfl (not_lt_nil b)
  | cons x a ih =>
    cases b with
    | nil => exact iff_of_false Bool.false_ne_true (not_not_intro (nil_lt_cons x a))
    | cons y b =>
      rw [partsLe, cons_lt_cons_iff]
      by_cases same : x = y
      · subst same
        rw [if_pos rfl, ih]
        simp only [lt_self_iff_false, true_and, false_or]
      · rw [if_neg same, decide_eq_true_eq, ← not_lt]
        simp only [Ne.symm same, false_and, or_false]

namespace Import

/-- What imports are ordered by. One without a name comes before those with the same origin. -/
def key (i : Import) : List String ×ₗ List String := toLex (i.origin.parts, i.name.toList)

theorem key_inj {a b : Import} (h : a.key = b.key) : a = b := by
  obtain ⟨name, ⟨parts⟩⟩ := a
  obtain ⟨name', ⟨parts'⟩⟩ := b
  obtain ⟨rfl, names⟩ := Prod.mk.inj (toLex.injective h)
  cases name <;> cases name' <;> simp_all

theorem le_iff {a b : Import} : a.le b = true ↔ a.key ≤ b.key := by
  rw [key, key, Prod.Lex.toLex_le_toLex, ← QualifiedName.partsLe_iff]
  obtain ⟨name, ⟨parts⟩⟩ := a
  obtain ⟨name', ⟨parts'⟩⟩ := b
  by_cases same : parts = parts'
  · subst same
    cases name <;> cases name' <;> simp [le, QualifiedName.partsLe]
    exact le_of_eq
  · simp [le, same, QualifiedName.le, QualifiedName.partsLe_iff, lt_iff_le_and_ne]

theorem sortBy_le_of_perm {is js : List Import} (perm : is.Perm js) (distinct : is.Nodup) :
    sortBy le is = sortBy le js := by
  have keys : (is.map key).Nodup := distinct.map fun _ _ => key_inj
  exact sortBy_of_keys (fun a b => le_iff (a := a) (b := b)) (.of_distinct perm keys)

end Import

/-! Members in another order. -/

mutual

/-- The second class holds the members of the first in another order, also inside of the classes in
it. Methods with one modifier and one name keep their order. -/
inductive Class.Rearranged : Class → Class → Prop
  | intro {name : String} {doc : Option String} {bases : List QualifiedName}
      {classes classes' : List Class} {fields fields' : List Field}
      {methods methods' : List Method} {properties properties' : List Property}
      {aliases aliases' : List Alias} (nested : Class.AllRearranged classes classes')
      (placed : fields.Perm fields')
      (defined : Reordered (fun m : Method => (m.modifier, m.function.name)) methods methods')
      (accessed : properties.Perm properties') (renamed : aliases.Perm aliases') :
      Class.Rearranged ⟨name, doc, bases, classes, fields, methods, properties, aliases⟩
        ⟨name, doc, bases, classes', fields', methods', properties', aliases'⟩

/-- The second list holds the classes of the first in another order, each with its members in
another order. -/
inductive Class.AllRearranged : List Class → List Class → Prop
  | nil : Class.AllRearranged [] []
  | cons {c c' : Class} {cs cs' all : List Class} (first : Class.Rearranged c c')
      (rest : Class.AllRearranged cs cs') (mixed : (c' :: cs').Perm all) :
      Class.AllRearranged (c :: cs) all

end

/-- No two nested classes, fields, properties or aliases of the class have one name, and neither have
those of the classes in it. -/
inductive Class.Distinct : Class → Prop
  | intro {c : Class} (nested : ∀ n ∈ c.classes, n.Distinct)
      (classes : (c.classes.map Class.name).Nodup) (fields : (c.fields.map (·.attr.name)).Nodup)
      (properties : (c.properties.map Property.name).Nodup)
      (aliases : (c.aliases.map Alias.name).Nodup) : c.Distinct

/-- The second module holds the members of the first in another order, also inside of its classes.
Functions with one name keep their order, and the modules in it and the aliases stay where they are. -/
structure Module.Rearranged (m m' : Module) : Prop where
  name : m.name = m'.name
  doc : m.doc = m'.doc
  classes : Class.AllRearranged m.classes m'.classes
  functions : Reordered Function.name m.functions m'.functions
  subModules : m.subModules = m'.subModules
  attributes : m.attributes.Perm m'.attributes
  imports : m.imports.Perm m'.imports
  aliases : m.aliases = m'.aliases
  typeVariables : m.typeVariables.Perm m'.typeVariables

/-- No import is there twice, and no two classes, attributes or type variables have one name. -/
structure Module.Distinct (m : Module) : Prop where
  nested : ∀ c ∈ m.classes, c.Distinct
  classes : (m.classes.map Class.name).Nodup
  attributes : (m.attributes.map Attribute.name).Nodup
  imports : m.imports.Nodup
  typeVariables : (m.typeVariables.map TypeVariable.name).Nodup

namespace Printer

/-- Both fail in the same way, or both succeed, and the results are related. -/
inductive Alike {α : Type} (R : α → α → Prop) : Except PrintError α → Except PrintError α → Prop
  | ok {a b : α} (related : R a b) : Alike R (.ok a) (.ok b)
  | error (e : PrintError) : Alike R (.error e) (.error e)

theorem Alike.trans {α : Type} {x y z : Except PrintError (List α)} (h : Alike Perm x y)
    (h' : Alike Perm y z) : Alike Perm x z := by
  cases h with
  | ok perm =>
    cases h' with
    | ok perm' => exact .ok (perm.trans perm')
  | error e => exact h'

/-! Classes. -/

mutual

theorem classBody_error (p : Printer) (c : Class) {e : PrintError} (h : p.classBody c = .error e) :
    e = .unplacedModifier := by
  obtain ⟨name, doc, bases, classes, fields, methods, properties, aliases⟩ := c
  rw [classBody] at h
  rcases bind_error h with h | ⟨named, -, h⟩
  · exact namedClasses_error p classes h
  rcases bind_error h with h | ⟨fields', -, h⟩
  · exact sortMembers_error h
  rcases bind_error h with h | ⟨methods', sorted, h⟩
  · exact sortMembers_error h
  obtain ⟨parts, written⟩ := exists_methodLines (p := p) methods' (isSome_rank?_of_sortMembers sorted)
  rcases bind_error h with h | ⟨_, -, h⟩
  · cases written.symm.trans h
  · cases h

theorem namedClasses_error (p : Printer) (cs : List Class) {e : PrintError}
    (h : p.namedClasses cs = .error e) : e = .unplacedModifier := by
  cases cs with
  | nil =>
    rw [namedClasses] at h
    cases h
  | cons c cs =>
    rw [namedClasses] at h
    rcases bind_error h with h | ⟨body, -, h⟩
    · exact classBody_error p c h
    rcases bind_error h with h | ⟨rest, -, h⟩
    · exact namedClasses_error p cs h
    · cases h

end

variable {p : Printer}

theorem namedClasses_cons (c : Class) (cs : List Class) : p.namedClasses (c :: cs) = do
    let lines ← p.classLines c
    let rest ← p.namedClasses cs
    return (c.name, lines) :: rest := by
  rw [namedClasses, classLines_eq]
  cases p.classBody c with
  | error e => rfl
  | ok body => rfl

theorem classLines_error {c : Class} {e : PrintError} (h : p.classLines c = .error e) :
    e = .unplacedModifier := by
  rw [classLines_eq] at h
  cases hb : p.classBody c with
  | error e' =>
    rw [hb] at h
    cases h
    exact classBody_error p c hb
  | ok body =>
    rw [hb] at h
    cases h

theorem alike_cons {c c' : Class} (name : c.name = c'.name)
    (lines : p.classLines c = p.classLines c')
    (rest : Alike Perm (p.namedClasses cs) (p.namedClasses cs')) :
    Alike Perm (p.namedClasses (c :: cs)) (p.namedClasses (c' :: cs')) := by
  rw [namedClasses_cons, namedClasses_cons, name, lines]
  cases p.classLines c' with
  | error e => exact .error e
  | ok lines =>
    generalize p.namedClasses cs = x at rest ⊢
    generalize p.namedClasses cs' = y at rest ⊢
    cases rest with
    | ok perm => exact .ok (perm.cons _)
    | error e => exact .error e

theorem alike_swap (c d : Class) (cs : List Class) :
    Alike Perm (p.namedClasses (d :: c :: cs)) (p.namedClasses (c :: d :: cs)) := by
  simp only [namedClasses_cons]
  cases hc : p.classLines c with
  | error e =>
    cases hd : p.classLines d with
    -- Both classes fail, and the first of them is told about. Neither can fail in another way.
    | error e' =>
      rw [classLines_error hc, classLines_error hd]
      exact .error _
    | ok lines => exact .error e
  | ok lines =>
    cases p.classLines d with
    | error e => exact .error e
    | ok lines' =>
      cases p.namedClasses cs with
      | error e => exact .error e
      | ok named => exact .ok (.swap _ _ _)

theorem namedClasses_of_perm (h : cs.Perm cs') :
    Alike Perm (p.namedClasses cs) (p.namedClasses cs') := by
  induction h with
  | nil =>
    rw [namedClasses]
    exact .ok .nil
  | cons c _ ih => exact alike_cons rfl rfl ih
  | swap c d cs => exact alike_swap c d cs
  | trans _ _ ih ih' => exact ih.trans ih'

theorem names_of_namedClasses {named : List (String × List String)}
    (h : p.namedClasses cs = .ok named) : named.map (·.1) = cs.map Class.name :=
  (Forall₂.map_eq_map (namedClasses_ok_iff.mp h) fun _ _ part => part.2.symm).symm

/-- The two lists are the same once they stand by name. -/
def SortedAlike (named named' : List (String × List String)) : Prop :=
  sortByName (·.1) named = sortByName (·.1) named'

theorem sorted_of_alike (h : Alike Perm (p.namedClasses cs) (p.namedClasses cs'))
    (distinct : (cs.map Class.name).Nodup) :
    Alike SortedAlike (p.namedClasses cs) (p.namedClasses cs') := by
  have names (named : List (String × List String)) (h : p.namedClasses cs = .ok named) :
      named.map (·.1) = cs.map Class.name := names_of_namedClasses h
  generalize p.namedClasses cs = x at h names ⊢
  generalize p.namedClasses cs' = y at h ⊢
  cases h with
  | error e => exact .error e
  | @ok named named' perm =>
    have reordered : Reordered (fun n : String × List String => n.1) named named' :=
      .of_distinct perm (names named rfl ▸ distinct)
    exact .ok (sortByName_of_reordered reordered)

theorem classBody_of_reordered {name : String} {doc : Option String} {bases : List QualifiedName}
    {classes classes' : List Class} {fields fields' : List Field} {methods methods' : List Method}
    {properties properties' : List Property} {aliases aliases' : List Alias}
    (hc : Alike SortedAlike (p.namedClasses classes) (p.namedClasses classes'))
    (hf : Reordered (fun f : Field => (f.modifier, f.attr.name)) fields fields')
    (hm : Reordered (fun m : Method => (m.modifier, m.function.name)) methods methods')
    (hp : Reordered Property.name properties properties')
    (ha : Reordered Alias.name aliases aliases') :
    p.classBody ⟨name, doc, bases, classes, fields, methods, properties, aliases⟩ =
      p.classBody ⟨name, doc, bases, classes', fields', methods', properties', aliases'⟩ := by
  rw [classBody, classBody, sortMembers_of_reordered hf, sortMembers_of_reordered hm,
    sortByName_of_reordered hp, sortByName_of_reordered ha]
  generalize p.namedClasses classes = x at hc ⊢
  generalize p.namedClasses classes' = y at hc ⊢
  cases hc with
  | error e => rfl
  | ok sorted =>
    rw [SortedAlike] at sorted
    simp only [bind, Except.bind, sorted]

theorem namedClasses_of_rearranged (h : Class.AllRearranged cs cs')
    (distinct : ∀ c ∈ cs, c.Distinct) :
    Alike Perm (p.namedClasses cs) (p.namedClasses cs') := by
  induction h using Class.AllRearranged.rec
    (motive_1 := fun c c' _ => c.Distinct → c.name = c'.name ∧ p.classLines c = p.classLines c') with
  | intro nested placed defined accessed renamed ih =>
    rename_i distinct
    cases distinct with
    | intro inner classes fields properties aliases =>
      refine ⟨rfl, ?_⟩
      have byModifier : Reordered (fun f : Field => (f.modifier, f.attr.name)) _ _ :=
        .of_distinct placed (.of_map Prod.snd (by rwa [map_map]))
      rw [classLines_eq, classLines_eq, classBody_of_reordered
        (sorted_of_alike (ih inner) classes) byModifier defined (.of_distinct accessed properties)
        (.of_distinct renamed aliases)]
  | nil =>
    rw [namedClasses]
    exact .ok .nil
  | cons first rest mixed ih ih' =>
    obtain ⟨here, others⟩ := forall_mem_cons.mp distinct
    obtain ⟨name, lines⟩ := ih here
    exact (alike_cons name lines (ih' others)).trans (namedClasses_of_perm mixed)

/-- The lines of a module do not depend on the order of its imports, classes, attributes and type
variables, nor on that of the members of its classes, nor on how its functions and methods are mixed
with those of other names. -/
theorem moduleLines_of_rearranged {m m' : Module} (h : m.Rearranged m') (distinct : m.Distinct) :
    p.moduleLines m = p.moduleLines m' := by
  have classes := sorted_of_alike (p := p)
    (namedClasses_of_rearranged h.classes distinct.nested) distinct.classes
  have attributes := sortByName_of_reordered (.of_distinct h.attributes distinct.attributes)
  have imports := Import.sortBy_le_of_perm h.imports distinct.imports
  have functions := sortByName_of_reordered h.functions
  have typeVariables := sortByName_of_reordered
    (.of_distinct h.typeVariables distinct.typeVariables)
  rw [moduleLines, moduleLines, attributes, imports, functions, typeVariables, h.doc, h.subModules,
    h.aliases]
  generalize p.namedClasses m.classes = x at classes ⊢
  generalize p.namedClasses m'.classes = y at classes ⊢
  cases classes with
  | error e => rfl
  | ok sorted =>
    rw [SortedAlike] at sorted
    simp only [bind, Except.bind, sorted]

/-- Two overloads of a function with another one between them, and a class that holds such overloads
of a method and two more classes. -/
def mixedModule : Module where
  name := "shapes"
  imports := [⟨some "sqrt", ⟨["m", "sqrt"]⟩⟩, ⟨none, ⟨["sys"]⟩⟩, ⟨none, ⟨["m", "sqrt"]⟩⟩]
  attributes := [⟨"zero", none, none⟩, ⟨"__all__", none, none⟩]
  functions := [{ name := "scale", doc := "by one" }, { name := "area" },
    { name := "scale", doc := "by two" }]
  classes := [
    { name := "Shape"
      classes := [{ name := "Side" }, { name := "Edge", aliases := [⟨"b", ⟨["B"]⟩⟩, ⟨"a", ⟨["A"]⟩⟩] }]
      methods := [⟨{ name := "at", doc := "one" }, .plain⟩, ⟨{ name := "make" }, .static⟩,
        ⟨{ name := "at", doc := "two" }, .plain⟩] },
    { name := "Area" }]

/-- The same members, with the overloads together and most other things by name. -/
def orderedModule : Module where
  name := "shapes"
  imports := [⟨none, ⟨["m", "sqrt"]⟩⟩, ⟨some "sqrt", ⟨["m", "sqrt"]⟩⟩, ⟨none, ⟨["sys"]⟩⟩]
  attributes := [⟨"__all__", none, none⟩, ⟨"zero", none, none⟩]
  functions := [{ name := "area" }, { name := "scale", doc := "by one" },
    { name := "scale", doc := "by two" }]
  classes := [
    { name := "Area" },
    { name := "Shape"
      classes := [{ name := "Edge", aliases := [⟨"a", ⟨["A"]⟩⟩, ⟨"b", ⟨["B"]⟩⟩] }, { name := "Side" }]
      methods := [⟨{ name := "at", doc := "one" }, .plain⟩, ⟨{ name := "at", doc := "two" }, .plain⟩,
        ⟨{ name := "make" }, .static⟩] }]

theorem mixedModule_prints_in_order : mixedModule.Rearranged orderedModule ∧ mixedModule.Distinct ∧
    mixedModule.functions ≠ orderedModule.functions ∧
    ∀ p : Printer, p.moduleLines mixedModule = p.moduleLines orderedModule := by
  have side : Class.Rearranged { name := "Side" } { name := "Side" } :=
    .intro .nil (by decide) (by decide) (by decide) (by decide)
  have edge : Class.Rearranged { name := "Edge", aliases := [⟨"b", ⟨["B"]⟩⟩, ⟨"a", ⟨["A"]⟩⟩] }
      { name := "Edge", aliases := [⟨"a", ⟨["A"]⟩⟩, ⟨"b", ⟨["B"]⟩⟩] } :=
    .intro .nil (by decide) (by decide) (by decide) (by decide)
  have area : Class.Rearranged { name := "Area" } { name := "Area" } :=
    .intro .nil (by decide) (by decide) (by decide) (by decide)
  have rearranged : mixedModule.Rearranged orderedModule := by
    refine ⟨rfl, rfl, .cons (.intro ?_ ?_ ?_ ?_ ?_) (.cons area .nil (.refl _)) (.swap _ _ _), ?_, rfl,
      ?_, ?_, rfl, ?_⟩
    · exact .cons side (.cons edge .nil (.refl _)) (.swap _ _ _)
    all_goals decide
  have distinct : mixedModule.Distinct := by
    refine ⟨?_, by decide, by decide, by decide, by decide⟩
    rintro _ (_ | ⟨_, _ | ⟨_, ⟨⟩⟩⟩)
    · refine .intro ?_ (by decide) (by decide) (by decide) (by decide)
      rintro _ (_ | ⟨_, _ | ⟨_, ⟨⟩⟩⟩)
      · exact .intro (by rintro _ ⟨⟩) (by decide) (by decide) (by decide) (by decide)
      · exact .intro (by rintro _ ⟨⟩) (by decide) (by decide) (by decide) (by decide)
    · exact .intro (by rintro _ ⟨⟩) (by decide) (by decide) (by decide) (by decide)
  exact ⟨rearranged, distinct, by decide, fun p => moduleLines_of_rearranged rearranged distinct⟩

end Printer

end TypeStubs
