import Mathlib.Data.Finset.Card
import Mathlib.Logic.Relation
import TypeStubs.Proofs.Owners

/-! How far inspections go from class to class and from module to module. They come to an end unless a
class is entered again inside itself, and then no stub is made. -/

namespace TypeStubs

open List

variable {name : String} {doc : Option String} {ms : List (String × Object)} {n : Nat}

def isInspected (name : String) : Bool :=
  !hiddenClassMembers.contains name && isIdentifier name && !isInternalMember name

theorem Object.isRoutine_of_isClass {o : Object} (h : o.isClass = true) : o.isRoutine = false := by
  cases o with
  | classDef => rfl
  | _ => cases h

theorem Object.kinds_of_isModule {o : Object} (h : o.isModule = true) :
    o.isRoutine = false ∧ o.isClass = false := by
  cases o with
  | moduleDef => exact ⟨rfl, rfl⟩
  | _ => cases h

namespace World

open Inspection in
/-- The inspection of what is at one path enters what is at another: a class that stands under its own
name, or a module that stands where its name says. -/
inductive Enters (w : World) : QualifiedName × Object → QualifiedName × Object → Prop
  | inClass {site : QualifiedName} {owner x : Object} {name : String} : owner.isClass = true →
      (name, x) ∈ owner.members → isInspected name = true →
      ((w.settle x).readFrom owner).isClass = true →
      ((w.settle x).readFrom owner).name? = some name →
      Enters w (site, owner) (site.member name, (w.settle x).readFrom owner)
  | inModule {site : QualifiedName} {ownerName name : String} {doc : Option String}
      {ms : List (String × Object)} {x : Object} : (name, x) ∈ ms → isIdentifier name = true →
      name ≠ "annotations" → (homeModule? (w.settle x)).any (· != ownerName) = false →
      (w.settle x).isClass = true ∧ (w.settle x).name? = some name ∨
        (w.settle x).isModule = true ∧ (w.settle x).name? = some (site.member name).text →
      Enters w (site, .moduleDef ownerName doc ms) (site.member name, w.settle x)

/-- The inspection of what is at a path enters classes and modules to a finite depth only. -/
def Unfolds (w : World) (path : QualifiedName) (o : Object) : Prop :=
  Acc (fun next node => w.Enters node next) (path, o)

/-- A class that the inspection enters is entered again inside itself. -/
def Recurs (w : World) (path : QualifiedName) (o : Object) : Prop :=
  ∃ c site again, c.isClass = true ∧ Relation.ReflTransGen w.Enters (path, o) (site, c) ∧
    Relation.TransGen w.Enters (site, c) (again, c)

variable {w : World} {node next : QualifiedName × Object} {owners : List Object} {a b : Object}

theorem Enters.isOwner (h : w.Enters node next) : (next.2.isClass || next.2.isModule) = true := by
  cases h with
  | inClass _ _ _ isClass => exact Bool.or_eq_true_iff.mpr (.inl isClass)
  | inModule _ _ _ _ kind => exact Bool.or_eq_true_iff.mpr (kind.imp And.left And.left)

theorem Enters.owners_subset (hw : w.Holds owners) (h : w.Enters node next)
    (ho : node.2.owners ⊆ owners) : next.2.owners ⊆ owners := by
  cases h with
  | inClass _ hx =>
    have inside := hw.settle (Subset.trans (Object.owners_of_mem_members hx) ho)
    exact Subset.trans (Object.owners_readFrom _ _) inside
  | @inModule _ ownerName _ doc ms _ hx =>
    have member : _ ∈ (Object.moduleDef ownerName doc ms).members := hx
    exact hw.settle (Subset.trans (Object.owners_of_mem_members member) ho)

theorem Recurs.of_enters (h : w.Recurs next.1 next.2) (e : w.Enters node next) :
    w.Recurs node.1 node.2 := by
  obtain ⟨c, site, again, isClass, reached, loop⟩ := h
  exact ⟨c, site, again, isClass, .head e reached, loop⟩

/-- Some inspection of a class enters another one. It then does so wherever the class stands. -/
def Encloses (w : World) (a b : Object) : Prop :=
  a.isClass = true ∧ ∃ site site', w.Enters (site, a) (site', b)

theorem Encloses.enters (h : w.Encloses a b) (site : QualifiedName) :
    b.isClass = true ∧ ∃ site', w.Enters (site, a) (site', b) := by
  obtain ⟨isClass, _, _, e⟩ := h
  cases e with
  | inClass hc hx inspected shown named => exact ⟨shown, _, .inClass hc hx inspected shown named⟩
  | inModule => cases isClass

theorem Encloses.transGen_enters (h : Relation.TransGen w.Encloses a b) (site : QualifiedName) :
    b.isClass = true ∧ ∃ site', Relation.TransGen w.Enters (site, a) (site', b) := by
  induction h with
  | single h =>
    obtain ⟨isClass, site', e⟩ := h.enters site
    exact ⟨isClass, site', .single e⟩
  | tail _ h ih =>
    obtain ⟨-, middle, before⟩ := ih
    obtain ⟨isClass, site', e⟩ := h.enters middle
    exact ⟨isClass, site', before.tail e⟩

theorem Encloses.of_transGen_enters (isClass : node.2.isClass = true)
    (h : Relation.TransGen w.Enters node next) : Relation.TransGen w.Encloses node.2 next.2 := by
  induction h with
  | single e => exact .single ⟨isClass, _, _, e⟩
  | tail _ e ih => exact ih.tail ⟨(transGen_enters ih node.1).1, _, _, e⟩

theorem Unfolds.of_reached {path : QualifiedName} {o : Object} (h : w.Unfolds path o)
    (reached : Relation.ReflTransGen w.Enters (path, o) node) : w.Unfolds node.1 node.2 := by
  induction reached with
  | refl => exact h
  | tail _ e ih => exact ih.inv e

/-- What unfolds enters no class again: from there the class would be entered without end. -/
theorem Unfolds.not_recurs {path : QualifiedName} {o : Object} (h : w.Unfolds path o) :
    ¬ w.Recurs path o := by
  rintro ⟨c, site, again, isClass, reached, loop⟩
  have circle : Relation.TransGen w.Encloses c c := Encloses.of_transGen_enters isClass loop
  have acc : Acc (Relation.TransGen (Function.swap w.Enters)) (site, c) :=
    (h.of_reached reached).transGen
  clear reached loop
  generalize hn : (site, c) = node at acc
  induction acc generalizing site with
  | intro node _ ih =>
    subst hn
    obtain ⟨-, site', entered⟩ := Encloses.transGen_enters circle site
    exact ih (site', c) (Relation.transGen_swap.mpr entered) site' rfl

open Classical in
/-- How deep an inspection can go. Below a class it is the number of classes that it encloses. Below a
module, all classes and the modules with longer names count. -/
noncomputable def depth (w : World) (owners : List Object) (node : QualifiedName × Object) : Nat :=
  if node.2.isClass then (owners.toFinset.filter fun c => Relation.TransGen w.Encloses node.2 c).card
  else (owners.toFinset.filter fun o => o.isClass = true).card +
    (owners.toFinset.filter fun o => o.isModule = true ∧
      ∃ name, o.name? = some name ∧ node.1.text.length < name.length).card

open Classical in
theorem depth_le (w : World) (owners : List Object) (node : QualifiedName × Object) :
    w.depth owners node ≤ owners.length := by
  refine Nat.le_trans ?_ (toFinset_card_le owners)
  unfold depth
  split
  · exact Finset.card_filter_le _ _
  · rw [← Finset.card_filter_add_card_filter_not (s := owners.toFinset) (fun o : Object => o.isClass = true)]
    refine Nat.add_le_add_left (Finset.card_le_card fun o ho => ?_) _
    obtain ⟨listed, isModule, -⟩ := Finset.mem_filter.mp ho
    exact Finset.mem_filter.mpr ⟨listed, Bool.eq_false_iff.mp (Object.kinds_of_isModule isModule).2⟩

open Classical in
/-- A class encloses fewer classes than any property that it has, with all that it encloses, holds of. -/
theorem card_encloses_lt (listed : a ∈ owners) (once : ¬ Relation.TransGen w.Encloses a a)
    {P : Object → Prop} [DecidablePred P] (self : P a) (all : ∀ x, Relation.TransGen w.Encloses a x → P x) :
    (owners.toFinset.filter fun c => Relation.TransGen w.Encloses a c).card <
      (owners.toFinset.filter P).card := by
  refine Finset.card_lt_card ⟨fun x hx => ?_, fun contains => ?_⟩
  · obtain ⟨hx, enclosed⟩ := Finset.mem_filter.mp hx
    exact Finset.mem_filter.mpr ⟨hx, all x enclosed⟩
  · have inside := contains (Finset.mem_filter.mpr ⟨mem_toFinset.mpr listed, self⟩)
    exact once (Finset.mem_filter.mp inside).2

end World

theorem length_intercalate_lt {α : Type} (separator : List α) (xs : List (List α)) {y : List α}
    (hy : y ≠ []) : (separator.intercalate xs).length < (separator.intercalate (xs ++ [y])).length := by
  have filled := length_pos_iff.mpr hy
  induction xs with
  | nil => simpa using filled
  | cons x xs ih =>
    cases xs with
    | nil =>
      simp only [cons_append, nil_append, intercalate_cons_cons,
        intercalate_singleton, length_append]
      omega
    | cons x' xs => simpa [intercalate_cons_cons] using ih

theorem QualifiedName.length_text_lt (n : QualifiedName) {part : String}
    (h : isIdentifier part = true) : n.text.length < (n.member part).text.length := by
  have filled : part.toList ≠ [] := by
    intro empty
    rw [isIdentifier, empty] at h
    cases h
  rw [← String.length_toList, ← String.length_toList, text, text, joinWith, joinWith,
    String.toList_intercalate, String.toList_intercalate, member, map_append]
  exact length_intercalate_lt _ _ filled

namespace World

variable {w : World} {node next : QualifiedName × Object} {owners : List Object}

open Classical in
theorem Enters.depth_lt (hw : w.Holds owners) (ho : node.2.owners ⊆ owners)
    (once : ¬ w.Recurs node.1 node.2) (e : w.Enters node next) :
    w.depth owners next < w.depth owners node := by
  have listed : next.2 ∈ owners := e.owners_subset hw ho (Object.self_mem_owners e.isOwner)
  have single : next.2.isClass = true → ¬ Relation.TransGen w.Encloses next.2 next.2 := by
    intro isClass circle
    obtain ⟨-, again, loop⟩ := Encloses.transGen_enters circle next.1
    exact once ⟨next.2, next.1, again, isClass, .single e, loop⟩
  cases e with
  | @inClass site owner x name isClass hx inspected shown named =>
    have step : w.Encloses owner ((w.settle x).readFrom owner) :=
      ⟨isClass, site, _, .inClass isClass hx inspected shown named⟩
    simp only [depth, isClass, shown, reduceIte]
    exact card_encloses_lt listed (single shown) (.single step) fun x h => .head step h
  | @inModule site ownerName name doc ms x hx valid other home kind =>
    have below : w.depth owners (site, .moduleDef ownerName doc ms) = _ := if_neg Bool.false_ne_true
    rw [below]
    rcases kind with ⟨isClass, -⟩ | ⟨isModule, named⟩
    · simp only [depth, isClass, reduceIte]
      exact Nat.lt_add_right _ (card_encloses_lt listed (single isClass) isClass
        fun x h => (Encloses.transGen_enters h site).1)
    · have notClass := (Object.kinds_of_isModule isModule).2
      have longer := site.length_text_lt valid
      simp only [depth, notClass, Bool.false_eq_true, reduceIte]
      refine Nat.add_lt_add_left (Finset.card_lt_card ⟨fun o h => ?_, fun contains => ?_⟩) _
      · obtain ⟨hm, isModule, name', named', long⟩ := Finset.mem_filter.mp h
        exact Finset.mem_filter.mpr ⟨hm, isModule, name', named', longer.trans long⟩
      · have inside := contains (Finset.mem_filter.mpr
          ⟨mem_toFinset.mpr listed, isModule, _, named, longer⟩)
        obtain ⟨-, -, name', named', long⟩ := Finset.mem_filter.mp inside
        cases named.symm.trans named'
        exact Nat.lt_irrefl _ long

theorem unfolds_of_not_recurs {path : QualifiedName} {o : Object} (hw : w.Holds owners)
    (ho : o.owners ⊆ owners) (once : ¬ w.Recurs path o) : w.Unfolds path o := by
  induction hd : w.depth owners (path, o) using Nat.strong_induction_on generalizing path o with
  | _ n ih =>
    refine Acc.intro _ fun next e => ?_
    have deeper : w.depth owners next < n := hd ▸ e.depth_lt hw ho once
    exact ih _ deeper (e.owners_subset hw ho) (fun h => once (h.of_enters e)) rfl

end World

namespace Inspection

variable {α β σ : Type} {w : World} {s : Setting} {p q : Progress} {path : QualifiedName} {o : Object}
variable {x : Object}

/-! Inspections that agree. -/

/-- Two steps have the same outcome in a world. -/
def Agree (w : World) (x y : Inspection α) : Prop :=
  ∀ ⦃s p⦄, s.world = w → x.outcome s p = y.outcome s p

namespace Agree

variable {x y : Inspection α}

theorem refl (x : Inspection α) : Agree w x x := fun _ _ _ => rfl

theorem bind {f g : α → Inspection β} (hx : Agree w x y)
    (hf : ∀ a, (∃ s p q, s.world = w ∧ x.outcome s p = (.ok a, q)) → Agree w (f a) (g a)) :
    Agree w (x >>= f) (y >>= g) := by
  intro s p hs
  rw [outcome_bind, outcome_bind, ← hx hs]
  rcases h : x.outcome s p with ⟨e | a, q⟩
  · rfl
  · exact hf a ⟨s, p, q, hs, h⟩ hs

theorem ite {c : Prop} [Decidable c] {x x' y y' : Inspection α} (hx : c → Agree w x x')
    (hy : ¬ c → Agree w y y') : Agree w (if c then x else y) (if c then x' else y') := by
  split
  · exact hx ‹_›
  · exact hy ‹_›

theorem withLayer (h : Agree w x y) :
    Agree w (withLayer path x) (withLayer path y) := by
  intro s p hs
  rw [outcome_withLayer, outcome_withLayer, h hs]

theorem withClass (h : Agree w x y) :
    Agree w (withClass o x) (withClass o y) := by
  intro s p hs
  rw [outcome_withClass, outcome_withClass, h hs]

theorem withModule (h : Agree w x y) :
    Agree w (withModule o x) (withModule o y) := by
  intro s p hs
  rw [outcome_withModule, outcome_withModule, h hs]

theorem withModulePath (h : Agree w x y) :
    Agree w (withModulePath path x) (withModulePath path y) := by
  intro s p hs
  rw [outcome_withModulePath, outcome_withModulePath, h hs]

theorem settle {f g : Object → Inspection α} (x : Object)
    (h : Agree w (f (w.settle x)) (g (w.settle x))) :
    Agree w (settle x >>= f) (settle x >>= g) := by
  refine .bind (.refl _) ?_
  rintro _ ⟨s, p, q, rfl, look⟩
  cases look
  exact h

end Agree

def AgreeNamed (w : World) (x y : String × Inspection α) : Prop := y.1 = x.1 ∧ Agree w x.2 y.2

theorem agree_gather {add : σ → α → σ} {xs ys : List (String × Inspection α)}
    (h : Forall₂ (AgreeNamed w) xs ys) (m : σ) : Agree w (gather add m xs) (gather add m ys) := by
  induction h generalizing m with
  | nil => exact .refl _
  | cons first _ ih => exact .bind first.2 fun a _ => ih (add m a)

theorem forall₂_insertSorted {R : String × α → String × α → Prop} (keys : ∀ ⦃a b⦄, R a b → b.1 = a.1)
    {x y : String × α} (hxy : R x y) {xs ys : List (String × α)} (h : Forall₂ R xs ys) :
    Forall₂ R (insertSorted (fun a b => decide (a.1 ≤ b.1)) x xs)
      (insertSorted (fun a b => decide (a.1 ≤ b.1)) y ys) := by
  induction h with
  | nil => exact .cons hxy .nil
  | cons first rest ih =>
    unfold insertSorted
    rw [keys hxy, keys first]
    split
    · exact .cons hxy (.cons first rest)
    · exact .cons first ih

theorem forall₂_inNameOrder {xs ys : List (String × Inspection α)}
    (h : Forall₂ (AgreeNamed w) xs ys) :
    Forall₂ (AgreeNamed w) (inNameOrder xs) (inNameOrder ys) := by
  induction h with
  | nil => exact .nil
  | cons first _ ih => exact forall₂_insertSorted (fun _ _ h => h.1) first ih

theorem agree_classBody {bases : List QualifiedName} {xs ys : List (String × Inspection ClassMember)}
    (h : Forall₂ (AgreeNamed w) xs ys) :
    Agree w (classBody path o bases xs) (classBody path o bases ys) := by
  refine .withLayer (.withClass (.bind (.refl _) fun w' _ => .bind (.refl _) fun names _ => ?_))
  simp only [addClassMembers_eq]
  exact agree_gather (forall₂_inNameOrder (forall₂_withDoc (fun _ _ h => h.1) h ⟨rfl, .refl _⟩)) _

theorem agree_moduleBody {xs ys : List (String × Inspection ModuleMember)}
    (h : Forall₂ (AgreeNamed w) xs ys) :
    Agree w (moduleBody path o name xs) (moduleBody path o name ys) := by
  refine .withLayer (.bind (.withModule (.bind (.withModulePath ?_) fun _ _ => .refl _)) fun _ _ => .refl _)
  simp only [addModuleMembers_eq]
  exact agree_gather (forall₂_inNameOrder (forall₂_withDoc (fun _ _ h => h.1) h ⟨rfl, .refl _⟩)) _

/-! Members that are entered. -/

theorem outcome_isAlias_class (hc : o.isClass = true) (hn : o.name? = some path.last) (s : Setting)
    (p : Progress) : (isAlias path o).outcome s p = (.ok false, p) := by
  cases o with
  | classDef identity metatype bases ms =>
    simp only [isAlias, hn]
    simp [Object.isClass]
  | _ => cases hc

theorem outcome_isAlias_module (hm : o.isModule = true) (hn : o.name? = some path.text) (s : Setting)
    (p : Progress) : (isAlias path o).outcome s p = (.ok false, p) := by
  cases o with
  | moduleDef name doc ms =>
    obtain rfl : name = path.text := Option.some.inj hn
    simp [isAlias]
  | _ => cases hm

section

variable {owner : Object} {nested nested' : Inspection Class}

/-- What a member of a class contributes depends on its inspection as a class only if it is entered. -/
theorem agree_classMember (h : isInspected path.last = true → o.isClass = true →
    o.name? = some path.last → Agree w nested nested') :
    Agree w (classMember path owner o nested) (classMember path owner o nested') := by
  refine .ite (fun _ => .refl _) fun hidden => .ite (fun _ => .refl _) fun valid => ?_
  refine .ite (fun _ => .refl _) fun internal => .bind ?_ fun _ _ => .refl _
  refine .ite (fun _ => .refl _) fun _ => .bind (.refl _) ?_
  rintro isAlias? ⟨s, p, q, -, look⟩
  refine .ite (fun _ => .refl _) fun own => .ite (fun isClass => ?_) fun _ => .refl _
  have inspected : isInspected path.last = true := by
    simp_all [isInspected]
  have named := (isAlias_ok look).2.2 (Bool.eq_false_iff.mpr own)
  exact .bind (h inspected isClass (named.1 isClass)) fun _ _ => .refl _

theorem classMember_entered (inspected : isInspected path.last = true)
    (own : hasOwnMember owner path.last = true) (hc : o.isClass = true)
    (hn : o.name? = some path.last) {m : ClassMember}
    (h : (classMember path owner o nested).outcome s p = (.ok m, q)) :
    ∃ c r, nested.outcome s p = (.ok c, r) := by
  simp only [isInspected, Bool.and_eq_true, Bool.not_eq_true'] at inspected
  obtain ⟨⟨shown, valid⟩, external⟩ := inspected
  simp only [classMember, shown, own, valid, external, classMemberByKind,
    Object.isRoutine_of_isClass hc, hc, Bool.not_true, Bool.or_self, Bool.false_eq_true, reduceIte] at h
  obtain ⟨kind, r, run, -⟩ := bind_ok_iff.mp h
  rw [bind_of_ok (outcome_isAlias_class hc hn s p)] at run
  simp only [Bool.false_eq_true, reduceIte] at run
  obtain ⟨c, r', run, -⟩ := bind_ok_iff.mp run
  exact ⟨c, r', run⟩

end

section

variable {ownerName : String} {nestedClass nestedClass' : Inspection Class}
  {nestedModule nestedModule' : Inspection Module}

theorem agree_moduleMember (hc : isIdentifier path.last = true → path.last ≠ "annotations" →
      (homeModule? o).any (· != ownerName) = false → o.isClass = true → o.name? = some path.last →
      Agree w nestedClass nestedClass')
    (hm : isIdentifier path.last = true → path.last ≠ "annotations" →
      (homeModule? o).any (· != ownerName) = false → o.isModule = true → o.name? = some path.text →
      Agree w nestedModule nestedModule') :
    Agree w (moduleMember path ownerName o nestedClass nestedModule)
      (moduleMember path ownerName o nestedClass' nestedModule') := by
  refine .ite (fun _ => .refl _) fun valid => .ite (fun _ => .refl _) fun here => ?_
  refine .bind (.refl _) ?_
  rintro isAlias? ⟨s, p, q, -, look⟩
  have named := (isAlias_ok look).2.2
  have identifier : isIdentifier path.last = true := by simpa using valid
  obtain ⟨home, last⟩ : (homeModule? o).any (· != ownerName) = false ∧ path.last ≠ "annotations" := by
    simpa using here
  refine .ite (fun _ => .refl _) fun own => .ite (fun _ => .refl _) fun _ => ?_
  obtain ⟨classNamed, moduleNamed⟩ := named (Bool.eq_false_iff.mpr own)
  refine .ite (fun isClass => ?_) fun _ => .ite (fun isModule => ?_) fun _ => .refl _
  · exact .bind (hc identifier last home isClass (classNamed isClass)) fun _ _ => .refl _
  · exact .bind (hm identifier last home isModule (moduleNamed isModule)) fun _ _ => .refl _

theorem moduleMember_entered (valid : isIdentifier path.last = true)
    (last : path.last ≠ "annotations") (home : (homeModule? o).any (· != ownerName) = false)
    {m : ModuleMember}
    (h : (moduleMember path ownerName o nestedClass nestedModule).outcome s p = (.ok m, q)) :
    (o.isClass = true → o.name? = some path.last → ∃ c r, nestedClass.outcome s p = (.ok c, r)) ∧
      (o.isModule = true → o.name? = some path.text →
        ∃ m r, nestedModule.outcome s p = (.ok m, r)) := by
  simp only [moduleMember, valid, home, last, Bool.not_true, Bool.false_eq_true, decide_false,
    Bool.or_self, reduceIte] at h
  constructor
  · intro hc hn
    rw [bind_of_ok (outcome_isAlias_class hc hn s p)] at h
    simp only [Object.isRoutine_of_isClass hc, hc, Bool.false_eq_true, reduceIte] at h
    obtain ⟨c, r, run, -⟩ := bind_ok_iff.mp h
    exact ⟨c, r, run⟩
  · intro hm hn
    obtain ⟨notRoutine, notClass⟩ := Object.kinds_of_isModule hm
    rw [bind_of_ok (outcome_isAlias_module hm hn s p)] at h
    simp only [notRoutine, notClass, hm, Bool.false_eq_true, reduceIte] at h
    obtain ⟨m, r, run, -⟩ := bind_ok_iff.mp h
    exact ⟨m, r, run⟩

end

/-! Descents that agree. -/

/-- What a descent that goes on with this one gives. -/
def Descent.onward (d : Descent) : Descent := ⟨classWith d, moduleWith d⟩

/-- Follows references a number of times, and then goes on in a given way. -/
def descentOver (bottom : Descent) : Nat → Descent
  | 0 => bottom
  | n + 1 => (descentOver bottom n).onward

theorem descentOver_zero (n : Nat) : descentOver (descent 0) n = descent n := by
  induction n with
  | zero => rfl
  | succ n ih => rw [descentOver, ih, descent, Descent.onward]

/-- Two descents give the same stub of what is at a path. -/
structure AgreeAt (w : World) (d d' : Descent) (node : QualifiedName × Object) : Prop where
  classAt : Agree w (d.classAt node.1 node.2) (d'.classAt node.1 node.2)
  moduleAt : Agree w (d.moduleAt node.1 node.2) (d'.moduleAt node.1 node.2)

section

variable {d d' : Descent} {node : QualifiedName × Object} {site : QualifiedName}

theorem agree_classStep {owner : Object} (hc : owner.isClass = true)
    (hx : (name, x) ∈ owner.members) (h : ∀ next, w.Enters (site, owner) next →
      AgreeAt w d d' next ∧ AgreeAt w d.onward d'.onward next) :
    Agree w (classStep d site owner name x) (classStep d' site owner name x) := by
  refine .settle x (agree_classMember fun inspected isClass named => ?_)
  rw [QualifiedName.last_member] at inspected named
  obtain ⟨led, described⟩ := h _ (.inClass hc hx inspected isClass named)
  refine .ite (fun _ => led.classAt) fun own => ?_
  obtain ⟨core, noRef⟩ := Object.core_of_not_reference (Bool.eq_false_iff.mpr own)
  have same := (World.settle_readFrom noRef isClass).trans core
  exact same ▸ described.classAt

theorem agree_moduleStep {ownerName : String} (hx : (name, x) ∈ ms)
    (h : ∀ next, w.Enters (site, .moduleDef ownerName doc ms) next →
      AgreeAt w d d' next ∧ AgreeAt w d.onward d'.onward next) :
    Agree w (moduleStep d site ownerName name x) (moduleStep d' site ownerName name x) := by
  refine .settle x (agree_moduleMember ?_ ?_)
  · intro valid last home isClass named
    rw [QualifiedName.last_member] at valid last named
    obtain ⟨led, described⟩ := h _ (.inModule hx valid last home (.inl ⟨isClass, named⟩))
    refine .ite (fun _ => led.classAt) fun own => ?_
    have same := World.settle_eq_self (Bool.eq_false_iff.mpr own) (Bool.or_eq_true_iff.mpr (.inl isClass))
    exact same ▸ described.classAt
  · intro valid last home isModule named
    rw [QualifiedName.last_member] at valid last
    obtain ⟨led, described⟩ := h _ (.inModule hx valid last home (.inr ⟨isModule, named⟩))
    refine .ite (fun _ => led.moduleAt) fun own => ?_
    have same := World.settle_eq_self (Bool.eq_false_iff.mpr own) (Bool.or_eq_true_iff.mpr (.inr isModule))
    exact same ▸ described.moduleAt

/-- Descents that agree on all that is entered from a place agree there, one reference further. -/
theorem AgreeAt.onward (h : ∀ next, w.Enters node next →
    AgreeAt w d d' next ∧ AgreeAt w d.onward d'.onward next) :
    AgreeAt w d.onward d'.onward node := by
  obtain ⟨site, o⟩ := node
  constructor
  · cases o with
    | classDef identity metatype bases ms =>
      simp only [Descent.onward, classWith, classMembersWith_eq]
      refine agree_classBody ?_
      rw [forall₂_map_left_iff, forall₂_map_right_iff, forall₂_same]
      exact fun m hm => ⟨rfl, agree_classStep rfl hm h⟩
    | _ => exact .refl _
  · cases o with
    | moduleDef name doc ms =>
      simp only [Descent.onward, moduleWith, moduleMembersWith_eq]
      refine agree_moduleBody ?_
      rw [forall₂_map_left_iff, forall₂_map_right_iff, forall₂_same]
      exact fun m hm => ⟨rfl, agree_moduleStep hm h⟩
    | _ => exact .refl _

theorem agreeAt_descentOver {owners : List Object} (hw : w.Holds owners)
    (ho : node.2.owners ⊆ owners) (once : ¬ w.Recurs node.1 node.2) (bottom bottom' : Descent)
    (hn : w.depth owners node ≤ n) :
    AgreeAt w (descentOver bottom n).onward (descentOver bottom' n).onward node := by
  induction hd : w.depth owners node using Nat.strong_induction_on generalizing node n with
  | _ k ih =>
    refine AgreeAt.onward fun next e => ?_
    have deeper : w.depth owners next < w.depth owners node := e.depth_lt hw ho once
    have inside := e.owners_subset hw ho
    have once' : ¬ w.Recurs next.1 next.2 := fun h => once (h.of_enters e)
    refine ⟨?_, ih _ (hd ▸ deeper) inside once' (deeper.le.trans hn) rfl⟩
    -- A reference takes one of the steps, and there is one left: something is entered here.
    obtain ⟨n, rfl⟩ : ∃ k, n = k + 1 := Nat.exists_eq_add_one.mpr (by omega)
    exact ih _ (hd ▸ deeper) inside once' (by omega) rfl

end

/-! Stubs that are returned. -/

def ReturnsAt (w : World) (d : Descent) (node : QualifiedName × Object) : Prop :=
  ∃ s p q, s.world = w ∧ ((∃ c, (d.classAt node.1 node.2).outcome s p = (.ok c, q)) ∨
    ∃ m, (d.moduleAt node.1 node.2).outcome s p = (.ok m, q))

theorem moduleWith_takes {ownerName : String} {m : Module}
    (h : (moduleWith (descent n) path (.moduleDef ownerName doc ms)).outcome s p = (.ok m, q)) (hx : (name, x) ∈ ms) :
    ∃ member p' q', (moduleStep (descent n) path ownerName name x).outcome s p' = (.ok member, q') := by
  simp only [moduleWith] at h
  obtain ⟨m₁, p₁, q₁, added, -⟩ := moduleBody_gathers h
  obtain ⟨members, -, each⟩ := gather_ok (forall_ordered
    (composed_moduleMember _ _ _ (.plain (.throw .missingAttribute)) (.plain (.throw .missingAttribute)))
    fun m hm => composed_moduleMembersWith (composed_descent n) path _ ms m hm) added
  rw [moduleMembersWith_eq] at each
  obtain ⟨member, -, -, p₂, q₂, -, outcome, -⟩ :=
    Forall₂.exists_of_mem each (mem_inNameOrder_withDoc (mem_map_of_mem hx))
  exact ⟨member.2, p₂, q₂, outcome⟩

variable {node next : QualifiedName × Object}

theorem sizeOf_lt_of_mem_members {m : String × Object} (h : m ∈ o.members) :
    sizeOf m.2 < sizeOf o := by
  have pair : sizeOf m.2 < sizeOf m := by
    obtain ⟨name, x⟩ := m
    simp only [Prod.mk.sizeOf_spec]
    omega
  cases o with
  | classDef identity metatype bases ms =>
    have inside : sizeOf m < sizeOf ms := sizeOf_lt_of_mem h
    simp only [Object.classDef.sizeOf_spec]
    omega
  | moduleDef name doc ms =>
    have inside : sizeOf m < sizeOf ms := sizeOf_lt_of_mem h
    simp only [Object.moduleDef.sizeOf_spec]
    omega
  | _ => cases h

/-- Where a stub is returned, the stubs of all that is entered are: those of references by the descent
that follows them, and those of what is described in the place by the same descent. -/
theorem ReturnsAt.enters (h : ReturnsAt w (descent n).onward node) (e : w.Enters node next) :
    ReturnsAt w (descent n) next ∨
      ReturnsAt w (descent n).onward next ∧ sizeOf next.2 < sizeOf node.2 := by
  obtain ⟨s, p, q, rfl, run⟩ := h
  cases e with
  | @inClass site owner x name isClass hx inspected shown named =>
    cases owner with
    | classDef identity metatype bases ms =>
      obtain ⟨c, run⟩ | ⟨m, run⟩ := run
      · obtain ⟨m, p', q', step, -⟩ := classWith_takes rfl run hx
        obtain ⟨_, r, look, inside⟩ := bind_ok_iff.mp step
        cases look
        have own : hasOwnMember (.classDef identity metatype bases ms) name = true :=
          Bool.or_eq_true_iff.mpr (.inl (any_eq_true.mpr ⟨_, hx, decide_eq_true rfl⟩))
        rw [← site.last_member name] at inspected own named
        obtain ⟨c, r, nested⟩ := classMember_entered inspected own shown named inside
        split at nested
        · exact .inl ⟨s, _, r, rfl, .inl ⟨c, nested⟩⟩
        · rename_i noRef
          obtain ⟨core, noRef⟩ := Object.core_of_not_reference (Bool.eq_false_iff.mpr noRef)
          rw [(World.settle_readFrom noRef shown).trans core]
          exact .inr ⟨⟨s, _, r, rfl, .inl ⟨c, nested⟩⟩, sizeOf_lt_of_mem_members hx⟩
      · cases run
    | _ => cases isClass
  | @inModule site ownerName name doc ms x hx valid last home kind =>
    obtain ⟨c, run⟩ | ⟨m, run⟩ := run
    · cases run
    · obtain ⟨m, p', q', step⟩ := moduleWith_takes run hx
      obtain ⟨_, r, look, inside⟩ := bind_ok_iff.mp step
      cases look
      rw [← site.last_member name] at valid last
      obtain ⟨asClass, asModule⟩ := moduleMember_entered valid last home inside
      have own : isReference x = false → s.world.settle x = x := by
        intro noRef
        exact World.settle_eq_self noRef (Bool.or_eq_true_iff.mpr (kind.imp And.left And.left))
      have smaller : sizeOf x < sizeOf (Object.moduleDef ownerName doc ms) :=
        sizeOf_lt_of_mem_members (m := (name, x)) hx
      rcases kind with ⟨isClass, named⟩ | ⟨isModule, named⟩
      · obtain ⟨c, r, nested⟩ := asClass isClass (named.trans (congrArg some (site.last_member name).symm))
        split at nested
        · exact .inl ⟨s, _, r, rfl, .inl ⟨c, nested⟩⟩
        · rename_i noRef
          rw [own (Bool.eq_false_iff.mpr noRef)]
          exact .inr ⟨⟨s, _, r, rfl, .inl ⟨c, nested⟩⟩, smaller⟩
      · obtain ⟨m, r, nested⟩ := asModule isModule named
        split at nested
        · exact .inl ⟨s, _, r, rfl, .inr ⟨m, nested⟩⟩
        · rename_i noRef
          rw [own (Bool.eq_false_iff.mpr noRef)]
          exact .inr ⟨⟨s, _, r, rfl, .inr ⟨m, nested⟩⟩, smaller⟩

theorem ReturnsAt.unfolds_onward
    (led : ∀ ⦃next⦄, ReturnsAt w (descent n) next → w.Unfolds next.1 next.2)
    (h : ReturnsAt w (descent n).onward node) : w.Unfolds node.1 node.2 := by
  induction hs : sizeOf node.2 using Nat.strong_induction_on generalizing node with
  | _ k ih =>
    refine Acc.intro _ fun next e => ?_
    rcases h.enters e with followed | ⟨described, smaller⟩
    · exact led followed
    · exact ih _ (hs ▸ smaller) described rfl

/-- A stub is returned only if the inspection unfolds. -/
theorem ReturnsAt.unfolds (h : ReturnsAt w (descent n) node) : w.Unfolds node.1 node.2 := by
  induction n generalizing node with
  | zero =>
    obtain ⟨s, p, q, -, ⟨c, run⟩ | ⟨m, run⟩⟩ := h
    · cases run
    · cases run
  | succ n ih => exact unfolds_onward (fun _ => ih) h

/-- The inspection of a module comes to an end exactly if it enters no class again inside itself. It is
then no deeper than the world has reach, whatever would happen there. Otherwise no stub is made. -/
theorem unfolds_unless_class_recurs (described : List Object) (path : QualifiedName) {name : String}
    {root : Object} (h : (name, root) ∈ (World.ofModules described).modules) :
    ((World.ofModules described).Unfolds path root ↔ ¬ (World.ofModules described).Recurs path root) ∧
      ∀ s p, s.world = World.ofModules described →
        ((World.ofModules described).Unfolds path root → ∀ bottom,
          (moduleWith (descentOver bottom s.world.reach) path root).outcome s p =
            (moduleOf path root).outcome s p) ∧
        (¬ (World.ofModules described).Unfolds path root → ∀ m q,
          (moduleOf path root).outcome s p ≠ (.ok m, q)) := by
  have holds := World.holds_ownersOf described
  refine ⟨⟨World.Unfolds.not_recurs, World.unfolds_of_not_recurs holds (holds _ h)⟩, ?_⟩
  refine fun s p hs => ⟨fun unfolds bottom => ?_, fun endless m q run => ?_⟩
  · have deep : (World.ofModules described).depth (World.ownersOf described) (path, root) ≤
        s.world.reach := by
      rw [hs]
      exact (World.depth_le _ _ _).trans (World.length_ownersOf_le described)
    have same := agreeAt_descentOver holds (holds _ h) unfolds.not_recurs bottom (descent 0) deep
    rw [descentOver_zero] at same
    rw [outcome_moduleOf]
    exact same.moduleAt hs
  · rw [outcome_moduleOf] at run
    have returned : ReturnsAt _ (descent (s.world.reach + 1)) (path, root) :=
      ⟨s, p, q, hs, .inr ⟨m, run⟩⟩
    exact endless returned.unfolds

theorem mem_modules_ofModules {described : List Object} (h : .moduleDef name doc ms ∈ described) :
    (name, .moduleDef name doc ms) ∈ (World.ofModules described).modules := by
  have own : (name, .moduleDef name doc ms) ∈ (Object.moduleDef name doc ms).modules := by
    rw [Object.modules]
    exact mem_cons_self
  exact mem_append_left _ (mem_reverse.mpr (mem_flatMap.mpr ⟨_, h, own⟩))

/-- A module with two classes that lead to each other. Only one of them stands under its own name in
the other. -/
def crossing : Object := .moduleDef "m" none
  [("A", classOfM "A" "A" [("B", .ref ⟨["m", "B"]⟩)]),
    ("B", classOfM "B" "B" [("up", .ref ⟨["m", "A"]⟩), ("home", .ref ⟨["m"]⟩)])]

/-- References go around in `crossing`, and its inspection comes to an end all the same. -/
theorem crossing_unfolds : ("m", crossing) ∈ (World.ofModules [crossing]).modules ∧
    (World.ofModules [crossing]).Unfolds ⟨["m"]⟩ crossing ∧
    ¬ (World.ofModules [crossing]).Recurs ⟨["m"]⟩ crossing ∧
    ∀ bottom, (moduleWith (descentOver bottom (worldOf crossing).world.reach) ⟨["m"]⟩
        crossing).outcome (worldOf crossing) {} =
      (moduleOf ⟨["m"]⟩ crossing).outcome (worldOf crossing) {} := by
  have listed : ("m", crossing) ∈ (World.ofModules [crossing]).modules :=
    mem_modules_ofModules (mem_singleton_self _)
  obtain ⟨ends, all⟩ := unfolds_unless_class_recurs [crossing] ⟨["m"]⟩ listed
  obtain ⟨same, noStub⟩ := all (worldOf crossing) {} rfl
  have returns : ((moduleOf ⟨["m"]⟩ crossing).outcome (worldOf crossing) {}).1.toOption.isSome =
      true := by
    rw [worldOf, World.ofModules_eq]
    decide +kernel
  have unfolds : (World.ofModules [crossing]).Unfolds ⟨["m"]⟩ crossing := by
    by_contra endless
    rcases run : (moduleOf ⟨["m"]⟩ crossing).outcome (worldOf crossing) {} with ⟨e | m, q⟩
    · rw [run] at returns
      cases returns
    · exact noStub endless m q run
  exact ⟨listed, unfolds, ends.mp unfolds, same unfolds⟩

def ownMember : Object := classOfM "A" "A" [("A", .ref ⟨["m", "A"]⟩)]

def looping : Object := .moduleDef "m" none [("A", ownMember)]

theorem looping_recurs : (World.ofModules [looping]).Recurs ⟨["m"]⟩ looping := by
  have described : (World.ofModules [looping]).settle ownMember = ownMember := rfl
  have first : (World.ofModules [looping]).Enters (⟨["m"]⟩, looping) (⟨["m", "A"]⟩, ownMember) := by
    have e : (World.ofModules [looping]).Enters (⟨["m"]⟩, looping)
        ((QualifiedName.mk ["m"]).member "A", (World.ofModules [looping]).settle ownMember) := by
      refine .inModule (mem_singleton_self _) (by decide) (by decide) ?_ (.inl ?_)
      · rw [described]
        decide
      · rw [described]
        exact ⟨rfl, rfl⟩
    rwa [described] at e
  have led : ((World.ofModules [looping]).settle (.ref ⟨["m", "A"]⟩)).readFrom ownMember =
      ownMember := by
    have settled : (World.ofModules [looping]).settle (.ref ⟨["m", "A"]⟩) = ownMember := by
      rw [World.ofModules_eq]
      rfl
    rw [settled]
    exact Object.readFrom_of_isClass ownMember rfl
  have again : (World.ofModules [looping]).Enters (⟨["m", "A"]⟩, ownMember)
      (⟨["m", "A", "A"]⟩, ownMember) := by
    have e : (World.ofModules [looping]).Enters (⟨["m", "A"]⟩, ownMember)
        ((QualifiedName.mk ["m", "A"]).member "A",
          ((World.ofModules [looping]).settle (.ref ⟨["m", "A"]⟩)).readFrom ownMember) := by
      refine .inClass rfl (mem_singleton_self _) (by decide) ?_ ?_
      · rw [led]
        rfl
      · rw [led]
        rfl
    rwa [led] at e
  exact ⟨ownMember, ⟨["m", "A"]⟩, ⟨["m", "A", "A"]⟩, rfl, .single first, .single again⟩

/-- The class of `looping` is entered again and again, and no stub is made. -/
theorem looping_has_no_end : ("m", looping) ∈ (World.ofModules [looping]).modules ∧
    ¬ (World.ofModules [looping]).Unfolds ⟨["m"]⟩ looping ∧
    ∀ p m q, (moduleOf ⟨["m"]⟩ looping).outcome (worldOf looping) p ≠ (.ok m, q) := by
  have listed : ("m", looping) ∈ (World.ofModules [looping]).modules :=
    mem_modules_ofModules (mem_singleton_self _)
  have endless : ¬ (World.ofModules [looping]).Unfolds ⟨["m"]⟩ looping :=
    fun unfolds => unfolds.not_recurs looping_recurs
  refine ⟨listed, endless, ?_⟩
  intro p m q run
  rw [outcome_moduleOf] at run
  have returned : ReturnsAt _ (descent ((World.ofModules [looping]).reach + 1)) (⟨["m"]⟩, looping) :=
    ⟨worldOf looping, p, q, rfl, .inr ⟨m, run⟩⟩
  exact endless returned.unfolds

end Inspection

end TypeStubs
