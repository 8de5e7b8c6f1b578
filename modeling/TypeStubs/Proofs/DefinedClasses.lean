import Mathlib.Data.List.Induction
import TypeStubs.Proofs.BoundMembers

/-! The places where the stub of a module defines classes. Every class is defined where it is
described, and only there, unless a reference shows it under its own name. -/

namespace TypeStubs

open List

variable {base n : QualifiedName} {c : Class} {name : String}

namespace QualifiedName

def Below (base n : QualifiedName) : Prop := base.parts <+: n.parts

theorem below_self (n : QualifiedName) : n.Below n := prefix_rfl

theorem Below.parent {part : String} (h : (base.member part).Below n) : base.Below n :=
  (prefix_append base.parts [part]).trans h

theorem Below.ne {part : String} (h : (base.member part).Below n) : n ≠ base := by
  rintro rfl
  have longer := h.length_le
  simp only [member, length_append, length_singleton] at longer
  omega

theorem Below.part_eq {a b : String} (ha : (base.member a).Below n) (hb : (base.member b).Below n) :
    a = b := by
  obtain ⟨as, ha⟩ := ha
  obtain ⟨bs, hb⟩ := hb
  have same := ha.trans hb.symm
  simp only [member, append_assoc] at same
  exact (List.cons.inj (append_cancel_left same)).1

end QualifiedName

mutual

def Class.definitions (site : QualifiedName) : Class → List (QualifiedName × Class)
  | .mk name doc bases classes fields methods properties aliases =>
    (site, .mk name doc bases classes fields methods properties aliases) ::
      Class.allDefinitions site classes

def Class.allDefinitions (site : QualifiedName) : List Class → List (QualifiedName × Class)
  | [] => []
  | c :: cs => Class.definitions (site.member c.name) c ++ Class.allDefinitions site cs

end

mutual

def Module.definitions (site : QualifiedName) : Module → List (QualifiedName × Class)
  | .mk _ _ classes _ subModules _ _ _ _ =>
    Class.allDefinitions site classes ++ Module.allDefinitions site subModules

def Module.allDefinitions (site : QualifiedName) : List Module → List (QualifiedName × Class)
  | [] => []
  | m :: ms => Module.definitions (site.member m.name) m ++ Module.allDefinitions site ms

end

theorem Class.definitions_eq (site : QualifiedName) (c : Class) :
    c.definitions site = (site, c) :: allDefinitions site c.classes := by
  cases c
  rw [definitions]

theorem Class.allDefinitions_append (site : QualifiedName) (cs ds : List Class) :
    allDefinitions site (cs ++ ds) = allDefinitions site cs ++ allDefinitions site ds := by
  induction cs with
  | nil => rw [allDefinitions]; rfl
  | cons c cs ih => rw [cons_append, allDefinitions, allDefinitions, ih, append_assoc]

theorem Module.definitions_eq (site : QualifiedName) (m : Module) :
    m.definitions site = Class.allDefinitions site m.classes ++ allDefinitions site m.subModules := by
  cases m
  rw [definitions]

theorem Module.allDefinitions_append (site : QualifiedName) (ms ns : List Module) :
    allDefinitions site (ms ++ ns) = allDefinitions site ms ++ allDefinitions site ns := by
  induction ms with
  | nil => rw [allDefinitions]; rfl
  | cons m ms ih => rw [cons_append, allDefinitions, allDefinitions, ih, append_assoc]

def ModuleMember.definitions (site : QualifiedName) : ModuleMember → List (QualifiedName × Class)
  | .nested c => c.definitions (site.member c.name)
  | .subModule m => m.definitions (site.member m.name)
  | _ => []

theorem Module.definitions_add (site : QualifiedName) (m : Module) (member : ModuleMember) :
    ((m.add member).definitions site).Perm (m.definitions site ++ member.definitions site) := by
  rw [definitions_eq, definitions_eq]
  cases member with
  | nested c =>
    simp only [add, ModuleMember.definitions, Class.allDefinitions_append, Class.allDefinitions,
      append_nil, append_assoc]
    exact perm_append_comm.append_left _
  | subModule n =>
    simp only [add, ModuleMember.definitions, allDefinitions_append, allDefinitions,
      append_nil, append_assoc]
    exact .refl _
  | _ => exact .of_eq (append_nil _).symm

theorem Module.definitions_foldl_add (site : QualifiedName) (members : List (String × ModuleMember))
    (m : Module) : ((members.foldl (fun m x => m.add x.2) m).definitions site).Perm
      (m.definitions site ++ members.flatMap fun x => x.2.definitions site) := by
  induction members generalizing m with
  | nil => simp
  | cons x members ih =>
    rw [foldl_cons, flatMap_cons, ← append_assoc]
    exact (ih _).trans ((m.definitions_add site x.2).append_right _)

/-! What is described where. -/

namespace Object

variable {o : Object}

/-- What is inside all the wrappers of an object. -/
def core : Object → Object
  | wrapped _ inner => inner.core
  | o => o

/-- The object stands somewhere else. -/
def isRef : Object → Bool
  | ref _ => true
  | _ => false

theorem core_of_isClass (h : o.isClass = true) : o.core = o := by
  cases o with
  | classDef => rfl
  | _ => cases h

theorem core_of_not_reference (h : Inspection.isReference o = false) :
    o.core = o ∧ o.core.isRef = false := by
  cases o with
  | ref | wrapped => cases h
  | _ => exact ⟨rfl, rfl⟩

theorem boundTo_isClass {owner : Object} (h : (boundTo owner o).isClass = true) :
    boundTo owner o = o.core := by
  fun_induction boundTo owner o with
  | case2 inner => exact (core_of_isClass h).symm
  | case3 inner ih => exact ih h
  | case1 | case4 | case5 | case6 => cases h

theorem readFrom_isClass {owner : Object} (h : (o.readFrom owner).isClass = true) :
    o.readFrom owner = o.core := by
  cases o with
  | wrapped wrapping inner =>
    cases wrapping with
    | shared => exact (core_of_isClass h).symm
    | classwide => exact boundTo_isClass h
  | classDef => rfl
  | _ => cases h

theorem readFrom_of_isClass (owner : Object) (h : o.isClass = true) :
    o.readFrom owner = o := by
  cases o with
  | classDef => rfl
  | _ => cases h

end Object

namespace World

variable {w : World} {o : Object} {site : QualifiedName}

theorem core_followAt? {n : Nat} {l : Located}
    (ho : o.core.isRef = false) (h : w.followAt? n ⟨site, o⟩ = some l)
    (hl : (l.object.core.isClass || l.object.core.isModule) = true) : l.object.core = o.core := by
  induction n generalizing o l with
  | zero =>
    rw [followAt?] at h
    cases h
  | succ n ih =>
    cases o with
    | ref path => cases ho
    | wrapped wrapping inner =>
      simp only [followAt?, Option.bind_eq_bind, Option.bind_eq_some_iff, Option.pure_def,
        Option.some.injEq] at h
      obtain ⟨l', hi, rfl⟩ := h
      exact ih (o := inner) (l := l') ho hi hl
    | property getter setter doc =>
      simp only [followAt?, Option.bind_eq_bind, Option.bind_eq_some_iff, Option.pure_def,
        Option.some.injEq] at h
      obtain ⟨getter', -, setter', -, rfl⟩ := h
      cases hl
    | _ =>
      simp only [followAt?, Option.some.injEq] at h
      subst h
      rfl

theorem settle_readFrom {owner : Object} (ho : o.core.isRef = false)
    (h : ((w.settle o).readFrom owner).isClass = true) : (w.settle o).readFrom owner = o.core := by
  have core := Object.readFrom_isClass h
  rw [core] at h ⊢
  unfold settle settle? at h ⊢
  cases hf : w.followAt? w.reach ⟨⟨[]⟩, o⟩ with
  | none =>
    rw [hf] at h
    cases h
  | some l =>
    rw [hf] at h
    refine core_followAt? ho hf ?_
    rw [Bool.or_eq_true]
    exact .inl h

theorem settle_eq_self (ho : Inspection.isReference o = false)
    (h : ((w.settle o).isClass || (w.settle o).isModule) = true) : w.settle o = o := by
  obtain ⟨own, noRef⟩ := Object.core_of_not_reference ho
  have shown : (w.settle o).core = w.settle o := by
    cases hs : w.settle o with
    | wrapped =>
      rw [hs] at h
      cases h
    | _ => rfl
  rw [← shown] at h ⊢
  unfold settle settle? at h ⊢
  cases hf : w.followAt? w.reach ⟨⟨[]⟩, o⟩ with
  | none =>
    rw [hf] at h
    cases h
  | some l =>
    rw [hf] at h
    exact (core_followAt? noRef hf h).trans own

/-- An object is described at a place: the one at the root, members of what is described that are no
references, and modules that stand where their names say. -/
inductive Described (w : World) (path : QualifiedName) (root : Object) :
    QualifiedName → Object → Prop
  | root : Described w path root path root
  | member {site : QualifiedName} {owner x : Object} {name : String} :
      Described w path root site owner → (name, x) ∈ owner.members → x.core.isRef = false →
      Described w path root (site.member name) x.core
  | subModule {site : QualifiedName} {owner x : Object} {name : String} :
      Described w path root site owner → (name, x) ∈ owner.members →
      (w.settle x).isModule = true → (w.settle x).name? = some (site.member name).text →
      Described w path root (site.member name) (w.settle x)

/-- Nothing that is described has two members of one name. -/
def NamesDistinct (w : World) (path : QualifiedName) (root : Object) : Prop :=
  ∀ ⦃site owner⦄, w.Described path root site owner → (owner.members.map Prod.fst).Nodup

/-- A reference shows a class under its own name, as a member of a class, or as a member of the module
that the class says it belongs to. -/
inductive Repeated (w : World) (path : QualifiedName) (root : Object) : QualifiedName → Prop
  | reference {site : QualifiedName} {owner x : Object} {name : String} :
      w.Described path root site owner → (name, x) ∈ owner.members → x.core.isRef = true →
      ((w.settle x).readFrom owner).isClass = true →
      ((w.settle x).readFrom owner).name? = some name →
      (owner.isModule = true → ∀ home ∈ ((w.settle x).readFrom owner).moduleName?,
        owner.name? = some home) → Repeated w path root (site.member name)
  | member {site : QualifiedName} (name : String) : Repeated w path root site →
      Repeated w path root (site.member name)

theorem Repeated.of_below {path : QualifiedName} {root : Object}
    (h : w.Repeated path root site) (hn : site.Below n) : w.Repeated path root n := by
  obtain ⟨parts⟩ := n
  obtain ⟨more, rfl⟩ := hn
  induction more using reverseRecOn with
  | nil =>
    rw [append_nil]
    exact h
  | append_singleton more name ih =>
    rw [← append_assoc]
    exact .member name ih

end World

namespace Inspection

section

variable (s : Setting) (path : QualifiedName) (root : Object)

def IsStubOf (site : QualifiedName) (o : Object) (c : Class) : Prop :=
  ∃ n p q, (classWith (descent n) site o).outcome s p = (.ok c, q)

/-- Classes are defined inside some scope, each where it is described and only there, apart from those
that references repeat. -/
structure DefinesOnce (scope : QualifiedName → Prop) (defs : List (QualifiedName × Class)) :
    Prop where
  inside : ∀ e ∈ defs, scope e.1
  described : ∀ e ∈ defs, s.world.Repeated path root e.1 ∨
    ∃ o, s.world.Described path root e.1 o ∧ IsStubOf s e.1 o e.2
  once : defs.Pairwise fun a b => a.1 ≠ b.1 ∨ s.world.Repeated path root a.1

end

variable {s : Setting} {path site : QualifiedName} {root owner o : Object}
  {scope : QualifiedName → Prop} {defs : List (QualifiedName × Class)}

theorem DefinesOnce.nil : DefinesOnce s path root scope [] :=
  ⟨forall_mem_nil _, forall_mem_nil _, .nil⟩

theorem DefinesOnce.perm {defs' : List (QualifiedName × Class)}
    (h : DefinesOnce s path root scope defs) (hp : defs.Perm defs') :
    DefinesOnce s path root scope defs' := by
  refine ⟨fun e he => h.inside e (hp.mem_iff.mpr he), fun e he => h.described e (hp.mem_iff.mpr he),
    (hp.pairwise_iff ?_).mp h.once⟩
  intro a b hab
  by_cases same : a.1 = b.1
  · exact hab.elim (fun ne => (ne same).elim) fun repeated => .inr (same ▸ repeated)
  · exact .inl (Ne.symm same)

theorem DefinesOnce.join {α : Type} {f : α → List (QualifiedName × Class)}
    {members : List (String × α)}
    (distinct : (members.map Prod.fst).Nodup ∨ s.world.Repeated path root site)
    (each : ∀ x ∈ members, DefinesOnce s path root (site.member x.1).Below (f x.2)) :
    DefinesOnce s path root (fun n => ∃ name, (site.member name).Below n)
      (members.flatMap fun x => f x.2) := by
  induction members with
  | nil => exact .nil
  | cons x members ih =>
    obtain ⟨hx, each⟩ := forall_mem_cons.mp each
    have rest := ih (distinct.imp_left fun nodup => (nodup_cons.mp nodup).2) each
    rw [flatMap_cons]
    refine ⟨fun e he => ?_, fun e he => ?_, pairwise_append.mpr ⟨hx.once, rest.once, ?_⟩⟩
    · rcases mem_append.mp he with he | he
      · exact ⟨x.1, hx.inside e he⟩
      · exact rest.inside e he
    · exact (mem_append.mp he).elim (hx.described e) (rest.described e)
    · intro a ha b hb
      rcases distinct with nodup | repeated
      · refine .inl fun same => ?_
        obtain ⟨y, hy, hb⟩ := mem_flatMap.mp hb
        have mine := hx.inside a ha
        rw [same] at mine
        have names := mine.part_eq ((each y hy).inside b hb)
        exact (nodup_cons.mp nodup).1 (names ▸ mem_map_of_mem hy)
      · exact .inr (repeated.of_below (hx.inside a ha).parent)

theorem DefinesOnce.cons (hc : s.world.Repeated path root site ∨
      ∃ o, s.world.Described path root site o ∧ IsStubOf s site o c)
    (h : DefinesOnce s path root (fun n => ∃ name, (site.member name).Below n) defs) :
    DefinesOnce s path root site.Below ((site, c) :: defs) := by
  refine ⟨forall_mem_cons.mpr ⟨site.below_self, fun e he => ?_⟩,
    forall_mem_cons.mpr ⟨hc, h.described⟩, .cons (fun e he => .inl ?_) h.once⟩
  · obtain ⟨name, below⟩ := h.inside e he
    exact below.parent
  · obtain ⟨name, below⟩ := h.inside e he
    exact Ne.symm below.ne

/-! Classes. -/

variable {p q : Progress}

/-- A class comes into the stub of a class by the inspection of a member that stands under its own
name. -/
theorem ClassStep.nested_of_mem {nested : Inspection Class} {m : ClassMember}
    (h : ClassStep s site owner o nested p q m) (hc : c ∈ m.classes) :
    m.classes = [c] ∧ o.isClass = true ∧ o.name? = some site.last ∧
      nested.outcome s p = (.ok c, q) := by
  have none {P : Prop} (hc : c ∈ ([] : List Class)) : P := absurd hc not_mem_nil
  refine h.elim (motive := fun m => c ∈ m.classes → m.classes = [c] ∧ o.isClass = true ∧
    o.name? = some site.last ∧ nested.outcome s p = (.ok c, q)) none (fun _ _ => none)
    (fun _ => none) (fun c' isClass named outcome hc => ?_) (fun _ => none) (fun _ => none)
    (fun _ _ => none) hc
  cases mem_singleton.mp hc
  exact ⟨rfl, isClass, named, outcome⟩

theorem allDefinitions_foldl_add (members : List (String × ClassMember)) (c : Class) :
    Class.allDefinitions site (members.foldl (fun c x => c.add x.2) c).classes =
      Class.allDefinitions site c.classes ++
        members.flatMap fun x => Class.allDefinitions site x.2.classes := by
  induction members generalizing c with
  | nil => simp
  | cons x members ih =>
    rw [foldl_cons, ih, Class.classes_add, Class.allDefinitions_append, flatMap_cons, append_assoc]

/-- An object is described at a place, or a reference repeats what stands there. -/
def IsPlaced (s : Setting) (path : QualifiedName) (root : Object) (site : QualifiedName) (o : Object) :
    Prop :=
  s.world.Described path root site o ∨ s.world.Repeated path root site

theorem IsPlaced.member {x : Object} (ho : IsPlaced s path root site owner)
    (hx : (name, x) ∈ owner.members) (isClass : ((s.world.settle x).readFrom owner).isClass = true)
    (named : ((s.world.settle x).readFrom owner).name? = some name)
    (home : owner.isModule = true → ∀ home ∈ ((s.world.settle x).readFrom owner).moduleName?,
      owner.name? = some home) :
    IsPlaced s path root (site.member name) ((s.world.settle x).readFrom owner) := by
  rcases ho with described | repeated
  · cases hr : x.core.isRef with
    | true => exact .inr (.reference described hx hr isClass named home)
    | false =>
      rw [World.settle_readFrom hr isClass]
      exact .inl (described.member hx hr)
  · exact .inr (repeated.member name)

theorem definesOnce_gathered {α : Type} {f : α → List (QualifiedName × Class)}
    {steps : List (String × Inspection α)} {doc : Inspection α} {members : List (String × α)}
    (distinct : (steps.map Prod.fst).Nodup ∨ s.world.Repeated path root site)
    (each : ∀ step ∈ steps, Ensures s step.2 fun x =>
      DefinesOnce s path root (site.member step.1).Below (f x))
    (hdoc : Ensures s doc fun x => f x = [])
    (run : Forall₂ (fun step x => x.1 = step.1 ∧ TakesPlace s p q step.2 x.2)
      (inNameOrder (withDoc steps doc)) members) :
    DefinesOnce s path root (fun n => ∃ name, (site.member name).Below n)
      (members.flatMap fun x => f x.2) := by
  have ordered : (inNameOrder (withDoc steps doc)).Perm (withDoc steps doc) := sortBy_perm _ _
  have keys : members.map Prod.fst = (inNameOrder (withDoc steps doc)).map Prod.fst :=
    (Forall₂.map_eq_map run fun _ _ h => h.1.symm).symm
  refine .join (distinct.imp_left fun nodup => ?_) fun x hx => ?_
  · rw [keys]
    exact (ordered.map Prod.fst).symm.nodup (nodup_withDoc nodup)
  · obtain ⟨step, hstep, name, p', q', -, outcome, -⟩ := Forall₂.exists_of_mem run.flip hx
    rw [name]
    have hstep := ordered.mem_iff.mp hstep
    unfold withDoc at hstep
    split at hstep
    · exact each step hstep outcome
    · cases hstep with
      | head => exact hdoc outcome ▸ .nil
      | tail _ hstep => exact each step hstep outcome

theorem classBody_definesOnce {bases : List QualifiedName}
    {members : List (String × Inspection ClassMember)}
    (distinct : (members.map Prod.fst).Nodup ∨ s.world.Repeated path root site)
    (enclosed : ∀ m ∈ members, Enclosed m.2)
    (each : ∀ m ∈ members, Ensures s m.2 fun x => DefinesOnce s path root (site.member m.1).Below
      (Class.allDefinitions site x.classes)) :
    Ensures s (classBody site o bases members) fun c =>
      DefinesOnce s path root (fun n => ∃ name, (site.member name).Below n)
        (Class.allDefinitions site c.classes) := by
  intro p q c h
  obtain ⟨names, p', q', -, -, added⟩ := classBody_ok h
  obtain ⟨gathered, rfl, run⟩ := gather_ok (forall_ordered
    (.enclosed (enclosed_classMember _ _ _ (.plain (.throw .missingAttribute))))
    fun m hm => .enclosed (enclosed m hm)) added
  have doc : Ensures s (classMember (site.member "__doc__") o (.ofText? o.doc?)
      (throw .missingAttribute)) fun x => Class.allDefinitions site x.classes = [] := by
    intro p q x hx
    cases hc : x.classes with
    | nil => rw [Class.allDefinitions]
    | cons c cs =>
      have shown := (classMember_ok hx).nested_of_mem (c := c) (hc ▸ mem_cons_self)
      cases shown.2.2.2
  have start : Class.allDefinitions site (Class.classes { name := site.last, bases := names }) = [] := by
    rw [Class.allDefinitions]
  rw [allDefinitions_foldl_add, start, nil_append]
  exact definesOnce_gathered (f := fun x => Class.allDefinitions site x.classes) distinct each doc run

theorem DefinesOnce.single (named : c.name = name)
    (h : DefinesOnce s path root (site.member name).Below (c.definitions (site.member name))) :
    DefinesOnce s path root (site.member name).Below (Class.allDefinitions site [c]) := by
  rw [Class.allDefinitions, Class.allDefinitions, append_nil, named]
  exact h

def ClassesDefinedOnce (s : Setting) (path : QualifiedName) (root : Object)
    (classAt : QualifiedName → Object → Inspection Class) : Prop :=
  ∀ site o, IsPlaced s path root site o → Ensures s (classAt site o) fun c =>
    DefinesOnce s path root site.Below (c.definitions site)

mutual

theorem classWith_definesOnce {n : Nat} (hd : ClassesDefinedOnce s path root (descent n).classAt)
    (distinct : s.world.NamesDistinct path root) (site : QualifiedName) (o : Object)
    (ho : IsPlaced s path root site o) : Ensures s (classWith (descent n) site o) fun c =>
      DefinesOnce s path root site.Below (c.definitions site) := by
  cases o with
  | classDef identity metatype bases ms =>
    intro p q c h
    rw [Class.definitions_eq]
    refine .cons (ho.symm.imp_right fun described => ⟨_, described, n, p, q, h⟩) ?_
    simp only [classWith] at h
    refine classBody_definesOnce ?_ (enclosed_classMembersWith (composed_descent n) site _ ms)
      (classMembersWith_definesOnce hd distinct site _ rfl ho ms (Subset.refl ms)) h
    refine ho.imp_left fun described => ?_
    rw [classMembersWith_eq, map_map]
    exact distinct described
  | _ =>
    simp only [classWith]
    exact .throw _

theorem classMembersWith_definesOnce {n : Nat}
    (hd : ClassesDefinedOnce s path root (descent n).classAt)
    (distinct : s.world.NamesDistinct path root) (site : QualifiedName) (owner : Object)
    (isClass : owner.isModule = false) (ho : IsPlaced s path root site owner)
    (ms : List (String × Object)) (hms : ms ⊆ owner.members) :
    ∀ m ∈ classMembersWith (descent n) site owner ms, Ensures s m.2 fun x =>
      DefinesOnce s path root (site.member m.1).Below (Class.allDefinitions site x.classes) := by
  match ms with
  | [] => simp [classMembersWith]
  | (name, o) :: ms =>
    obtain ⟨hm, hms⟩ := cons_subset.mp hms
    simp only [classMembersWith, forall_mem_cons]
    refine ⟨?_, classMembersWith_definesOnce hd distinct site owner isClass ho ms hms⟩
    intro p q x h
    obtain ⟨settled, r, look, step⟩ := bind_ok_iff.mp h
    cases look
    cases hx : x.classes with
    | nil =>
      rw [Class.allDefinitions]
      exact .nil
    | cons c cs =>
      obtain ⟨single, shown, own, outcome⟩ :=
        (classMember_ok step).nested_of_mem (c := c) (hx ▸ mem_cons_self)
      rw [hx] at single
      cases single
      rw [QualifiedName.last_member] at own
      have placed := ho.member hm shown own fun isModule =>
        (Bool.false_ne_true (isClass.symm.trans isModule)).elim
      have named : IsClassAt (site.member name) c := Ensures.ite (fun _ => ensures_descent n _ _)
        (fun _ => ensures_classWith (ensures_descent n) _ _) outcome
      refine .single (named.1.trans (site.last_member name)) ?_
      rw [outcome_ite] at outcome
      split at outcome
      · exact hd _ _ placed outcome
      · rename_i notReference
        obtain ⟨core, noRef⟩ := Object.core_of_not_reference (Bool.eq_false_iff.mpr notReference)
        rw [World.settle_readFrom noRef shown, core] at placed
        exact classWith_definesOnce hd distinct (site.member name) o placed outcome

end

theorem descent_classesDefinedOnce (distinct : s.world.NamesDistinct path root) (n : Nat) :
    ClassesDefinedOnce s path root (descent n).classAt := by
  induction n with
  | zero => exact fun _ _ _ => .throw _
  | succ n ih => exact classWith_definesOnce ih distinct

/-! Modules. -/

theorem DefinesOnce.mono {scope' : QualifiedName → Prop} (h : DefinesOnce s path root scope defs)
    (hs : ∀ n, scope n → scope' n) : DefinesOnce s path root scope' defs :=
  ⟨fun e he => hs e.1 (h.inside e he), h.described, h.once⟩

theorem ensures_moduleMember_definesOnce {ownerName : String} {nestedClass : Inspection Class}
    {nestedModule : Inspection Module}
    (hc : o.isClass = true → o.name? = some name → (∀ home ∈ o.moduleName?, home = ownerName) →
      Ensures s nestedClass fun c => c.name = name ∧
        DefinesOnce s path root (site.member name).Below (c.definitions (site.member name)))
    (hm : o.isModule = true → o.name? = some (site.member name).text →
      Ensures s nestedModule fun m => m.name = name ∧
        DefinesOnce s path root (site.member name).Below (m.definitions (site.member name))) :
    Ensures s (moduleMember (site.member name) ownerName o nestedClass nestedModule) fun m =>
      DefinesOnce s path root (site.member name).Below (m.definitions site) := by
  have last := site.last_member name
  intro p q m h
  cases moduleMember_ok h with
  | @nested c isClass own home outcome =>
    have belongs : homeModule? o = o.moduleName? := by
      cases o with
      | classDef => rfl
      | _ => cases isClass
    have belongs : ∀ home ∈ o.moduleName?, home = ownerName := by
      intro module hmodule
      rw [belongs, hmodule] at home
      simpa using home
    obtain ⟨named, defines⟩ := hc isClass (own.trans (congrArg some last)) belongs outcome
    rw [ModuleMember.definitions, named]
    exact defines
  | subModule isModule own home outcome =>
    obtain ⟨named, defines⟩ := hm isModule own outcome
    rw [ModuleMember.definitions, named]
    exact defines
  | misnamed | functions => exact .nil
  | @imported i? _ => cases i? <;> exact .nil
  | @«alias» a? _ => cases a? <;> exact .nil
  | doc => cases docOf o <;> exact .nil
  | @attr a? _ _ _ _ => cases a? <;> exact .nil

theorem moduleBody_definesOnce {members : List (String × Inspection ModuleMember)}
    (distinct : (members.map Prod.fst).Nodup) (composed : ∀ m ∈ members, Composed m.2)
    (each : ∀ m ∈ members, Ensures s m.2 fun x => DefinesOnce s path root (site.member m.1).Below
      (x.definitions site)) :
    Ensures s (moduleBody site o name members) fun m =>
      DefinesOnce s path root site.Below (m.definitions site) := by
  intro p q m h
  obtain ⟨m₁, p', q', added, -, sameClasses, sameModules, -⟩ := moduleBody_gathers h
  obtain ⟨gathered, rfl, run⟩ := gather_ok (forall_ordered
    (composed_moduleMember _ _ _ (.plain (.throw _)) (.plain (.throw _))) composed) added
  have doc : Ensures s (moduleMember (site.member "__doc__") name (.ofText? o.doc?)
      (throw .missingAttribute) (throw .missingAttribute)) fun x => x.definitions site = [] := by
    intro p q x hx
    cases moduleMember_ok hx with
    | nested _ _ _ outcome => cases outcome
    | subModule _ _ _ outcome => cases outcome
    | misnamed | functions => rfl
    | @imported i? _ => cases i? <;> rfl
    | @«alias» a? _ => cases a? <;> rfl
    | doc => cases docOf _ <;> rfl
    | @attr a? _ _ _ _ => cases a? <;> rfl
  have all := definesOnce_gathered (f := ModuleMember.definitions site) (.inl distinct) each doc run
  have perm := Module.definitions_foldl_add site gathered { name := site.last }
  have start : Module.definitions site { name := site.last } = [] := by
    rw [Module.definitions_eq, Class.allDefinitions, Module.allDefinitions]
    rfl
  rw [start, nil_append] at perm
  rw [Module.definitions_eq, sameClasses, sameModules, ← Module.definitions_eq]
  exact (all.perm perm.symm).mono fun n ⟨_, below⟩ => below.parent

/-- The inspections of modules under their own names define each class once. -/
def ModulesDefinedOnce (s : Setting) (path : QualifiedName) (root : Object)
    (moduleAt : QualifiedName → Object → Inspection Module) : Prop :=
  ∀ site o, s.world.Described path root site o → Ensures s (moduleAt site o) fun m =>
    DefinesOnce s path root site.Below (m.definitions site)

mutual

theorem moduleWith_definesOnce {n : Nat} (hd : ModulesDefinedOnce s path root (descent n).moduleAt)
    (distinct : s.world.NamesDistinct path root) (site : QualifiedName) (o : Object)
    (ho : s.world.Described path root site o) : Ensures s (moduleWith (descent n) site o) fun m =>
      DefinesOnce s path root site.Below (m.definitions site) := by
  cases o with
  | moduleDef name doc ms =>
    simp only [moduleWith]
    refine moduleBody_definesOnce ?_ (composed_moduleMembersWith (composed_descent n) site name ms)
      (moduleMembersWith_definesOnce hd distinct site name _ rfl ho ms (Subset.refl ms))
    rw [moduleMembersWith_eq, map_map]
    exact distinct ho
  | _ =>
    simp only [moduleWith]
    exact .throw _

theorem moduleMembersWith_definesOnce {n : Nat}
    (hd : ModulesDefinedOnce s path root (descent n).moduleAt)
    (distinct : s.world.NamesDistinct path root) (site : QualifiedName) (ownerName : String)
    (owner : Object) (hname : owner.name? = some ownerName)
    (ho : s.world.Described path root site owner) (ms : List (String × Object))
    (hms : ms ⊆ owner.members) :
    ∀ m ∈ moduleMembersWith (descent n) site ownerName ms, Ensures s m.2 fun x =>
      DefinesOnce s path root (site.member m.1).Below (x.definitions site) := by
  match ms with
  | [] => simp [moduleMembersWith]
  | (name, o) :: ms =>
    obtain ⟨hm, hms⟩ := cons_subset.mp hms
    simp only [moduleMembersWith, forall_mem_cons]
    refine ⟨?_, moduleMembersWith_definesOnce hd distinct site ownerName owner hname ho ms hms⟩
    intro p q x h
    obtain ⟨settled, r, look, step⟩ := bind_ok_iff.mp h
    cases look
    have last := site.last_member name
    refine ensures_moduleMember_definesOnce (fun isClass own home => ?_) (fun isModule own => ?_) step
    · have plain := Object.readFrom_of_isClass owner isClass
      have placed : IsPlaced s path root (site.member name) (s.world.settle o) := by
        rw [← plain] at isClass own home ⊢
        exact IsPlaced.member (.inl ho) hm isClass own fun _ home' hhome =>
          hname.trans (congrArg some (home home' hhome).symm)
      refine .ite (fun _ p q c outcome => ?_) (fun notReference p q c outcome => ?_)
      · exact ⟨(ensures_descent n _ _ outcome).1.trans last,
          descent_classesDefinedOnce distinct n _ _ placed outcome⟩
      · rw [World.settle_eq_self (Bool.eq_false_iff.mpr notReference)
          (Bool.or_eq_true_iff.mpr (.inl isClass))] at placed
        exact ⟨(ensures_classWith (ensures_descent n) _ _ outcome).1.trans last,
          classWith_definesOnce (descent_classesDefinedOnce distinct n) distinct _ _ placed outcome⟩
    · have described := ho.subModule hm isModule own
      refine .ite (fun _ p q m outcome => ?_) (fun notReference p q m outcome => ?_)
      · exact ⟨(keepsOutside_descent n _ _ outcome).1.trans last, hd _ _ described outcome⟩
      · rw [World.settle_eq_self (Bool.eq_false_iff.mpr notReference)
          (Bool.or_eq_true_iff.mpr (.inr isModule))] at described
        exact ⟨(keepsOutside_moduleWith _ _ _ outcome).1.trans last,
          moduleWith_definesOnce hd distinct (site.member name) o described outcome⟩

end

theorem descent_modulesDefinedOnce (distinct : s.world.NamesDistinct path root) (n : Nat) :
    ModulesDefinedOnce s path root (descent n).moduleAt := by
  induction n with
  | zero => exact fun _ _ _ => .throw _
  | succ n ih => exact moduleWith_definesOnce ih distinct

/-- Every class that the stubs of a module and its sub-modules define is described where it is
defined, and it is defined only there. The only exceptions are classes that a reference shows under
their own names, and the classes in them. -/
theorem classes_defined_once (distinct : s.world.NamesDistinct path root) {m : Module}
    (h : (moduleOf path root).outcome s p = (.ok m, q)) :
    DefinesOnce s path root path.Below (m.definitions path) := by
  obtain ⟨w, p', look, inside⟩ := bind_ok_iff.mp h
  cases look
  exact moduleWith_definesOnce (descent_modulesDefinedOnce distinct _) distinct path root .root inside

def classOfM (name qualified : String) (members : List (String × Object)) : Object := .classDef
  { name? := some name, qualified? := some qualified, module? := some "m" } (.builtin "type") []
  members

/-- A module with a class in a class, and with an alias of the outer one. -/
def nesting : Object := .moduleDef "m" none
  [("A", classOfM "A" "A" [("B", classOfM "B" "A.B" [])]), ("C", .ref ⟨["m", "A"]⟩)]

/-- A module with a class that is a member of another class too. -/
def repeating : Object := .moduleDef "m" none
  [("A", classOfM "A" "A" []), ("B", classOfM "B" "B" [("A", .ref ⟨["m", "A"]⟩)])]

def worldOf (o : Object) : Setting := ⟨{}, .ofModules [o]⟩

/-- The alias is no definition, so both classes are defined once. -/
theorem nesting_defines_once : ∃ m q,
    (moduleOf ⟨["m"]⟩ nesting).outcome (worldOf nesting) {} = (.ok m, q) ∧
      (m.definitions ⟨["m"]⟩).map Prod.fst = [⟨["m", "A"]⟩, ⟨["m", "A", "B"]⟩] ∧
      DefinesOnce (worldOf nesting) ⟨["m"]⟩ nesting (QualifiedName.mk ["m"]).Below
        (m.definitions ⟨["m"]⟩) := by
  have noModules : ∀ owner ∈ [nesting, classOfM "A" "A" [("B", classOfM "B" "A.B" [])],
      classOfM "B" "A.B" []], ∀ m ∈ owner.members,
        ((worldOf nesting).world.settle m.2).isModule = false := by
    rw [worldOf, World.ofModules_eq]
    decide
  have distinct : (worldOf nesting).world.NamesDistinct ⟨["m"]⟩ nesting := by
    have described : ∀ ⦃site owner⦄, (worldOf nesting).world.Described ⟨["m"]⟩ nesting site owner →
        owner ∈ [nesting, classOfM "A" "A" [("B", classOfM "B" "A.B" [])],
          classOfM "B" "A.B" []] := by
      intro site owner h
      induction h with
      | root => exact mem_cons_self
      | subModule _ hx isModule _ ih =>
        exact (Bool.false_ne_true ((noModules _ ih _ hx).symm.trans isModule)).elim
      | member _ hx noRef ih =>
        simp only [mem_cons, not_mem_nil, or_false] at ih
        rcases ih with rfl | rfl | rfl
        · simp only [nesting, Object.members, mem_cons, not_mem_nil, or_false, Prod.mk.injEq] at hx
          rcases hx with ⟨rfl, rfl⟩ | ⟨rfl, rfl⟩
          · exact .tail _ (.head _)
          · cases noRef
        · simp only [classOfM, Object.members, mem_singleton, Prod.mk.injEq] at hx
          obtain ⟨rfl, rfl⟩ := hx
          exact .tail _ (.tail _ (.head _))
        · cases hx
    intro site owner h
    have all : ∀ owner ∈ [nesting, classOfM "A" "A" [("B", classOfM "B" "A.B" [])],
      classOfM "B" "A.B" []], (owner.members.map Prod.fst).Nodup := by decide
    exact all owner (described h)
  have result : ((moduleOf ⟨["m"]⟩ nesting).outcome (worldOf nesting) {}).1.toOption.map
      (fun m => (m.definitions ⟨["m"]⟩).map Prod.fst) =
        some [⟨["m", "A"]⟩, ⟨["m", "A", "B"]⟩] := by
    rw [worldOf, World.ofModules_eq]
    decide +kernel
  rcases h : (moduleOf ⟨["m"]⟩ nesting).outcome (worldOf nesting) {} with ⟨e | m, q⟩
  · rw [h] at result
    cases result
  · rw [h] at result
    exact ⟨m, q, rfl, Option.some.inj result, classes_defined_once distinct h⟩

/-- The class `m.A` is defined a second time where a reference shows it in another class. -/
theorem repeating_defines_twice : ∃ m q,
    (moduleOf ⟨["m"]⟩ repeating).outcome (worldOf repeating) {} = (.ok m, q) ∧
      (m.definitions ⟨["m"]⟩).map Prod.fst = [⟨["m", "A"]⟩, ⟨["m", "B"]⟩, ⟨["m", "B", "A"]⟩] ∧
      (worldOf repeating).world.Repeated ⟨["m"]⟩ repeating ⟨["m", "B", "A"]⟩ ∧
      ((worldOf repeating).world.objectAt? (worldOf repeating).world.reach ⟨["m", "A"]⟩).map (·.site) =
        some ⟨["m", "A"]⟩ := by
  have result : ((moduleOf ⟨["m"]⟩ repeating).outcome (worldOf repeating) {}).1.toOption.map
      (fun m => (m.definitions ⟨["m"]⟩).map Prod.fst) =
        some [⟨["m", "A"]⟩, ⟨["m", "B"]⟩, ⟨["m", "B", "A"]⟩] := by
    rw [worldOf, World.ofModules_eq]
    decide +kernel
  have leads : ((worldOf repeating).world.objectAt? (worldOf repeating).world.reach
      ⟨["m", "A"]⟩).map (·.site) = some ⟨["m", "A"]⟩ := by
    rw [worldOf, World.ofModules_eq]
    decide +kernel
  have shown : ((worldOf repeating).world.settle (.ref ⟨["m", "A"]⟩)).isClass = true ∧
      ((worldOf repeating).world.settle (.ref ⟨["m", "A"]⟩)).name? = some "A" := by
    rw [worldOf, World.ofModules_eq]
    decide +kernel
  have repeated : (worldOf repeating).world.Repeated ⟨["m"]⟩ repeating ⟨["m", "B", "A"]⟩ := by
    have member : ("B", classOfM "B" "B" [("A", .ref ⟨["m", "A"]⟩)]) ∈ repeating.members :=
      .tail _ (.head _)
    have top : (worldOf repeating).world.Described ⟨["m"]⟩ repeating ⟨["m"]⟩ repeating := .root
    have plain := Object.readFrom_of_isClass (classOfM "B" "B" [("A", .ref ⟨["m", "A"]⟩)]) shown.1
    have again := World.Repeated.reference (top.member member rfl) (.head _) rfl
      (plain.symm ▸ shown.1) (plain.symm ▸ shown.2) nofun
    exact again
  rcases h : (moduleOf ⟨["m"]⟩ repeating).outcome (worldOf repeating) {} with ⟨e | m, q⟩
  · rw [h] at result
    cases result
  · rw [h] at result
    exact ⟨m, q, rfl, Option.some.inj result, repeated, leads⟩

end Inspection

end TypeStubs
