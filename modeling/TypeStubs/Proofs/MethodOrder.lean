import TypeStubs.Proofs.BoundMembers

/-! The order of methods in a class body. They stand by the rank of their modifier and then by name, so
that the overloads of a method stand together only if nothing comes between their modifiers. -/

namespace TypeStubs

open List

variable {c : Class}

section

variable {α : Type} {modifier : α → Modifier} {name : α → String}

theorem mayPrecede_iff {a b : α} : mayPrecede modifier name a b = true ↔
    (modifier a).rank < (modifier b).rank ∨
      (modifier a).rank = (modifier b).rank ∧ name a ≤ name b := by
  simp only [mayPrecede, Bool.or_eq_true, Bool.and_eq_true, decide_eq_true_eq, beq_iff_eq]

theorem mayPrecede_trans (a b c : α) (h : mayPrecede modifier name a b = true)
    (h' : mayPrecede modifier name b c = true) : mayPrecede modifier name a c = true := by
  rw [mayPrecede_iff] at h h' ⊢
  rcases h with less | ⟨same, names⟩
  · exact .inl (by omega)
  · rcases h' with less | ⟨same', names'⟩
    · exact .inl (by omega)
    · exact .inr ⟨same.trans same', String.le_trans names names'⟩

theorem mayPrecede_total (a b : α) :
    mayPrecede modifier name a b = true ∨ mayPrecede modifier name b a = true := by
  rw [mayPrecede_iff, mayPrecede_iff]
  rcases Nat.lt_trichotomy (modifier a).rank (modifier b).rank with less | same | more
  · exact .inl (.inl less)
  · exact (String.le_total (name a) (name b)).imp (fun h => .inr ⟨same, h⟩)
      fun h => .inr ⟨same.symm, h⟩
  · exact .inr (.inl more)

theorem mayPrecede_antisymm {a b : α} (h : mayPrecede modifier name a b = true)
    (h' : mayPrecede modifier name b a = true) :
    (modifier a).rank = (modifier b).rank ∧ name a = name b := by
  rw [mayPrecede_iff] at h h'
  rcases h with less | ⟨same, names⟩
  · rcases h' with less' | ⟨same', -⟩ <;> omega
  · rcases h' with less' | ⟨-, names'⟩
    · omega
    · exact ⟨same, String.le_antisymm names names'⟩

end

theorem Modifier.rank_inj {m m' : Modifier} (h : m.rank?.isSome = true) (h' : m'.rank?.isSome = true)
    (same : m.rank = m'.rank) : m = m' := by
  cases m <;> cases m' <;> simp_all [Modifier.rank, Modifier.rank?]

/-! Blocks of an ordered list. -/

section

variable {α : Type} {R : α → α → Prop} {keep : α → Bool} {xs : List α}

theorem filter_isPrefix (sorted : xs.Pairwise R)
    (closed : ∀ a ∈ xs, ∀ b ∈ xs, keep b = true → R a b → keep a = true) :
    xs.filter keep <+: xs := by
  induction sorted with
  | nil => exact prefix_rfl
  | @cons x xs first _ ih =>
    have rest := ih fun a ha b hb => closed a (.tail _ ha) b (.tail _ hb)
    cases hx : keep x with
    | true =>
      rw [filter_cons_of_pos hx]
      exact (prefix_cons_inj x).mpr rest
    | false =>
      have none : (x :: xs).filter keep = [] := by
        refine filter_eq_nil_iff.mpr fun b hb kept => ?_
        cases hb with
        | head => exact Bool.false_ne_true (hx.symm.trans kept)
        | tail _ hb =>
          have kept := closed x mem_cons_self b (.tail _ hb) kept (first b hb)
          exact Bool.false_ne_true (hx.symm.trans kept)
      rw [none]
      exact nil_prefix

theorem filter_isInfix (sorted : xs.Pairwise R)
    (convex : ∀ a ∈ xs, ∀ m ∈ xs, ∀ b ∈ xs, keep a = true → keep b = true → R a m → R m b →
      keep m = true) : xs.filter keep <:+: xs := by
  induction sorted with
  | nil => exact infix_rfl
  | @cons x xs first sorted ih =>
    cases hx : keep x with
    | true =>
      rw [filter_cons_of_pos hx]
      have front : xs.filter keep <+: xs := filter_isPrefix sorted fun a ha b hb kept before =>
        convex x mem_cons_self a (.tail _ ha) b (.tail _ hb) hx kept (first a ha) before
      exact ((prefix_cons_inj x).mpr front).isInfix
    | false =>
      rw [filter_cons_of_neg (Bool.eq_false_iff.mp hx)]
      refine (ih fun a ha m hm b hb => ?_).trans (suffix_cons x xs).isInfix
      exact convex a (.tail _ ha) m (.tail _ hm) b (.tail _ hb)

end

/-! Methods of one name. -/

/-- The method stands before the other one in a class body. -/
def Method.Precedes (a b : Method) : Prop :=
  a.modifier.rank < b.modifier.rank ∨
    a.modifier.rank = b.modifier.rank ∧ a.function.name < b.function.name

instance (a b : Method) : Decidable (a.Precedes b) := inferInstanceAs (Decidable (_ ∨ _))

def Class.methodOrder (c : Class) : List Method :=
  sortBy (mayPrecede Method.modifier (·.function.name)) c.methods

theorem Method.not_precedes_iff {a b : Method} :
    ¬ b.Precedes a ↔ mayPrecede Method.modifier (·.function.name) a b = true := by
  rw [mayPrecede_iff, Method.Precedes, ← String.not_lt]
  constructor
  · intro behind
    rcases Nat.lt_trichotomy a.modifier.rank b.modifier.rank with less | same | more
    · exact .inl less
    · exact .inr ⟨same, fun names => behind (.inr ⟨same.symm, names⟩)⟩
    · exact (behind (.inl more)).elim
  · rintro (less | ⟨same, names⟩) (less' | ⟨same', names'⟩)
    · omega
    · omega
    · omega
    · exact names names'

/-- How overloads of one method stand in a class body with the methods in some order. Those with one
modifier stand together as they came. All do if their modifiers already are in the order of the body
and no other method comes between two of them. -/
structure PlacesOverloads (order overloads : List Method) : Prop where
  by_modifier (modifier : Modifier) : overloads.filter (·.modifier = modifier) <:+: order
  together_iff : overloads <:+: order ↔ overloads.Pairwise (fun a b => ¬ b.Precedes a) ∧
    ∀ m ∈ order, m ∉ overloads → ∀ a ∈ overloads, ∀ b ∈ overloads, ¬ (a.Precedes m ∧ m.Precedes b)

theorem Class.pairwise_methodOrder (c : Class) :
    c.methodOrder.Pairwise fun a b => ¬ b.Precedes a := by
  refine (pairwise_sortBy mayPrecede_trans mayPrecede_total c.methods).imp ?_
  exact Method.not_precedes_iff.mpr

theorem Class.filter_methodOrder {keep : Method → Bool}
    (h : (c.methods.filter keep).Pairwise fun a b => ¬ b.Precedes a) :
    c.methodOrder.filter keep = c.methods.filter keep := by
  rw [methodOrder, filter_sortBy mayPrecede_trans mayPrecede_total]
  exact sortBy_of_pairwise (h.imp Method.not_precedes_iff.mp)

theorem Class.overloads_by_modifier
    (placed : ∀ m ∈ c.methods, m.modifier.rank?.isSome = true) (name : String) (modifier : Modifier) :
    (c.methods.filter (·.function.name = name)).filter (·.modifier = modifier) <:+:
      c.methodOrder := by
  rw [filter_filter]
  have alike {a b : Method} (ha : a.modifier = modifier ∧ a.function.name = name)
      (hb : b.modifier = modifier ∧ b.function.name = name) :
      mayPrecede Method.modifier (·.function.name) a b = true := by
    rw [mayPrecede_iff, ha.1, ha.2, hb.1, hb.2]
    exact .inr ⟨rfl, String.le_refl name⟩
  have inOrder : (c.methods.filter fun m =>
      decide (m.modifier = modifier) && decide (m.function.name = name)).Pairwise
        fun a b => ¬ b.Precedes a := by
    refine pairwise_of_forall_mem_list fun a ha b hb => Method.not_precedes_iff.mpr ?_
    exact alike (by simpa using (mem_filter.mp ha).2) (by simpa using (mem_filter.mp hb).2)
  rw [← filter_methodOrder inOrder]
  refine filter_isInfix c.pairwise_methodOrder fun a ha m hm b hb keyA keyB before behind => ?_
  simp only [Bool.and_eq_true, decide_eq_true_eq] at keyA keyB ⊢
  rw [Method.not_precedes_iff] at before behind
  have back := mayPrecede_trans _ _ _ behind (alike keyB keyA)
  obtain ⟨ranks, names⟩ := mayPrecede_antisymm back before
  have placedIn (m : Method) (hm : m ∈ c.methodOrder) := placed m (mem_sortBy.mp hm)
  exact ⟨(Modifier.rank_inj (placedIn m hm) (placedIn a ha) ranks).trans keyA.1, names.trans keyA.2⟩

/-- Overloads that came in the order of the body stand together if no other method comes between. -/
theorem Class.overloads_together {name : String}
    (inOrder : (c.methods.filter (·.function.name = name)).Pairwise fun a b => ¬ b.Precedes a)
    (apart : ∀ m ∈ c.methodOrder, m ∉ c.methods.filter (·.function.name = name) →
      ∀ a ∈ c.methods.filter (·.function.name = name),
        ∀ b ∈ c.methods.filter (·.function.name = name), ¬ (a.Precedes m ∧ m.Precedes b)) :
    c.methods.filter (·.function.name = name) <:+: c.methodOrder := by
  have overload {m : Method} (hm : m ∈ c.methodOrder) : m.function.name = name ↔
      m ∈ c.methods.filter (·.function.name = name) := by
    rw [mem_filter, decide_eq_true_eq, and_iff_right (mem_sortBy.mp hm)]
  rw [← filter_methodOrder inOrder]
  refine filter_isInfix c.pairwise_methodOrder fun a ha m hm b hb keyA keyB before behind => ?_
  have nameA := of_decide_eq_true keyA
  have nameB := of_decide_eq_true keyB
  refine decide_eq_true (Decidable.not_not.mp fun other => ?_)
  -- A method of another name that may stand on one side of an overload has to.
  have strictly {x y : Method} (names : x.function.name ≠ y.function.name) (h : ¬ y.Precedes x) :
      x.Precedes y := by
    by_contra back
    rw [Method.not_precedes_iff] at h back
    exact names (mayPrecede_antisymm h back).2
  refine apart m hm (fun own => other ((overload hm).mpr own)) a ((overload ha).mp nameA) b
    ((overload hb).mp nameB) ⟨strictly ?_ before, strictly ?_ behind⟩
  · exact fun same => other (same.symm.trans nameA)
  · exact fun same => other (same.trans nameB)

theorem Class.placesOverloads (placed : ∀ m ∈ c.methods, m.modifier.rank?.isSome = true)
    (name : String) :
    PlacesOverloads c.methodOrder (c.methods.filter (·.function.name = name)) := by
  have sorted := c.pairwise_methodOrder
  refine ⟨c.overloads_by_modifier placed name, fun together => ⟨?_, ?_⟩, fun h =>
    c.overloads_together h.1 h.2⟩
  · exact sorted.sublist together.sublist
  · rintro m hm other a ha b hb ⟨after, before⟩
    obtain ⟨front, back, whole⟩ := together
    rw [← whole, append_assoc, pairwise_append, pairwise_append] at sorted
    obtain ⟨-, ⟨-, -, behind⟩, front_before⟩ := sorted
    rw [← whole, mem_append, mem_append] at hm
    rcases hm with (hm | hm) | hm
    · exact front_before m hm a (mem_append_left _ ha) after
    · exact other hm
    · exact behind b hb m hm before

/-- The lines of the methods follow each other in the order of the body, with nothing in between. -/
theorem Printer.classBody_methods {p : Printer} {lines : List String}
    (placed : ∀ m ∈ c.methods, m.modifier.rank?.isSome = true) (h : p.classBody c = .ok lines) :
    ∃ before parts after, Forall₂ (fun m part => p.methodLines m = .ok part) c.methodOrder parts ∧
      lines = before ++ parts.flatten ++ after := by
  obtain ⟨name, doc, bases, classes, fields, methods, properties, aliases⟩ := c
  rw [classBody, sortMembers_of_placed _ _ placed] at h
  obtain ⟨named, -, h⟩ := bind_ok h
  obtain ⟨fields', -, h⟩ := bind_ok h
  obtain ⟨methods', sorted, h⟩ := bind_ok h
  cases sorted
  obtain ⟨parts, hl, h⟩ := bind_ok h
  have written := mapM_ok_iff.mp hl
  replace h := Except.ok.inj h
  split at h
  · rename_i empty
    -- Without any line there is no line of a method either.
    simp only [List.isEmpty_iff, append_eq_nil_iff] at empty
    refine ⟨["pass"], parts, [], written, ?_⟩
    rw [empty.1.2, ← h]
    rfl
  · exact ⟨_, parts, _, written, h.symm⟩

/-! What the members of a class contribute. -/

def ClassMember.methodList : ClassMember → List Method
  | .methods ms => ms
  | _ => []

theorem Class.methods_add (c : Class) (m : ClassMember) :
    (c.add m).methods = c.methods ++ m.methodList := by
  cases m with
  | methods ms => rfl
  | _ => exact (append_nil _).symm

theorem Class.methods_foldl_add (members : List (String × ClassMember)) (c : Class) :
    (members.foldl (fun c x => c.add x.2) c).methods =
      c.methods ++ members.flatMap (·.2.methodList) := by
  induction members generalizing c with
  | nil => exact (append_nil _).symm
  | cons x members ih =>
    rw [foldl_cons, ih, methods_add, flatMap_cons, append_assoc]

namespace Inspection

variable {s : Setting} {p q : Progress} {path : QualifiedName} {owner o : Object}

theorem ClassStep.methods_named {nested : Inspection Class} {m : ClassMember}
    (h : ClassStep s path owner o nested p q m) :
    ∀ x ∈ m.methodList, x.function.name = path.last ∧ x.modifier.rank?.isSome = true := by
  refine h.elim (motive := fun m => ∀ x ∈ m.methodList,
    x.function.name = path.last ∧ x.modifier.rank?.isSome = true) ?_ (fun ms named => named)
    (fun _ => ?_) (fun _ _ _ _ => ?_) (fun _ => ?_) (fun _ => ?_) fun _ _ => ?_
  all_goals exact forall_mem_nil _

/-- A routine that a class shows under a name, as methods. -/
structure IsMethod (s : Setting) (owner : Object) (name : String) (x : Object) : Prop where
  visible : name ∉ hiddenClassMembers
  identifier : isIdentifier name = true
  shown : isInternalMember name = false
  routine : ((s.world.settle x).readFrom owner).isRoutine = true

/-- The methods as they are shown in a class. Enumerations have their own text method. -/
def shownMethods (w : World) (owner : Object) (ms : List Method) : List Method :=
  if w.has owner "__members__" then ms.map Method.withEnumText else ms

theorem classStep_methods {d : Descent} {name : String} {x : Object} {m : ClassMember}
    (own : hasOwnMember owner name = true) (isMethod : IsMethod s owner name x)
    (h : (classStep d path owner name x).outcome s p = (.ok m, q)) :
    ∃ ms q', (methodsOf (path.member name) ((s.world.settle x).readFrom owner)).outcome s p =
      (.ok ms, q') ∧ m.methodList = shownMethods s.world owner ms := by
  obtain ⟨settled, r, look, step⟩ := bind_ok_iff.mp h
  cases look
  have visible : hiddenClassMembers.contains name = false :=
    Bool.eq_false_iff.mpr fun hidden => isMethod.visible (contains_iff_mem.mp hidden)
  simp only [classMember, QualifiedName.last_member, visible, own, isMethod.identifier,
    isMethod.shown, Bool.not_true, Bool.or_false, Bool.false_eq_true, if_false, classMemberByKind,
    isMethod.routine, if_true] at step
  obtain ⟨kind, r', methods, step⟩ := bind_ok_iff.mp step
  obtain ⟨ms, _, hms, done⟩ := bind_ok_iff.mp methods
  cases done
  obtain ⟨texts, _, enum, done⟩ := bind_ok_iff.mp step
  cases done
  refine ⟨ms, _, hms, ?_⟩
  obtain ⟨w, _, look, enum⟩ := bind_ok_iff.mp enum
  cases look
  rw [outcome_ite] at enum
  unfold shownMethods
  split at enum
  · cases enum
    rw [if_pos ‹_›]
    rfl
  · cases enum
    rw [if_neg ‹_›]
    rfl

theorem mem_withDoc {α : Type} {members : List (String × α)} {doc : α} {x : String × α}
    (h : x ∈ withDoc members doc) : x = ("__doc__", doc) ∨ x ∈ members := by
  unfold withDoc at h
  split at h
  · exact .inr h
  · exact mem_cons.mp h

/-- The methods of a class are what the steps for its members contribute, each under its own name. -/
theorem classWith_methods {n : Nat} {identity : Identity} {metatype : TypeName}
    {bases : List QualifiedName} {ms : List (String × Object)}
    (ho : o = .classDef identity metatype bases ms) (nodup : (ms.map Prod.fst).Nodup)
    (h : (classWith (descent n) path o).outcome s p = (.ok c, q)) :
    ∃ members : List (String × ClassMember), (members.map Prod.fst).Nodup ∧
      c.methods = members.flatMap (·.2.methodList) ∧ (∀ x ∈ members, ∀ m ∈ x.2.methodList,
        m.function.name = x.1 ∧ m.modifier.rank?.isSome = true) ∧
      ∀ name x, (name, x) ∈ ms → ∃ m p' q', (name, m) ∈ members ∧
        (classStep (descent n) path o name x).outcome s p' = (.ok m, q') := by
  subst ho
  simp only [classWith] at h
  obtain ⟨names, p₁, q₁, -, -, added⟩ := classBody_ok h
  obtain ⟨members, rfl, each⟩ := gather_ok (forall_ordered
    (.enclosed (enclosed_classMember _ _ _ (.plain (.throw .missingAttribute))))
    fun m hm => .enclosed (enclosed_classMembersWith (composed_descent n) path _ ms m hm)) added
  rw [classMembersWith_eq] at each
  refine ⟨members, ?_, ?_, ?_, fun name x hx => ?_⟩
  · have keys : members.map Prod.fst = (inNameOrder (withDoc (ms.map fun m =>
        (m.1, classStep (descent n) path (.classDef identity metatype bases ms) m.1 m.2)) _)).map
          Prod.fst := (Forall₂.map_eq_map each fun _ _ h => h.1.symm).symm
    rw [keys, inNameOrder, ((sortBy_perm _ _).map _).nodup_iff]
    refine nodup_withDoc ?_
    rw [map_map]
    exact nodup
  · exact Class.methods_foldl_add members _
  · intro x hx m hm
    obtain ⟨step, hstep, same, p₂, q₂, -, outcome, -⟩ := Forall₂.exists_of_mem each.flip hx
    rw [inNameOrder, mem_sortBy] at hstep
    rw [same]
    rcases mem_withDoc hstep with rfl | hstep
    · rw [← path.last_member "__doc__"]
      exact (classMember_ok outcome).methods_named m hm
    · obtain ⟨⟨name, y⟩, -, rfl⟩ := mem_map.mp hstep
      obtain ⟨settled, r, look, outcome⟩ := bind_ok_iff.mp outcome
      rw [← path.last_member name]
      exact (classMember_ok outcome).methods_named m hm
  · obtain ⟨m, hm, named, p₂, q₂, -, outcome, -⟩ :=
      Forall₂.exists_of_mem each (mem_inNameOrder_withDoc (mem_map_of_mem hx))
    obtain ⟨name', m⟩ := m
    obtain rfl : name' = name := named
    exact ⟨m, p₂, q₂, hm, outcome⟩

/-- The overloads of a method stand in a class body in the order of their modifiers. Those with one
modifier stand together in the order of the docstring, and so do all of them exactly if their modifiers
are in the order of the body and no other method has to stand between two of them. -/
theorem method_overloads_placed {identity : Identity} {metatype : TypeName}
    {bases : List QualifiedName} {ms : List (String × Object)} {c : Class}
    (nodup : (ms.map Prod.fst).Nodup)
    (h : (classOf path (.classDef identity metatype bases ms)).outcome s p = (.ok c, q)) :
    (∀ printer : Printer, ∃ before parts after,
      List.Forall₂ (fun m part => printer.methodLines m = .ok part) c.methodOrder parts ∧
        printer.classBody c = .ok (before ++ parts.flatten ++ after)) ∧
      ∀ name x, (name, x) ∈ ms → IsMethod s (.classDef identity metatype bases ms) name x →
        ∃ overloads p' q', (methodsOf (path.member name) ((s.world.settle x).readFrom
          (.classDef identity metatype bases ms))).outcome s p' = (.ok overloads, q') ∧
          c.methods.filter (·.function.name = name) =
            shownMethods s.world (.classDef identity metatype bases ms) overloads ∧
          PlacesOverloads c.methodOrder
            (shownMethods s.world (.classDef identity metatype bases ms) overloads) := by
  obtain ⟨w, p₀, look, inside⟩ := bind_ok_iff.mp h
  cases look
  obtain ⟨members, distinct, methods, named, steps⟩ := classWith_methods rfl nodup inside
  have placed : ∀ m ∈ c.methods, m.modifier.rank?.isSome = true := by
    rw [methods]
    intro m hm
    obtain ⟨x, hx, hm⟩ := mem_flatMap.mp hm
    exact (named x hx m hm).2
  refine ⟨fun printer => ?_, fun name x hx isMethod => ?_⟩
  · obtain ⟨lines, written⟩ := (ensures_classWith (ensures_descent _) path _ inside).2 printer
    obtain ⟨before, parts, after, each, rfl⟩ := Printer.classBody_methods placed written
    exact ⟨before, parts, after, each, written⟩
  · obtain ⟨m, p', q', hm, step⟩ := steps name x hx
    have own : hasOwnMember (.classDef identity metatype bases ms) name = true :=
      Bool.or_eq_true_iff.mpr (.inl (any_eq_true.mpr ⟨_, hx, decide_eq_true rfl⟩))
    obtain ⟨overloads, r, outcome, brought⟩ := classStep_methods own isMethod step
    have mine : c.methods.filter (·.function.name = name) = m.methodList := by
      have keyed := filter_flatMap_keyed ClassMember.methodList (fun m => some m.function.name)
        distinct (fun x hx m hm => congrArg some (named x hx m hm).1) hm
      simpa only [methods, Option.some.injEq] using keyed
    have shown := mine.trans brought
    exact ⟨overloads, p', r, outcome, shown, shown ▸ Class.placesOverloads placed name⟩

/-- A class with native methods, which are known by their docstrings. -/
def classWithDocs (docs : List (String × String)) : Object :=
  .classDef { name? := some "C", qualified? := some "C", module? := some "m" } (.builtin "type") []
    (docs.map fun d => (d.1, .routine .native { name? := some d.1, doc? := some d.2 } none))

def scaled : Object := classWithDocs [("f", "f(*args, **kwargs)\nOverloaded function.\n\n" ++
  "1. f(self) -> int\n2. f(self, x) -> int")]

theorem scaled_overloads_together : ∃ c q,
    (classOf ⟨["m", "C"]⟩ scaled).outcome (worldOfClass "C" scaled) {} = (.ok c, q) ∧
      (c.methods.filter (·.function.name = "f")).length = 2 ∧
      c.methods.filter (·.function.name = "f") <:+: c.methodOrder := by
  have result : ((classOf ⟨["m", "C"]⟩ scaled).outcome (worldOfClass "C" scaled) {}).1.toOption.map
      (fun c => (c.methods.filter (·.function.name = "f")).map Method.modifier) =
        some [.plain, .plain] := by
    rw [worldOfClass, World.ofModules_eq]
    decide +kernel
  rcases h : (classOf ⟨["m", "C"]⟩ scaled).outcome (worldOfClass "C" scaled) {} with ⟨e | c, q⟩
  · rw [h] at result
    cases result
  rw [h] at result
  have modifiers : (c.methods.filter (·.function.name = "f")).map Method.modifier =
    [.plain, .plain] := Option.some.inj result
  have isMethod : IsMethod (worldOfClass "C" scaled) scaled "f" (.routine .native
      { name? := some "f", doc? := some ("f(*args, **kwargs)\nOverloaded function.\n\n" ++
        "1. f(self) -> int\n2. f(self, x) -> int") } none) :=
    ⟨by decide, by decide, by decide, rfl⟩
  have nodup : (scaled.members.map Prod.fst).Nodup := by decide
  obtain ⟨overloads, -, -, -, shown, placed⟩ := (method_overloads_placed nodup h).2 "f" _
    mem_cons_self isMethod
  rw [← shown] at placed
  refine ⟨c, q, rfl, by simpa using congrArg List.length modifiers, ?_⟩
  have plain : ∀ m ∈ c.methods.filter (·.function.name = "f"), m.modifier = .plain := by
    intro m hm
    have listed := mem_map_of_mem (f := Method.modifier) hm
    rw [modifiers] at listed
    simpa using listed
  rw [← filter_eq_self.mpr fun m hm => decide_eq_true (plain m hm)]
  exact placed.by_modifier .plain

/-- A class with two overloads of a method. The arguments of the second one cannot be read, so that it
is taken for a static method. -/
def mixed : Object := classWithDocs [("a", "a(self) -> int"),
  ("f", "f(*args, **kwargs)\nOverloaded function.\n\n1. f(self) -> int\n2. f(self, x: ') -> int")]

/-- The second overload stands before another method, and the first one behind it. -/
theorem mixed_overloads_apart : ∃ c q,
    (classOf ⟨["m", "C"]⟩ mixed).outcome (worldOfClass "C" mixed) {} = (.ok c, q) ∧
      c.methods.map (fun m => (m.function.name, m.modifier)) =
        [("a", .plain), ("f", .plain), ("f", .static)] ∧
      Printer.classBody {} c = .ok ["@staticmethod", "@typing.overload",
        "def f(*args, **kwargs) -> int:", "    ...", "def a(self) -> int:", "    ...",
        "@typing.overload", "def f(self) -> int:", "    ..."] := by
  have result : ((classOf ⟨["m", "C"]⟩ mixed).outcome (worldOfClass "C" mixed) {}).1.toOption.map
      (fun c => (c.methods.map (fun m => (m.function.name, m.modifier)),
        (Printer.classBody {} c).toOption)) =
        some ([("a", .plain), ("f", .plain), ("f", .static)], some ["@staticmethod",
          "@typing.overload", "def f(*args, **kwargs) -> int:", "    ...", "def a(self) -> int:",
          "    ...", "@typing.overload", "def f(self) -> int:", "    ..."]) := by
    rw [worldOfClass, World.ofModules_eq]
    decide +kernel
  rcases h : (classOf ⟨["m", "C"]⟩ mixed).outcome (worldOfClass "C" mixed) {} with ⟨e | c, q⟩
  · rw [h] at result
    cases result
  rw [h] at result
  obtain ⟨methods, body⟩ := Prod.mk.inj (Option.some.inj result)
  refine ⟨c, q, rfl, methods, ?_⟩
  rcases hb : Printer.classBody {} c with e | lines
  · rw [hb] at body
    cases body
  · rw [hb] at body
    exact congrArg Except.ok (Option.some.inj body)

end Inspection

end TypeStubs
