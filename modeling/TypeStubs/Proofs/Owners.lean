import TypeStubs.Proofs.DefinedClasses

/-! The classes and modules of a world. References lead to no others, and there are no more of them
than a world has reach. -/

namespace TypeStubs

open List Option

variable {o : Object} {l : Located}

mutual

/-- The classes and modules that an object is or holds. -/
def Object.owners : Object → List Object
  | .classDef identity metatype bases ms =>
    .classDef identity metatype bases ms :: Object.ownersAmong ms
  | .moduleDef name doc ms => .moduleDef name doc ms :: Object.ownersAmong ms
  | .wrapped _ inner => inner.owners
  | _ => []

def Object.ownersAmong : List (String × Object) → List Object
  | [] => []
  | (_, o) :: ms => o.owners ++ Object.ownersAmong ms

end

namespace Object

variable {m : String × Object}

theorem owners_subset_among {ms : List (String × Object)} (h : m ∈ ms) :
    m.2.owners ⊆ ownersAmong ms := by
  induction ms with
  | nil => cases h
  | cons first ms ih =>
    obtain ⟨name, o⟩ := first
    rw [ownersAmong]
    rcases mem_cons.mp h with rfl | h
    · exact subset_append_left _ _
    · exact Subset.trans (ih h) (subset_append_right _ _)

theorem owners_of_mem_members (h : m ∈ o.members) :
    m.2.owners ⊆ o.owners := by
  cases o with
  | classDef | moduleDef =>
    rw [owners]
    exact Subset.trans (owners_subset_among h) (subset_cons_self _ _)
  | _ => cases h

theorem self_mem_owners (h : (o.isClass || o.isModule) = true) : o ∈ o.owners := by
  cases o with
  | classDef | moduleDef =>
    rw [owners]
    exact mem_cons_self
  | _ => cases h

mutual

theorem owners_of_mem_modules {o : Object} {m : String × Object} (h : m ∈ o.modules) :
    m.2.owners ⊆ o.owners := by
  cases o with
  | moduleDef name doc ms =>
    rw [modules] at h
    rcases mem_cons.mp h with rfl | h
    · exact Subset.refl _
    · rw [owners]
      exact Subset.trans (owners_of_mem_modulesAmong h) (subset_cons_self _ _)
  | classDef identity metatype bases ms =>
    rw [modules] at h
    rw [owners]
    exact Subset.trans (owners_of_mem_modulesAmong h) (subset_cons_self _ _)
  | _ =>
    simp [modules] at h

theorem owners_of_mem_modulesAmong {ms : List (String × Object)} {m : String × Object}
    (h : m ∈ modulesAmong ms) : m.2.owners ⊆ ownersAmong ms := by
  match ms with
  | [] =>
    rw [modulesAmong] at h
    cases h
  | (name, o) :: ms =>
    rw [modulesAmong] at h
    rw [ownersAmong]
    rcases mem_append.mp h with h | h
    · exact Subset.trans (owners_of_mem_modules h) (subset_append_left _ _)
    · exact Subset.trans (owners_of_mem_modulesAmong h) (subset_append_right _ _)

end

mutual

theorem length_owners_le (o : Object) : o.owners.length ≤ o.weight := by
  cases o with
  | classDef _ _ _ ms | moduleDef _ _ ms =>
    have inner := length_ownersAmong_le ms
    rw [owners, weight, length_cons]
    omega
  | wrapped wrapping o =>
    have inner := length_owners_le o
    rw [owners, weight]
    omega
  | _ =>
    simp [owners]

theorem length_ownersAmong_le (ms : List (String × Object)) :
    (ownersAmong ms).length ≤ weightMembers ms := by
  match ms with
  | [] => simp [ownersAmong]
  | (name, o) :: ms =>
    have first := length_owners_le o
    have rest := length_ownersAmong_le ms
    rw [ownersAmong, weightMembers, length_append]
    omega

end

theorem owners_boundTo (owner o : Object) : (boundTo owner o).owners ⊆ o.owners := by
  fun_induction boundTo owner o with
  | case2 inner =>
    rw [owners]
    exact Subset.refl _
  | case3 inner ih =>
    rw [owners]
    exact ih
  | case1 | case4 | case5 | case6 => simp [owners]

theorem owners_readFrom (o owner : Object) : (o.readFrom owner).owners ⊆ o.owners := by
  unfold readFrom
  split
  · rw [owners]
    exact Subset.refl _
  · rw [owners]
    exact owners_boundTo owner _
  · exact Subset.refl _

theorem owners_implicitValue (o : Object) (name : String) : (o.implicitValue name).owners = [] := by
  have text (t : Option String) : (ofText? t).owners = [] := by
    cases t <;> simp [ofText?, owners]
  unfold implicitValue
  split
  · exact text _
  · exact text _
  · exact text _
  · exact text _
  · simp [owners]

theorem owners_ownMember? {x : Object} {name : String} (h : o.ownMember? name = some x) :
    x.owners ⊆ o.owners := by
  unfold ownMember? at h
  rcases or_eq_some_iff.mp h with own | ⟨-, implicit⟩
  · obtain ⟨front, back, split, -⟩ := lookup_eq_some_iff.mp own
    refine owners_of_mem_members (m := (name, x)) ?_
    rw [split]
    exact mem_append_right _ mem_cons_self
  · split at implicit
    · cases implicit
      simp [owners_implicitValue]
    · cases implicit

end Object

theorem exists_of_mem_mapM {α β : Type} {f : α → Option β} {xs : List α} {ys : List β}
    (h : xs.mapM f = some ys) {y : β} (hy : y ∈ ys) : ∃ x ∈ xs, f x = some y := by
  induction xs generalizing ys with
  | nil =>
    cases h
    cases hy
  | cons x xs ih =>
    simp only [mapM_cons, bind_eq_bind, bind_eq_some_iff, Option.pure_def, Option.some.injEq] at h
    obtain ⟨first, hfirst, rest, hrest, rfl⟩ := h
    rcases mem_cons.mp hy with rfl | hy
    · exact ⟨x, mem_cons_self, hfirst⟩
    · obtain ⟨x', hx', found⟩ := ih hrest hy
      exact ⟨x', mem_cons_of_mem _ hx', found⟩

theorem mem_mergeOrders {n : Nat} {orders : List (List Located)} {merged : List Located}
    (h : mergeOrders n orders = some merged) (hl : l ∈ merged) : ∃ order ∈ orders, l ∈ order := by
  induction n generalizing orders merged with
  | zero =>
    unfold mergeOrders at h
    split at h
    · cases h
      cases hl
    · cases h
  | succ n ih =>
    unfold mergeOrders at h
    split at h
    · cases h
      cases hl
    · simp only [bind_eq_bind, bind_eq_some_iff, Option.pure_def, Option.some.injEq] at h
      obtain ⟨next, found, rest, others, rfl⟩ := h
      rcases mem_cons.mp hl with rfl | hl
      · obtain ⟨order, member, head⟩ := mem_filterMap.mp (mem_of_find?_eq_some found)
        exact ⟨order, member, mem_of_mem_head? head⟩
      · obtain ⟨order', member, inside⟩ := ih others hl
        obtain ⟨order, here, rfl⟩ := mem_map.mp member
        refine ⟨order, here, ?_⟩
        split at inside
        · exact mem_of_mem_tail inside
        · exact inside

namespace World

variable {w : World} {owners : List Object}

def Holds (w : World) (owners : List Object) : Prop := ∀ m ∈ w.modules, m.2.owners ⊆ owners

/-- A number of steps from reference to reference leads to classes and modules of a list only. -/
structure LeadsInto (w : World) (owners : List Object) (n : Nat) : Prop where
  follow {site : QualifiedName} {o : Object} {l : Located} : o.owners ⊆ owners →
    w.followAt? n ⟨site, o⟩ = some l → l.object.owners ⊆ owners
  ancestors {bases : List QualifiedName} {ls : List Located} :
    w.ancestorsAt? n bases = some ls → ∀ l ∈ ls, l.object.owners ⊆ owners
  member {owner l : Located} {name : String} : owner.object.owners ⊆ owners →
    w.memberAt? n owner name = some l → l.object.owners ⊆ owners
  object {path : QualifiedName} {l : Located} :
    w.objectAt? n path = some l → l.object.owners ⊆ owners

section

variable {n : Nat} (h : w.LeadsInto owners n)
include h

theorem LeadsInto.follow_succ {site : QualifiedName} (ho : o.owners ⊆ owners)
    (hl : w.followAt? (n + 1) ⟨site, o⟩ = some l) : l.object.owners ⊆ owners := by
  cases o with
  | ref path =>
    rw [followAt?] at hl
    exact h.object hl
  | wrapped wrapping inner =>
    simp only [followAt?, bind_eq_bind, bind_eq_some_iff, Option.pure_def, Option.some.injEq] at hl
    obtain ⟨l', inside, rfl⟩ := hl
    rw [Object.owners] at ho ⊢
    exact h.follow ho inside
  | property getter setter doc =>
    simp only [followAt?, bind_eq_bind, bind_eq_some_iff, Option.pure_def, Option.some.injEq] at hl
    obtain ⟨getter', -, setter', -, rfl⟩ := hl
    simp [Object.owners]
  | _ =>
    simp only [followAt?, Option.some.injEq] at hl
    subst hl
    exact ho

theorem LeadsInto.ancestors_succ {bases : List QualifiedName} {ls : List Located}
    (hl : w.ancestorsAt? (n + 1) bases = some ls) : ∀ l ∈ ls, l.object.owners ⊆ owners := by
  simp only [ancestorsAt?, bind_eq_bind, bind_eq_some_iff] at hl
  obtain ⟨direct, found, orders, above, merged⟩ := hl
  have direct_owners : ∀ b ∈ direct, b.object.owners ⊆ owners := by
    intro b hb
    obtain ⟨base, -, hbase⟩ := exists_of_mem_mapM found hb
    exact h.object hbase
  have order_owners : ∀ order ∈ orders, ∀ l ∈ order, l.object.owners ⊆ owners := by
    intro order ho l hl
    obtain ⟨b, hb, horder⟩ := exists_of_mem_mapM above ho
    split at horder
    · obtain ⟨rest, hrest, rfl⟩ := map_eq_some_iff.mp horder
      rcases mem_cons.mp hl with rfl | hl
      · exact direct_owners _ hb
      · exact h.ancestors hrest l hl
    · cases horder
  intro l hl
  obtain ⟨order, ho, inside⟩ := mem_mergeOrders merged hl
  rcases mem_append.mp ho with ho | ho
  · exact order_owners order ho l inside
  · cases mem_singleton.mp ho
    exact direct_owners l inside

theorem LeadsInto.member_succ {owner : Located} {name : String}
    (ho : owner.object.owners ⊆ owners) (hl : w.memberAt? (n + 1) owner name = some l) :
    l.object.owners ⊆ owners := by
  have own {owner member : Located} (ho : owner.object.owners ⊆ owners)
      (hm : owner.ownMember? name = some member) : member.object.owners ⊆ owners := by
    obtain ⟨x, hx, rfl⟩ := map_eq_some_iff.mp hm
    exact Subset.trans (Object.owners_ownMember? hx) ho
  have read {member : Located} (known : member.object.owners ⊆ owners)
      (hl : ((w.followAt? n member).bind fun member =>
        some { member with object := member.object.readFrom owner.object }) = some l) :
      l.object.owners ⊆ owners := by
    obtain ⟨followed, hf, same⟩ := bind_eq_some_iff.mp hl
    cases same
    exact Subset.trans (Object.owners_readFrom _ _) (h.follow known hf)
  rw [memberAt?] at hl
  dsimp only at hl
  split at hl
  · cases hown : owner.ownMember? name with
    | some member =>
      rw [hown] at hl
      exact read (own ho hown) hl
    | none =>
      rw [hown] at hl
      obtain ⟨ancestors, ha, rest⟩ := bind_eq_some_iff.mp hl
      obtain ⟨member, first, rest⟩ := bind_eq_some_iff.mp rest
      obtain ⟨a, hmem, inherited⟩ := exists_of_findSome?_eq_some first
      exact read (own (h.ancestors ha a hmem) inherited) rest
  · simp only [bind_eq_bind, bind_eq_some_iff] at hl
    obtain ⟨member, hown, hf⟩ := hl
    exact h.follow (own ho hown) hf

theorem LeadsInto.object_succ (hw : w.Holds owners) {path : QualifiedName}
    (hl : w.objectAt? (n + 1) path = some l) : l.object.owners ⊆ owners := by
  simp only [objectAt?, bind_eq_bind, bind_eq_some_iff] at hl
  obtain ⟨⟨start, rest⟩, found, walk⟩ := hl
  have begins : start.object.owners ⊆ owners := by
    obtain ⟨base, -, hbase⟩ := exists_of_findSome?_eq_some found
    obtain ⟨m, hm, same⟩ := map_eq_some_iff.mp hbase
    cases same
    obtain ⟨front, back, split, -⟩ := lookup_eq_some_iff.mp hm
    refine hw (base.text, m) ?_
    rw [split]
    exact mem_append_right _ mem_cons_self
  clear found
  induction rest generalizing start with
  | nil =>
    cases walk
    exact begins
  | cons name rest ih =>
    simp only [foldlM_cons, bind_eq_bind, bind_eq_some_iff] at walk
    obtain ⟨next, step, walk⟩ := walk
    refine ih next walk ?_
    split at step
    · rename_i member hm
      cases step
      exact h.member begins hm
    · obtain ⟨x, hx, rfl⟩ := map_eq_some_iff.mp step
      unfold Object.implicit? at hx
      split at hx
      · cases hx
        simp [Object.owners_implicitValue]
      · cases hx

end

theorem Holds.leadsInto (hw : w.Holds owners) (n : Nat) : w.LeadsInto owners n := by
  induction n with
  | zero =>
    constructor
    · intro site o l _ hl
      rw [followAt?] at hl
      cases hl
    · intro bases ls hl
      rw [ancestorsAt?] at hl
      cases hl
    · intro owner l name _ hl
      rw [memberAt?] at hl
      cases hl
    · intro path l hl
      rw [objectAt?] at hl
      cases hl
  | succ n ih => exact ⟨ih.follow_succ, ih.ancestors_succ, ih.member_succ, ih.object_succ hw⟩

theorem Holds.settle (hw : w.Holds owners) (ho : o.owners ⊆ owners) :
    (w.settle o).owners ⊆ owners := by
  unfold World.settle settle?
  cases hf : w.followAt? w.reach ⟨⟨[]⟩, o⟩ with
  | none => simp [Object.owners]
  | some l => exact (hw.leadsInto w.reach).follow ho hf

/-- The classes and modules of described modules and of those that can always be imported. -/
def ownersOf (described : List Object) : List Object :=
  (described ++ [Builtins.asModule, Typing.asModule, sizesModule]).flatMap Object.owners

theorem holds_ownersOf (described : List Object) : (ofModules described).Holds (ownersOf described) := by
  intro m hm
  have among {os : List Object} (h : m ∈ os.flatMap Object.modules) :
      m.2.owners ⊆ os.flatMap Object.owners := by
    obtain ⟨o, ho, hm⟩ := mem_flatMap.mp h
    exact fun x hx => mem_flatMap.mpr ⟨o, ho, Object.owners_of_mem_modules hm hx⟩
  rw [ownersOf, flatMap_append]
  rcases mem_append.mp hm with hm | hm
  · exact Subset.trans (among (mem_reverse.mp hm)) (subset_append_left _ _)
  · exact Subset.trans (among hm) (subset_append_right _ _)

theorem length_ownersOf_le (described : List Object) :
    (ownersOf described).length ≤ (ofModules described).reach := by
  have sum (os : List Object) (k : Nat) :
      (os.flatMap Object.owners).length + k ≤ os.foldl (fun n o => n + o.weight) k := by
    induction os generalizing k with
    | nil => simp
    | cons o os ih =>
      have first := o.length_owners_le
      have rest := ih (k + o.weight)
      rw [flatMap_cons, length_append, foldl_cons]
      omega
  have always : ([Builtins.asModule, Typing.asModule, sizesModule].flatMap Object.owners).length ≤ 512 := by
    decide +kernel
  have others := sum described 0
  rw [ownersOf, flatMap_append, length_append]
  change _ ≤ 2 * described.foldl (fun n o => n + o.weight) 0 + 512
  omega

end World

end TypeStubs
