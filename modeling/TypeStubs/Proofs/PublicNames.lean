import TypeStubs.Proofs.RestoredScopes
import TypeStubs.Proofs.WrittenValues

/-! The list of public names of a module. It names what the statements of the stub bind, apart from
the import from the future where the module has none of its own. -/

namespace TypeStubs

open List

variable {m : Module} {member : ModuleMember}

/-- Statements whose names a module lists: all that bind a name, but for type variables and imports
without a name of their own. -/
def Statement.isListed : Statement → Bool
  | .importing i => i.name.isSome
  | .subModule _ | .attr _ | .alias _ | .function _ | .classDef _ => true
  | .docstring _ | .typeVariable _ | .method _ | .property _ => false

/-- A member of a module that is the import from the future: the module of the feature, under its
name. -/
def IsFeature (x : String × Object) : Prop :=
  x.1 = "annotations" ∧ x.2.isModule = true ∧ x.2.name? = some "__future__.annotations"

/-! Texts. -/

theorem Quoted.not_mem_encode {cs : List Char} {d : Char} (hd : d = '<' ∨ d = '\n') (h : d ∉ cs) :
    d ∉ encode cs := by
  have hq := isQuote_mark cs
  have quote : d ≠ mark cs := by
    rcases hq with same | same <;> rcases hd with rfl | rfl <;> rw [same] <;> decide
  intro hin
  rcases mem_append.mp hin with hin | last
  · rcases mem_cons.mp hin with first | inner
    · exact quote first
    · obtain ⟨c, hc, hin⟩ := mem_flatMap.mp inner
      exact not_mem_encodeChar hq hd (fun same => h (same ▸ hc)) hin
  · exact quote (mem_singleton.mp last)

theorem QualifiedName.text_ofText (s : String) : (ofText s).text = s := by
  apply String.toList_injective
  have pieces := intercalate_splitAtChar '.' s.toList
  simpa [text, ofText, splitText, joinWith, String.toList_intercalate, Function.comp_def] using pieces

namespace Inspection

variable {ms : List (String × Object)}

/-- A list of names without addresses in them is written on one line, as a text that denotes it. -/
theorem textsValue_denotes {names : List String} (plain : ∀ n ∈ names, '<' ∉ n.toList)
    (lines : ∀ n ∈ names, '\n' ∉ n.toList) : ∃ text, textsValue names = safeValue text ∧
      Source.Denotes text (.list (names.map .str)) ∧ '\n' ∉ text := by
  let texts := names.map fun n => Quoted.encode n.toList
  have stays (n : String) (hn : n ∈ names) : Stays (Quoted.encode n.toList) :=
    stays_of_not_mem (Quoted.not_mem_encode (.inl rfl) (plain n hn))
  have items : (names.map fun n => (Value.mk (Quoted.text n) true).withoutAddresses) =
      texts.map safeValue := by
    rw [map_map]
    refine map_congr_left fun n hn => ?_
    exact withoutAddresses_safeValue (stays n hn)
  by_cases hne : names = []
  · subst hne
    exact ⟨"list()".toList, rfl, Source.denotes_emptyList, by decide⟩
  have text : "[" ++ joinWith ", " ((texts.map safeValue).map Value.text) ++ "]" =
      String.ofList (collectionText '[' ']' texts) := by
    apply String.toList_injective
    simp [joinWith, String.toList_intercalate, collectionText, safeValue, Function.comp_def]
  have safe : (texts.map safeValue).all Value.printSafe = true := by simp [safeValue]
  have denotes : Forall₂ Source.Denotes texts (names.map .str) := by
    rw [forall₂_map_left_iff, forall₂_map_right_iff]
    refine forall₂_same.mpr fun n _ => ?_
    simpa using Source.denotes_encode n.toList
  refine ⟨collectionText '[' ']' texts, ?_, Source.denotes_list denotes, ?_⟩
  · rw [textsValue, items, collectionValue, if_neg (by simpa [texts] using hne), text, safe]
    refine withoutAddresses_safeValue (stays_collectionText (by decide) (by decide) ?_)
    exact forall_mem_map.mpr stays
  · intro hin
    rcases mem_cons.mp hin with first | hin
    · revert first
      decide
    rcases mem_append.mp hin with inner | last
    · rcases mem_intercalate inner with comma | ⟨text, ht, hin⟩
      · revert comma
        decide
      · obtain ⟨n, hn, rfl⟩ := mem_map.mp ht
        exact Quoted.not_mem_encode (.inr rfl) (lines n hn) hin
    · revert last
      decide

/-! The names in order. -/

theorem nodup_eraseDups (xs : List String) : xs.eraseDups.Nodup := by
  induction hn : xs.length using Nat.strongRecOn generalizing xs with
  | ind n ih =>
    cases xs with
    | nil => exact .nil
    | cons x xs =>
      have shorter : (xs.filter fun y => !y == x).length < n := by
        rw [← hn]
        exact Nat.lt_succ_of_le (length_filter_le ..)
      rw [eraseDups_cons]
      refine nodup_cons.mpr ⟨fun again => ?_, ih _ shorter _ rfl⟩
      simpa using (mem_filter.mp (mem_eraseDups.mp again)).2

theorem publicNames_increasing (m : Module) : (publicNames m).Pairwise (· < ·) := by
  have sorted : (publicNames m).Pairwise (fun a b => decide (a ≤ b) = true) := by
    refine pairwise_sortBy (fun a b c hab hbc => ?_) (fun a b => ?_) _
    · exact decide_eq_true (String.le_trans (of_decide_eq_true hab) (of_decide_eq_true hbc))
    · exact (String.le_total a b).imp decide_eq_true decide_eq_true
  have distinct : (publicNames m).Nodup := (sortBy_perm _ _).nodup_iff.mpr (nodup_eraseDups _)
  refine (sorted.and distinct).imp fun {a b} ⟨le, ne⟩ => ?_
  exact Std.lt_of_le_of_ne (of_decide_eq_true le) ne

theorem hasFront_underscore (n : String) : hasFront "_" n = true ↔ n.toList.head? = some '_' := by
  rw [hasFront]
  cases n.toList with
  | nil => simp
  | cons c cs =>
    rw [head?_cons, Option.some.injEq]
    show ('_' == c && true) = true ↔ c = '_'
    rw [Bool.and_true, beq_iff_eq]
    exact eq_comm

def listedName? (st : Statement) : Option String := if st.isListed then st.bound? else none

theorem filterMap_listedName? (m : Module) : (m.elements.filterMap listedName?).Perm
    (m.classes.map Class.name ++ m.attributes.map Attribute.name ++ m.functions.map Function.name ++
      m.aliases.map Alias.name ++ m.imports.filterMap (fun i => i.name) ++
      m.subModules.map Module.name) := by
  have imported : listedName? ∘ Statement.importing = fun i => i.name := by
    funext i
    rcases i with ⟨_ | name, origin⟩ <;> rfl
  rw [perm_iff_count]
  intro n
  simp only [Module.elements, filterMap_append, filterMap_map, imported, count_append]
  simp only [Function.comp_def, listedName?, Statement.isListed, Statement.bound?, if_true,
    Bool.false_eq_true, if_false, filterMap_eq_map', filterMap_none, count_nil]
  omega

theorem mem_publicNames {n : String} : n ∈ publicNames m ↔
    n.toList.head? ≠ some '_' ∧ ∃ st ∈ m.elements, st.isListed = true ∧ st.bound? = some n := by
  have listed (st : Statement) : listedName? st = some n ↔
      st.isListed = true ∧ st.bound? = some n := by
    unfold listedName?
    split <;> simp [*]
  rw [publicNames, mem_sortBy, mem_eraseDups, mem_filter,
    ← (filterMap_listedName? m).mem_iff, mem_filterMap, Bool.not_eq_true', Bool.eq_false_iff,
    ne_eq, hasFront_underscore, and_comm]
  simp only [listed]

/-! The members of a module and their names. -/

section

variable {s : Setting} {p q : Progress} {path : QualifiedName} {o : Object} {name ownerName : String}
  {nestedClass : Inspection Class} {nestedModule : Inspection Module} {member : ModuleMember}

theorem isIdentifier_of_moduleMember
    (h : (moduleMember path ownerName o nestedClass nestedModule).outcome s p = (.ok member, q))
    (some : member.elements ≠ []) : isIdentifier path.last = true := by
  by_contra invalid
  unfold moduleMember at h
  rw [outcome_ite, if_pos (by simpa using invalid)] at h
  obtain ⟨u, r, -, done⟩ := bind_ok_iff.mp h
  cases done
  exact some rfl

/-- The full text of a name is that of a module, or it starts with a module other than the one of
features of the language. -/
theorem selfName?_some {text : String} (h : (selfName? path o).outcome s p = (.ok (some text), q)) :
    (∃ doc ms, o = .moduleDef text doc ms) ∨
      ∃ home rest, home ≠ "__future__" ∧ text = home ++ "." ++ rest := by
  unfold selfName? at h
  split at h
  · cases h
    exact .inl ⟨_, _, rfl⟩
  rw [outcome_ite] at h
  split at h
  · cases h
  rename_i other
  split at h
  · rename_i home qualified hm hq
    cases h
    exact .inr ⟨home, _, fun same => other (same ▸ hm), rfl⟩
  · obtain ⟨u, r, -, done⟩ := bind_ok_iff.mp h
    cases done

theorem ne_feature_text {home rest : String} (h : home ≠ "__future__") :
    home ++ "." ++ rest ≠ "__future__.annotations" := by
  intro same
  have chars : home.toList ++ '.' :: rest.toList = "__future__.annotations".toList := by
    rw [← same, String.toList_append, String.toList_append, append_assoc]
    rfl
  -- There is one dot in the text, so none is left for the name of the module.
  have dots : home.toList.count '.' + (rest.toList.count '.' + 1) = 1 := by
    rw [← count_cons_self, ← count_append, chars]
    decide
  have plain : ∀ c ∈ home.toList, (c != '.') = true := by
    intro c hc
    have none : '.' ∉ home.toList := count_eq_zero.mp (by omega)
    simpa using fun dot : c = '.' => none (dot ▸ hc)
  have front : ("__future__.annotations".toList).takeWhile (· != '.') = home.toList := by
    rw [← chars, takeWhile_append_of_pos plain]
    simp
  exact h (String.toList_injective (front.symm.trans (by decide)))

theorem fullName?_feature
    (h : (fullName? path o).outcome s p = (.ok (some futureImport.origin), q)) :
    o.isModule = true ∧ o.name? = some "__future__.annotations" := by
  obtain ⟨text?, r, self, rest⟩ := bind_ok_iff.mp h
  cases text? with
  | none => cases rest
  | some text =>
    dsimp only at rest
    split at rest
    · obtain ⟨u, r, -, done⟩ := bind_ok_iff.mp rest
      cases done
    · have origin : QualifiedName.ofText text = futureImport.origin := by
        injection rest with value
        injection value with value
        injection value
      obtain rfl : text = "__future__.annotations" := by
        rw [← QualifiedName.text_ofText text, origin]
        decide
      rcases selfName?_some self with ⟨doc, ms, rfl⟩ | ⟨home, rest, other, same⟩
      · exact ⟨rfl, rfl⟩
      · exact absurd same.symm (ne_feature_text other)

theorem fullName?_of_feature (doc : Option String) (ms : List (String × Object)) :
    (fullName? path (.moduleDef "__future__.annotations" doc ms)).outcome s p =
      (.ok (some futureImport.origin), p) := by
  have name : QualifiedName.ofText "__future__.annotations" = futureImport.origin := by decide
  have valid : (futureImport.origin.parts.find? fun part => !isIdentifier part) = none := by decide
  refine (bind_of_ok (a := some "__future__.annotations") (q := p) rfl).trans ?_
  dsimp only
  rw [name, valid]
  rfl

/-- A member of a module is the import from the future just if it is the module of the feature under
its name. -/
theorem feature_mem_imports (h : (moduleMember (path.member name) ownerName o nestedClass
      nestedModule).outcome s p = (.ok member, q)) :
    futureImport ∈ member.imports ↔ IsFeature (name, o) := by
  have last := path.last_member name
  constructor
  · intro hin
    cases moduleMember_ok h with
    | imported asked =>
      rcases importOf_ok asked with ⟨r, origin, rfl, full, -⟩ | ⟨rfl, -, -⟩
      · injection mem_singleton.mp hin with named same
        rw [last] at named
        subst same
        exact ⟨(Option.some.inj named).symm, fullName?_feature full⟩
      · cases hin
    | misnamed | functions | nested | subModule => cases hin
    | @«alias» a? | @attr a? => cases a? <;> cases hin
    | doc =>
      cases hd : docOf o <;> rw [hd] at hin <;> cases hin
  · rintro ⟨rfl, isModule, named⟩
    cases o with
    | moduleDef text doc ms =>
      cases named
      unfold moduleMember at h
      rw [outcome_ite, if_neg (by rw [last]; decide)] at h
      dsimp only at h
      rw [outcome_ite, if_pos (by simp)] at h
      obtain ⟨i?, r, asked, done⟩ := bind_ok_iff.mp h
      cases done
      rcases importOf_ok asked with ⟨r', origin, rfl, full, -⟩ | ⟨rfl, full, -⟩
      · rw [fullName?_of_feature] at full
        cases full
        rw [last]
        exact mem_cons_self
      · rw [fullName?_of_feature] at full
        cases full
    | _ => cases isModule

/-- A step brings nothing under a name that is no identifier, and the import from the future only for
the module of the feature. -/
structure IsNamedStep (s : Setting) (path : QualifiedName) (x : String × Object)
    (step : String × Inspection ModuleMember) : Prop extends IsStepFor s path x step where
  valid {p q : Progress} {m : ModuleMember} : step.2.outcome s p = (.ok m, q) →
    m.elements ≠ [] → isIdentifier x.1 = true
  feature {p q : Progress} {m : ModuleMember} : step.2.outcome s p = (.ok m, q) →
    (futureImport ∈ m.imports ↔ IsFeature x)

theorem isNamedStep_moduleStep (n : Nat) (path : QualifiedName) (ownerName name : String)
    (o : Object) : IsNamedStep s path (name, s.world.settle o)
      (name, moduleStep (descent n) path ownerName name o) := by
  refine ⟨isStepFor_moduleStep n path ownerName name o, fun h some => ?_, fun h => ?_⟩
  · obtain ⟨settled, r, look, step⟩ := bind_ok_iff.mp h
    cases look
    exact path.last_member name ▸ isIdentifier_of_moduleMember step some
  · obtain ⟨settled, r, look, step⟩ := bind_ok_iff.mp h
    cases look
    exact feature_mem_imports step

theorem isNamedStep_all (n : Nat) (path : QualifiedName) (name : String) (doc : Option String)
    (ms : List (String × Object)) :
    Forall₂ (IsNamedStep s path) (shownIn s.world (.moduleDef name doc ms))
      (withDoc (moduleMembersWith (descent n) path name ms)
        (moduleMember (path.member "__doc__") name (.ofText? (Object.moduleDef name doc ms).doc?)
          (throw .missingAttribute) (throw .missingAttribute))) := by
  refine forall₂_withDoc (fun _ _ h => h.name) ?_ ⟨⟨rfl, ?_, fun h => ?_⟩, fun h some => ?_, ?_⟩
  · rw [moduleMembersWith_eq, forall₂_map_left_iff, forall₂_map_right_iff]
    exact forall₂_same.mpr fun m _ => isNamedStep_moduleStep n path name m.1 m.2
  · exact composed_moduleMember _ _ _ (.plain (.throw _)) (.plain (.throw _))
  · exact brings_moduleMember (.throw _) (.plain (.throw _)) (keepsOutside_throw _) h
  · exact path.last_member "__doc__" ▸ isIdentifier_of_moduleMember h some
  · exact feature_mem_imports

end

/-! Runs over all members. -/

theorem mem_elements_add {st : Statement} :
    st ∈ (m.add member).elements ↔ st ∈ m.elements ∨ st ∈ member.elements := by
  cases member with
  | nothing | doc text => exact (or_iff_left not_mem_nil).symm
  | imported i =>
    cases st with
    | importing j => simp [Module.add, Module.elements, ModuleMember.elements, Import.mem_insert, or_comm]
    | _ => simp [Module.add, Module.elements, ModuleMember.elements]
  | «alias» a | nested c | functions fs | subModule n | attr a =>
    simp only [Module.add, Module.elements, ModuleMember.elements, map_append, map_cons,
      map_nil, mem_append]
    tauto

theorem mem_elements_foldl_add {members : List (String × ModuleMember)} {st : Statement} :
    st ∈ (members.foldl (fun m x => m.add x.2) m).elements ↔
      st ∈ m.elements ∨ ∃ x ∈ members, st ∈ x.2.elements := by
  induction members generalizing m with
  | nil => simp
  | cons x members ih =>
    rw [foldl_cons, ih, mem_elements_add, or_assoc]
    simp only [mem_cons, exists_eq_or_imp]

theorem importing_mem_elements {i : Import} :
    .importing i ∈ member.elements ↔ i ∈ member.imports := by
  cases member <;> simp [ModuleMember.elements, ModuleMember.imports]

theorem classDef_mem_elements {c : Class} : .classDef c ∈ member.elements ↔ c ∈ member.classes := by
  cases member <;> simp [ModuleMember.elements, ModuleMember.classes]

/-- What a module lists comes from what it shows, under names that are identifiers. The import from
the future comes from the module of the feature. -/
structure Announces (shown : List (String × Object)) (m : Module) : Prop where
  bound : ∀ st ∈ m.elements, st.isListed = true →
    ∃ x ∈ shown, st.bound? = some x.1 ∧ isIdentifier x.1 = true
  feature : .importing futureImport ∈ m.elements ↔ ∃ x ∈ shown, IsFeature x
  printable {c : Class} : .classDef c ∈ m.elements → c.Printable

theorem Announces.of_listed {shown : List (String × Object)} {m' : Module} (h : Announces shown m)
    (same : ∀ st, st.isListed = true → (st ∈ m'.elements ↔ st ∈ m.elements)) :
    Announces shown m' where
  bound st hst listed := h.bound st ((same st listed).mp hst) listed
  feature := (same _ rfl).trans h.feature
  printable hc := h.printable ((same _ rfl).mp hc)

section

variable {s : Setting} {p q : Progress} {path : QualifiedName} {shown : List (String × Object)}
  {m : Module}

theorem gather_announces {steps : List (String × Inspection ModuleMember)}
    (each : Forall₂ (IsNamedStep s path) shown steps)
    (h : (gather Module.add { name := path.last } (inNameOrder steps)).outcome s p = (.ok m, q)) :
    Announces shown m := by
  have ordered : (inNameOrder steps).Perm steps := sortBy_perm _ steps
  have sound (step) (hstep : step ∈ inNameOrder steps) : ∃ x ∈ shown, IsNamedStep s path x step :=
    Forall₂.exists_of_mem each.flip (ordered.mem_iff.mp hstep)
  obtain ⟨members, rfl, run⟩ := gather_ok
    (fun step hstep => (sound step hstep).elim fun _ hx => hx.2.composed) h
  have elements (st : Statement) : st ∈ (members.foldl (fun m x => Module.add m x.2)
      { name := path.last }).elements ↔ ∃ y ∈ members, st ∈ y.2.elements := by
    rw [mem_elements_foldl_add]
    exact or_iff_right not_mem_nil
  have origin (y) (hy : y ∈ members) : ∃ x ∈ shown, ∃ step p' q',
      IsNamedStep s path x step ∧ step.2.outcome s p' = (.ok y.2, q') := by
    obtain ⟨step, hstep, -, p', q', -, outcome, -⟩ := Forall₂.exists_of_mem run.flip hy
    obtain ⟨x, hx, named⟩ := sound step hstep
    exact ⟨x, hx, step, p', q', named, outcome⟩
  refine ⟨fun st hst _ => ?_, ⟨fun hst => ?_, ?_⟩, fun hc => ?_⟩
  · obtain ⟨y, hy, hst⟩ := (elements st).mp hst
    obtain ⟨x, hx, step, p', q', named, outcome⟩ := origin y hy
    have some : y.2.elements ≠ [] := ne_nil_of_mem hst
    rcases (named.brings outcome).binds with once | ⟨none, -⟩
    · exact ⟨x, hx, once.bound st hst, named.valid outcome some⟩
    · exact absurd none some
  · obtain ⟨y, hy, hst⟩ := (elements _).mp hst
    obtain ⟨x, hx, step, p', q', named, outcome⟩ := origin y hy
    exact ⟨x, hx, (named.feature outcome).mp (importing_mem_elements.mp hst)⟩
  · rintro ⟨x, hx, feature⟩
    obtain ⟨step, hstep, named⟩ := Forall₂.exists_of_mem each hx
    obtain ⟨y, hy, -, p', q', -, outcome, -⟩ :=
      Forall₂.exists_of_mem run (ordered.mem_iff.mpr hstep)
    exact (elements _).mpr ⟨y, hy, importing_mem_elements.mpr ((named.feature outcome).mpr feature)⟩
  · obtain ⟨y, hy, hc⟩ := (elements _).mp hc
    obtain ⟨x, hx, step, p', q', named, outcome⟩ := origin y hy
    exact (named.brings outcome).printable _ (classDef_mem_elements.mp hc)

theorem withTypeVariables_unlisted {m' : Module}
    (h : (withTypeVariables path m).outcome s p = (.ok m', q)) :
    (∀ st, st.isListed = true → (st ∈ m'.elements ↔ st ∈ m.elements)) ∧
      ∀ i ∈ q.imports, i ∈ p.imports ∨ i.name = none := by
  obtain ⟨options, r, look, h⟩ := bind_ok_iff.mp h
  cases look
  rw [outcome_ite] at h
  split at h
  · cases h
    exact ⟨fun _ _ => .rfl, fun _ => .inl⟩
  obtain ⟨state, r, look, h⟩ := bind_ok_iff.mp h
  cases look
  obtain ⟨bounds, r, bounded, h⟩ := bind_ok_iff.mp h
  obtain ⟨_, r', taken, h⟩ := bind_ok_iff.mp h
  cases taken
  have asks (i : Import) (hi : i ∈ r.imports) : i ∈ p.imports ∨ i.name = none := by
    have enclosed (names : List String) : Enclosed (withTypeVariables.go names) :=
      .plain (plain_typeVariables names)
    have asked := (enclosed _).keeps (keepsInside_asksUnknown s) bounded
    exact (asked.imports i hi).imp_right And.left
  rw [outcome_ite] at h
  split at h
  · cases h
    exact ⟨fun _ _ => .rfl, asks⟩
  · cases h
    refine ⟨fun st listed => ?_, asks⟩
    cases st with
    | importing i =>
      have named : i ≠ ⟨none, ⟨["typing"]⟩⟩ := by
        rintro rfl
        cases listed
      simp [Module.elements, Import.mem_insert, named]
    | typeVariable v => cases listed
    | _ => simp [Module.elements]

theorem union_unlisted {imports : List Import} (h : ∀ i ∈ imports, i.name = none ∨ i ∈ m.imports)
    (st : Statement) (listed : st.isListed = true) :
    st ∈ { m with imports := Import.union m.imports imports }.elements ↔ st ∈ m.elements := by
  cases st with
  | importing i =>
    have named : i.name ≠ none := Option.isSome_iff_ne_none.mp listed
    have old : i ∈ m.imports ∨ i ∈ imports ↔ i ∈ m.imports :=
      or_iff_left_of_imp fun hi => (h i hi).resolve_left named
    simpa [Module.elements, Import.mem_union] using old
  | _ => simp [Module.elements]

theorem moduleBody_announces {n : Nat} {name : String} {doc : Option String}
    (h : (moduleWith (descent n) path (.moduleDef name doc ms)).outcome s p = (.ok m, q)) :
    ∃ m' imports, Announces (shownIn s.world (.moduleDef name doc ms))
        { m' with imports := Import.union m'.imports imports } ∧ m = withImports m' imports := by
  simp only [moduleWith] at h
  obtain ⟨docStep, m₁, m₂, r₁, r₂, rfl, added, taken, rfl, -⟩ := moduleBody_parts h
  rw [addModuleMembers_eq] at added
  have each := isNamedStep_all (s := s) n path name doc ms
  have announced := gather_announces each added
  have pending := gather_pending (fun step hstep => ?_) rfl added
  · obtain ⟨sameListed, later⟩ := withTypeVariables_unlisted taken
    refine ⟨m₂, r₂.imports, (announced.of_listed sameListed).of_listed ?_, rfl⟩
    refine union_unlisted fun i hi => ?_
    rcases later i hi with hi | unnamed
    · rcases pending i hi with unknown | own
      · exact .inl unknown.1
      · cases named : i.name with
        | none => exact .inl rfl
        | some n =>
          have listed : (Statement.importing i).isListed = true := by simp [Statement.isListed, named]
          have there : .importing i ∈ m₁.elements := by simp [Module.elements, own]
          have later := (sameListed _ listed).mpr there
          exact .inr (by simpa [Module.elements] using later)
    · exact .inl unnamed
  · have ordered := (sortBy_perm _ _).mem_iff.mp hstep
    obtain ⟨x, -, named⟩ := Forall₂.exists_of_mem each.flip ordered
    exact ⟨x, named.toIsStepFor⟩

end

/-- A module lists its public names: the value of the list denotes them, they are in order, and they
are what the statements of the module bind, but for the list itself and the import from the future.
That import counts only if a member of the module is what it imports. -/
structure ListsNames (s : Setting) (o : Object) (m : Module) (own : List Statement)
    (future : List Import) (v : Value) (names : List String) : Prop where
  elements : m.elements.Perm
    (own ++ future.map .importing ++ [.attr ⟨"__all__", some v, none⟩])
  future : future = [futureImport] ∧ .importing futureImport ∉ own ∨
    future = [] ∧ .importing futureImport ∈ own
  feature : .importing futureImport ∈ own ↔ ∃ x ∈ shownIn s.world o, IsFeature x
  single : ∀ st ∈ own, st.isListed = true → st.bound? ≠ some "__all__"
  denotes : Source.evaluate? v.text.toList = some (.list (names.map .str))
  line (printer : Printer) :
    printer.attributeLine ⟨"__all__", some v, none⟩ = "__all__ = " ++ v.text
  increasing : names.Pairwise (· < ·)
  exact (n : String) : n ∈ names ↔
    n.toList.head? ≠ some '_' ∧ ∃ st ∈ own, st.isListed = true ∧ st.bound? = some n
  written (printer : Printer) : ∃ lines, printer.moduleLines m = .ok lines ∧
    printer.Writes m.statements lines

theorem mem_shownIn {w : World} {name : String} {doc : Option String}
    {x : String × Object} (h : x ∈ shownIn w (.moduleDef name doc ms)) :
    x.1 = "__doc__" ∨ ∃ y ∈ ms, y.1 = x.1 := by
  have members (hx : x ∈ ms.map fun y => (y.1, w.settle y.2)) : ∃ y ∈ ms, y.1 = x.1 := by
    obtain ⟨y, hy, rfl⟩ := mem_map.mp hx
    exact ⟨y, hy, rfl⟩
  unfold shownIn withDoc at h
  split at h
  · exact .inr (members h)
  · rcases mem_cons.mp h with rfl | hx
    · exact .inl rfl
    · exact .inr (members hx)

section

variable {s : Setting} {p q : Progress} {path : QualifiedName} {shown : List (String × Object)}
  {m : Module}

theorem Announces.identifiers (h : Announces shown m) {n : String} (hn : n ∈ publicNames m) :
    isIdentifier n = true := by
  obtain ⟨-, st, hst, listed, bound⟩ := mem_publicNames.mp hn
  obtain ⟨x, -, named, valid⟩ := h.bound st hst listed
  exact Option.some.inj (bound.symm.trans named) ▸ valid

theorem Announces.denotes (h : Announces shown m) :
    ∃ text, textsValue (publicNames m) = safeValue text ∧
      Source.Denotes text (.list ((publicNames m).map .str)) ∧ '\n' ∉ text := by
  refine textsValue_denotes (fun n hn => ?_) fun n hn => ?_ <;>
    exact not_mem_identifier (h.identifiers hn) (by decide) (by decide)

theorem attributeLine_safeValue (printer : Printer) (name : String) {text : List Char}
    (line : '\n' ∉ text) : printer.attributeLine ⟨name, some (safeValue text), none⟩ =
      name ++ " = " ++ String.ofList text := by
  have single : splitAtChar '\n' (String.ofList text).toList = [text] := by
    rw [String.toList_ofList, splitAtChar_of_not_mem line]
  simp only [Printer.attributeLine, safeValue, Printer.value, single, if_true]

/-- The module with the list of its public names and the import from the future. -/
def completed (m : Module) : Module := { m with
  imports := futureImport.insert m.imports
  attributes := m.attributes ++ [⟨"__all__", some (textsValue (publicNames m)), none⟩] }

theorem Announces.lists {o : Object} (h : Announces (shownIn s.world o) m)
    (none : ∀ x ∈ shownIn s.world o, x.1 ≠ "__all__") :
    ∃ future v names, ListsNames s o (completed m) m.elements future v names := by
  have single (st : Statement) (hst : st ∈ m.elements) (listed : st.isListed = true) :
      st.bound? ≠ some "__all__" := by
    intro bound
    obtain ⟨x, hx, named, -⟩ := h.bound st hst listed
    exact none x hx (Option.some.inj (named.symm.trans bound))
  have others : m.attributes.filter (·.name == "__all__") = [] := by
    refine filter_eq_nil_iff.mpr fun a ha same => ?_
    exact single (.attr a) (by simp [Module.elements, ha]) rfl (congrArg some (eq_of_beq same))
  have imported : .importing futureImport ∈ m.elements ↔ futureImport ∈ m.imports := by
    simp [Module.elements]
  obtain ⟨text, value, denotes, line⟩ := h.denotes
  obtain ⟨future, inserted, added⟩ : ∃ future, futureImport.insert m.imports = m.imports ++ future ∧
      (future = [futureImport] ∧ .importing futureImport ∉ m.elements ∨
        future = [] ∧ .importing futureImport ∈ m.elements) := by
    rw [imported]
    by_cases known : futureImport ∈ m.imports
    · exact ⟨[], by rw [Import.insert, if_pos known, append_nil], .inr ⟨rfl, known⟩⟩
    · exact ⟨[futureImport], by rw [Import.insert, if_neg known], .inl ⟨rfl, known⟩⟩
  refine ⟨future, safeValue text, publicNames m, ?_, added, h.feature, single, ?_, fun printer => ?_,
    publicNames_increasing m, fun n => mem_publicNames, fun printer => ?_⟩
  · classical
    rw [completed, inserted, value, perm_iff_count]
    intro st
    simp only [Module.elements, map_append, map_cons, map_nil, count_append]
    omega
  · rw [safeValue, String.toList_ofList]
    exact denotes.evaluate?
  · exact attributeLine_safeValue printer "__all__" line
  · have printable : ∀ c ∈ m.classes, c.Printable := fun c hc =>
      h.printable (by simp [Module.elements, hc])
    obtain ⟨lines, hlines⟩ := Printer.exists_moduleLines (p := printer) (m := completed m) printable
    refine ⟨lines, hlines, Printer.moduleLines_ok ?_ hlines⟩
    rw [completed, filter_append, others]
    exact Nat.le_refl 1

/-- A module without a list of its public names gets one, and it is exact. -/
theorem moduleOf_lists_public_names {name : String} {doc : Option String}
    {ms : List (String × Object)} (none : ∀ x ∈ ms, x.1 ≠ "__all__")
    (h : (moduleOf path (.moduleDef name doc ms)).outcome s p = (.ok m, q)) :
    ∃ own future v names, ListsNames s (.moduleDef name doc ms) m own future v names := by
  rw [outcome_moduleOf] at h
  obtain ⟨m', imports, announces, rfl⟩ := moduleBody_announces h
  have absent : ∀ x ∈ shownIn s.world (.moduleDef name doc ms), x.1 ≠ "__all__" := by
    intro x hx same
    rcases mem_shownIn hx with isDoc | ⟨y, hy, named⟩
    · rw [isDoc] at same
      revert same
      decide
    · exact none y hy (named.trans same)
  obtain ⟨future, v, names, lists⟩ := announces.lists absent
  have unlisted : ¬ m'.attributes.any (·.name = "__all__") = true := by
    intro present
    obtain ⟨a, ha, same⟩ := any_eq_true.mp present
    refine lists.single (.attr a) (by simp [Module.elements, ha]) rfl ?_
    exact congrArg some (of_decide_eq_true same)
  have complete : withImports m' imports =
      completed { m' with imports := Import.union m'.imports imports } := by
    rw [withImports, withPublicNames, if_neg unlisted]
    rfl
  rw [complete]
  exact ⟨_, future, v, names, lists⟩

end

/-- A module with a class, an alias of it, a class of another module, a function that needs an import,
a sub-module, and values of which one is private. -/
def publisher : Object := .moduleDef "m" (some "Doc.")
  [("n", .int 1), ("_k", .int 2), ("B", .ref ⟨["m", "A"]⟩), ("A", classIn "m" "A" []),
    ("f", routineIn "m" "f" "u.D"), ("C", .ref ⟨["u", "C"]⟩), ("e", .moduleDef "m.e" none [])]

/-- The module and the one that it takes a class from. -/
def publishers : List Object :=
  [publisher, .moduleDef "u" none [("C", classIn "u" "C" []), ("D", classIn "u" "D" [])]]

/-- The list has all names but the private one, the module that is imported for the function, and the
feature of the language. -/
theorem publisher_lists_names : ∃ m q,
    (moduleOf ⟨["m"]⟩ publisher).outcome ⟨{}, .ofModules publishers⟩ {} = (.ok m, q) ∧
      m.elements.filterMap Statement.bound? =
        ["C", "u", "annotations", "e", "A", "f", "_k", "n", "__all__", "B"] ∧
      (m.attributes.filter (·.name = "__all__")).filterMap (·.value.map Value.text) =
        ["['A', 'B', 'C', 'e', 'f', 'n']"] ∧
      ∃ own future v names,
        ListsNames ⟨{}, .ofModules publishers⟩ publisher m own future v names := by
  have result : ((moduleOf ⟨["m"]⟩ publisher).outcome ⟨{}, .ofModules publishers⟩
      {}).1.toOption.map (fun m => (m.elements.filterMap Statement.bound?,
        (m.attributes.filter (·.name = "__all__")).filterMap (·.value.map Value.text))) =
      some (["C", "u", "annotations", "e", "A", "f", "_k", "n", "__all__", "B"],
        ["['A', 'B', 'C', 'e', 'f', 'n']"]) := by
    rw [outcome_moduleOf, World.ofModules_eq]
    decide +kernel
  rcases h : (moduleOf ⟨["m"]⟩ publisher).outcome ⟨{}, .ofModules publishers⟩ {} with ⟨e | m, q⟩
  · rw [h] at result
    cases result
  · rw [h] at result
    obtain ⟨bound, listed⟩ := Prod.mk.inj (Option.some.inj result)
    exact ⟨m, q, rfl, bound, listed, moduleOf_lists_public_names (by decide) h⟩

end Inspection

end TypeStubs
