import TypeStubs.Proofs.ScopedHints

/-! The names in functions, attributes and aliases are brought into scope. -/

namespace TypeStubs

open List

variable {union : Option QualifiedName}

def Hint.firsts? (union : Option QualifiedName) (h : Option Hint) : List String :=
  h.toList.flatMap (Hint.firsts union)

/-- The first parts of the names in the hints of parameters. -/
def argumentFirsts (union : Option QualifiedName) (arguments : List Argument) : List String :=
  arguments.flatMap fun a => Hint.firsts? union a.hint

def Function.firsts (union : Option QualifiedName) (f : Function) : List String :=
  argumentFirsts union f.arguments ++ Hint.firsts? union f.returns

theorem argumentFirsts_generic (union : Option QualifiedName) :
    argumentFirsts union genericArguments = [] := rfl

theorem Function.firsts_withoutHint {f : Function} {a a' : Argument} {as : List Argument}
    (hf : f.arguments = a :: as) (h : a'.hint = none) :
    Function.firsts union { f with arguments := a' :: as } ⊆ f.firsts union := by
  intro g hg
  simp only [Function.firsts, argumentFirsts, hf, flatMap_cons, h, append_assoc] at hg ⊢
  exact mem_append_right _ hg

theorem Function.firsts_withoutSelfHint (union : Option QualifiedName) (className : QualifiedName) (f : Function) :
    (f.withoutSelfHint className).firsts union ⊆ f.firsts union := by
  unfold Function.withoutSelfHint
  split
  · rename_i first rest hargs
    split
    · exact Function.firsts_withoutHint hargs rfl
    · exact fun _ hg => hg
  · exact fun _ hg => hg

theorem Function.firsts_asAccessor (union : Option QualifiedName) (f : Function) :
    f.asAccessor.firsts union ⊆ f.firsts union := by
  unfold Function.asAccessor
  split
  · rename_i first rest hargs
    split
    · exact Function.firsts_withoutHint hargs rfl
    · exact fun _ hg => hg
  · exact fun _ hg => hg

def Property.firsts (union : Option QualifiedName) (p : Property) : List String :=
  p.getter.toList.flatMap (Function.firsts union) ++ p.setter.toList.flatMap (Function.firsts union)

namespace Inspection

variable {s : Setting} {path : QualifiedName} {given : List String}

/-! Signatures. -/

section

variable (ha : s.options.arrays = .asWritten)

include ha

theorem scopes_hintOfText? (text : Option (List Char)) :
    Scopes s path given (hintOfText? text) (Hint.firsts? (some (unionName path))) := by
  cases text with
  | none => exact .pure fun _ hf => nomatch hf
  | some text =>
    refine (scopes_hintOfSyntax ha given _ (.inl rfl)).bind fun hint => .pure fun f hf => ?_
    exact mem_append_right _ (by simpa [Hint.firsts?] using hf)

omit ha in
theorem scopes_genericArguments (union : Option QualifiedName) :
    Scopes s path given (pure genericArguments) (argumentFirsts union) := by
  refine .pure fun f hf => ?_
  rw [argumentFirsts_generic] at hf
  cases hf

theorem scopes_argumentsOfTexts {arguments : List Argument}
    (hg : argumentFirsts (some (unionName path)) arguments ⊆ given) (keywordOnly : Bool)
    (texts : List ArgumentText) : Scopes s path given (argumentsOfTexts arguments keywordOnly texts)
      (argumentFirsts (some (unionName path))) := by
  induction texts generalizing arguments keywordOnly given with
  | nil => exact .pure hg
  | cons a as ih =>
    refine .ite (ih ?_ _) (.ite (ih hg _) ?_)
    · intro f hf
      exact hg (by simpa [argumentFirsts, flatMap_map] using hf)
    · split
      · exact scopes_genericArguments _
      · refine (scopes_hintOfText? ha a.hint).bind fun hint => ?_
        refine .bind (.of_plain ?_) fun default => ih (fun f hf => ?_) _
        · cases a.default with
          | none => exact .pure none
          | some text => exact .bind (plain_expressionOfText text) fun _ => .pure _
        · simp only [argumentFirsts, flatMap_append, mem_append] at hf ⊢
          rcases hf with hf | hf
          · exact .inl (.inl (hg hf))
          · exact .inl (.inr (by simpa using hf))

theorem scopes_argumentsOfText (text : List Char) :
    Scopes s path given (argumentsOfText text) (argumentFirsts (some (unionName path))) := by
  unfold argumentsOfText
  split
  · exact scopes_genericArguments _
  · exact scopes_argumentsOfTexts ha (nil_subset _) _ _

theorem scopes_functionOfMatch (name : String) (c : Captures) (doc : List String) :
    Scopes s path given (functionOfMatch name c doc) (Function.firsts (some (unionName path))) := by
  refine (scopes_hintOfText? ha _).bind fun returns => ?_
  refine .bind (.of_plain (plain_groupText c _)) fun text => ?_
  refine (scopes_argumentsOfText ha text).bind fun arguments => .pure fun f hf => ?_
  simp only [Function.firsts, mem_append] at hf ⊢
  rcases hf with hf | hf
  · exact .inr hf
  · exact .inl (.inl (.inr hf))

theorem scopes_overloadOfMatch (name : String) (c : Captures) :
    Scopes s path given (overloadOfMatch name c) (Function.firsts (some (unionName path))) := by
  refine .bind (.of_plain (plain_groupText c _)) fun text => ?_
  refine (scopes_argumentsOfText ha text).bind fun arguments => ?_
  refine .bind (.of_plain (plain_groupText c _)) fun text => ?_
  refine (scopes_hintOfSyntax ha _ _ (.inl rfl)).bind fun returns => ?_
  refine .bind (.of_plain (plain_wellKnown _)) fun _ => .pure fun f hf => ?_
  simp only [Function.firsts, Hint.firsts?, Option.toList, flatMap_cons, flatMap_nil,
    append_nil, mem_append] at hf ⊢
  rcases hf with hf | hf
  · exact .inl (.inr hf)
  · exact .inr hf

theorem scopes_overloadsOfLines (pattern : Regex) (name : String)
    (number : Nat) (lines : List String) :
    Scopes s path given (overloadsOfLines pattern name number lines)
      fun r => r.2.flatMap (Function.firsts (some (unionName path))) := by
  induction lines generalizing number given with
  | nil => exact .pure fun _ hf => nomatch hf
  | cons line lines ih =>
    unfold overloadsOfLines
    split
    · exact (ih number).bind fun r => .pure fun f hf => mem_append_right _ hf
    · refine .ite ?_ ((ih number).bind fun r => .pure fun f hf => mem_append_right _ hf)
      refine (scopes_overloadOfMatch ha name _).bind fun overload => ?_
      refine (ih (number + 1)).bind fun r => .pure fun f hf => ?_
      rw [append_assoc]
      exact mem_append_right _ hf

theorem scopes_functionsOfLines (name : String) (lines : List String) :
    Scopes s path given (functionsOfLines name lines)
      (flatMap (Function.firsts (some (unionName path)))) := by
  cases lines with
  | nil => exact .pure fun _ hf => nomatch hf
  | cons first lines =>
    refine .bind (.of_plain (plain_patternOf _)) fun pattern => ?_
    split
    · exact .pure fun _ hf => nomatch hf
    · refine .ite (.bind (.of_plain (plain_patternOf _)) fun pattern => ?_) ?_
      · exact (scopes_overloadsOfLines ha _ _ _ _).bind fun r =>
          .pure fun f hf => mem_append_right _ hf
      · refine (scopes_functionOfMatch ha _ _ _).bind fun function => .pure fun f hf => ?_
        simp only [flatMap_cons, flatMap_nil, append_nil] at hf
        exact mem_append_right _ hf

/-! Functions. -/

omit ha in
theorem scopes_typeName (t : TypeName) :
    Scopes s path given (typeName t) fun name => [name.head] := by
  refine .bind (.of_plain (plain_fullTypeName t)) fun _ => ?_
  refine .bind (.of_plain (plain_withoutModule _)) fun name => ?_
  exact .bind (scopes_requireImport name) fun _ => .pure fun f hf => mem_append_right _ hf

omit ha in
theorem scopes_typeNameOf (o : Object) :
    Scopes s path given (typeNameOf o) fun name => [name.head] := by
  unfold typeNameOf
  split
  · exact .throw _ _
  · exact scopes_typeName _

omit ha in
theorem firsts_bare (union : Option QualifiedName) (name : QualifiedName) : (Hint.type name none).firsts union = [name.head] := by
  simp [Hint.firsts, Hint.ownFirst, Hint.innerFirsts]

theorem scopes_hintOfObject (o : Object) :
    Scopes s path given (hintOfObject o) (Hint.firsts (some (unionName path))) := by
  refine .bind (.of_plain (plain_settle o)) fun o => ?_
  split
  · exact scopes_hintOfSyntax ha _ _ (.inl rfl)
  · refine .ite ?_ ?_
    · refine (scopes_typeNameOf o).bind fun name => .pure fun f hf => ?_
      rw [firsts_bare] at hf
      exact mem_append_right _ hf
    · exact .bind (.of_plain (plain_value o)) fun _ => .pure fun _ hf => nomatch hf

omit ha in
theorem mem_foldl_put {e : String × Argument} {es t : ArgumentTable} (h : e ∈ es.foldl .put t) :
    e ∈ t ∨ e ∈ es := by
  induction es generalizing t with
  | nil => exact .inl h
  | cons x es ih =>
    rcases ih h with h | h
    · unfold ArgumentTable.put at h
      split at h
      · obtain ⟨y, hy, rfl⟩ := mem_map.mp h
        split
        · exact .inr mem_cons_self
        · exact .inl hy
      · exact (mem_append.mp h).imp_right fun h => mem_cons.mpr (.inl (mem_singleton.mp h))
    · exact .inr (.tail _ h)

omit ha in
theorem SignatureParts.hint_of_mem_table {parts : SignatureParts Object} {e : String × Argument}
    (h : e ∈ parts.table) : e.2.hint = none := by
  have listed := (mem_foldl_put h).resolve_left not_mem_nil
  simp only [SignatureParts.entries, mem_append, mem_cons, mem_map] at listed
  rcases listed with ⟨n, -, rfl⟩ | rfl | (⟨n, -, rfl⟩ | ⟨n, -, rfl⟩) | ⟨n, -, rfl⟩ <;> rfl

omit ha in
theorem scopes_fill {α : Type} {read : Object → Inspection α} {change : α → Argument → Argument}
    {union : Option QualifiedName} {g : α → List String}
    (reads : ∀ given o, Scopes s path given (read o) g)
    (changes : ∀ a x, Hint.firsts? union (change a x).hint ⊆ Hint.firsts? union x.hint ++ g a)
    (es : List (String × Object)) {t : ArgumentTable}
    (known : argumentFirsts union (t.map (·.2)) ⊆ given) :
    Scopes s path given (fill read change es t) fun t => argumentFirsts union (t.map (·.2)) := by
  induction es generalizing t given with
  | nil => exact .pure fun f hf => known hf
  | cons e es ih =>
    refine (reads given e.2).bind fun a => ih fun f hf => ?_
    simp only [argumentFirsts, ArgumentTable.adjust, map_map, mem_flatMap, mem_map] at hf
    obtain ⟨_, ⟨x, hx, rfl⟩, hf⟩ := hf
    have own (hf : f ∈ Hint.firsts? union x.2.hint) : f ∈ given :=
      known (mem_flatMap.mpr ⟨x.2, mem_map_of_mem hx, hf⟩)
    simp only [Function.comp_apply] at hf
    split at hf
    · exact mem_append.mpr ((mem_append.mp (changes a x.2 hf)).imp_left own)
    · exact mem_append_left _ (own hf)

theorem scopes_functionOfSignature (name : String)
    (doc : Option String) (signature : Signature Object) :
    Scopes s path given (functionOfSignature name doc signature)
      (Function.firsts (some (unionName path))) := by
  have bare : argumentFirsts (some (unionName path)) (signature.parts.table.map (·.2)) ⊆ given := by
    intro f hf
    obtain ⟨a, ha, hf⟩ := mem_flatMap.mp hf
    obtain ⟨e, he, rfl⟩ := mem_map.mp ha
    rw [SignatureParts.hint_of_mem_table he] at hf
    cases hf
  have kept (v : Value) (x : Argument) : Hint.firsts? (some (unionName path)) (x.withDefault v).hint ⊆
      Hint.firsts? (some (unionName path)) x.hint ++ [] := subset_append_left _ _
  have hinted (h : Hint) (x : Argument) : Hint.firsts? (some (unionName path)) (x.withHint h).hint ⊆
      Hint.firsts? (some (unionName path)) x.hint ++ h.firsts (some (unionName path)) := by
    simp [Argument.withHint, Hint.firsts?]
  refine (scopes_fill (fun _ o => .of_plain (plain_defaultOf o)) kept _ bare).bind fun t => ?_
  refine (scopes_fill (fun _ o => scopes_hintOfObject ha o) hinted _ (subset_append_right _ _)).bind
    fun t => .pure fun f hf => mem_append_right _ ?_
  rcases mem_append.mp hf with hf | hf
  · obtain ⟨a, ha, hf⟩ := mem_flatMap.mp hf
    obtain ⟨e, he, rfl⟩ := mem_map.mp ha
    exact mem_flatMap.mpr ⟨e.2, mem_map_of_mem (mem_filter.mp he).1, hf⟩
  · cases found : t.lookup "return" with
    | none => simp [found, Hint.firsts?] at hf
    | some a =>
      obtain ⟨front, back, rfl, -⟩ := lookup_eq_some_iff.mp found
      exact mem_flatMap.mpr ⟨a, by simp, by simpa [found] using hf⟩

theorem scopes_signedFunction (name : String) (o : Object) :
    Scopes s path given (signedFunction name o) (Function.firsts (some (unionName path))) := by
  refine .bind (.of_plain plain_world) fun w => ?_
  split
  · exact .tryCatch (plain_functionOfSignature _ _ _) (scopes_functionOfSignature ha _ _ _) fun e =>
      .ite (.pure fun f hf => (nomatch hf)) (.throw _ _)
  · exact .pure fun f hf => (nomatch hf)

theorem scopes_functionsOf (site : QualifiedName) (o : Object) :
    Scopes s path given (functionsOf site o) (flatMap (Function.firsts (some (unionName path)))) := by
  refine .withLayer site ((scopes_signedFunction ha _ o).bind fun f => ?_)
  have single (g : String) (hg : g ∈ [f].flatMap (Function.firsts (some (unionName path)))) :
      g ∈ given ++ f.firsts (some (unionName path)) := by
    simp only [flatMap_cons, flatMap_nil, append_nil] at hg
    exact mem_append_right _ hg
  dsimp only
  split
  · refine (scopes_functionsOfLines ha _ _).bind fun fs => .pure fun g hg => ?_
    split at hg
    · exact mem_append_left _ (single g hg)
    · exact mem_append_right _ hg
  · exact .pure single

theorem scopes_methodsOf (site : QualifiedName) (o : Object) :
    Scopes s path given (methodsOf site o)
      (flatMap fun m => m.function.firsts (some (unionName path))) := by
  refine .withLayer site (.ite (.pure fun _ hf => nomatch hf) ?_)
  refine (scopes_functionsOf ha site o).bind fun fs => .pure fun g hg => ?_
  obtain ⟨m, hm, hg⟩ := mem_flatMap.mp hg
  obtain ⟨f, hf, rfl⟩ := mem_map.mp (mem_filter.mp hm).1
  refine mem_append_right _ (mem_flatMap.mpr ⟨f, hf, ?_⟩)
  exact Function.firsts_withoutSelfHint _ _ f hg

def functionFirsts? (union : Option QualifiedName) (f : Option Function) : List String :=
  f.toList.flatMap (Function.firsts union)

omit ha in
theorem scopes_accessor? {fs : List Function} (hg : fs.flatMap (Function.firsts union) ⊆ given) :
    Scopes s path given (accessor? fs) (functionFirsts? union) := by
  unfold accessor?
  split
  · exact .pure fun _ hf => nomatch hf
  · rename_i f
    refine .pure fun g hf => hg ?_
    simp only [functionFirsts?, Option.toList, flatMap_cons, flatMap_nil, append_nil] at hf ⊢
    exact Function.firsts_asAccessor union f hf
  · exact .throw _ _

theorem scopes_accessorOf (site : QualifiedName) (o : Object) :
    Scopes s path given (accessorOf site o) (functionFirsts? (some (unionName path))) := by
  have named (given : List String) : Scopes s path given (do accessor? (← functionsOf site o))
      (functionFirsts? (some (unionName path))) :=
    (scopes_functionsOf ha site o).bind fun fs => scopes_accessor? (subset_append_right _ _)
  refine (scopes_functionsOf ha _ o).bind fun fs => ?_
  refine (scopes_accessor? (subset_append_right _ _)).bind fun f? => ?_
  cases f? with
  | some f => exact .ite (named _) (.pure fun g hg => mem_append_right _ hg)
  | none => exact named _

theorem scopes_accessorOf? (site : QualifiedName) (o : Option Object) :
    Scopes s path given (accessorOf? site o) (functionFirsts? (some (unionName path))) := by
  cases o with
  | none => exact .pure fun _ hf => nomatch hf
  | some o => exact scopes_accessorOf ha site o

omit ha in
theorem functionFirsts?_withoutSelfHint (union : Option QualifiedName) (className : QualifiedName) (f : Option Function) :
    functionFirsts? union (f.map (·.withoutSelfHint className)) ⊆ functionFirsts? union f := by
  cases f with
  | none => exact fun _ hf => hf
  | some f =>
    intro g hg
    simp only [functionFirsts?, Option.map_some, Option.toList, flatMap_cons, flatMap_nil,
      append_nil] at hg ⊢
    exact Function.firsts_withoutSelfHint union className f hg

def propertyFirsts? (union : Option QualifiedName) (p : Option Property) : List String :=
  p.toList.flatMap (Property.firsts union)

theorem scopes_propertyOf (site : QualifiedName) (o : Object) :
    Scopes s path given (propertyOf site o) (propertyFirsts? (some (unionName path))) := by
  unfold propertyOf
  split
  · refine (scopes_accessorOf? ha site _).bind fun getter => ?_
    refine (scopes_accessorOf? ha site _).bind fun setter => ?_
    refine .ite (.pure fun _ hf => nomatch hf) (.pure fun g hg => ?_)
    simp only [propertyFirsts?, Option.toList, flatMap_cons, flatMap_nil, append_nil,
      Property.firsts] at hg
    rcases mem_append.mp hg with hg | hg
    · exact mem_append_left _ (mem_append_right _ (functionFirsts?_withoutSelfHint _ _ _ hg))
    · exact mem_append_right _ (functionFirsts?_withoutSelfHint _ _ _ hg)
  · exact .pure fun _ hf => nomatch hf

end

/-! Attributes. -/

theorem scopes_aliasOf (site : QualifiedName) (o : Object) :
    Scopes s path given (aliasOf site o) fun a => a.toList.map (·.origin.head) := by
  refine .bind (.of_plain (plain_fullName? site o)) fun name => ?_
  cases name with
  | none => exact .pure fun _ hf => nomatch hf
  | some name =>
    refine .bind (.of_plain (plain_withoutModule name)) fun origin => ?_
    exact .bind (scopes_requireImport origin) fun _ => .pure fun f hf => mem_append_right _ hf

theorem scopes_attributeOf (site : QualifiedName) (o : Object) (union : Option QualifiedName) :
    Scopes s path given (attributeOf site o)
      fun a => a.toList.flatMap fun a => Hint.firsts? union a.hint := by
  refine .ite (.pure fun _ hf => nomatch hf) ?_
  refine .bind (.of_plain (plain_value o)) fun v => ?_
  refine .bind (.of_plain (plain_typeName _)) fun type => ?_
  refine .ite (.pure fun _ hf => nomatch hf) ?_
  refine .bind (.of_plain (plain_withoutModule _)) fun name => ?_
  refine .bind (scopes_requireImport name) fun _ => .pure fun f hf => mem_append_right _ ?_
  simpa [Hint.firsts?, firsts_bare] using hf

theorem firsts_type {name : QualifiedName} {ps : List Hint} {f : String}
    (hf : f ∈ (Hint.type name (some ps)).firsts union) :
    f = name.head ∨ ∃ p ∈ ps, f ∈ p.firsts union := by
  rcases mem_append.mp hf with hf | hf
  · exact .inl (mem_singleton.mp hf)
  · exact .inr (Hint.mem_parameterFirsts.mp (Hint.innerFirsts_subset union _ hf))

theorem scopes_anyOf {types : List QualifiedName} (hg : types.map QualifiedName.head ⊆ given)
    (union : Option QualifiedName) : Scopes s path given (anyOf types) (Hint.firsts union) := by
  unfold anyOf
  split
  · refine .pure fun f hf => hg ?_
    rwa [firsts_bare] at hf
  · rename_i types _
    refine (scopes_wellKnown _).bind fun name => .pure fun f hf => ?_
    rcases firsts_type hf with rfl | ⟨p, hp, hf⟩
    · exact mem_append_right _ mem_cons_self
    · obtain ⟨n, hn, rfl⟩ := mem_map.mp hp
      rw [firsts_bare, mem_singleton] at hf
      subst hf
      exact mem_append_left _ (hg (mem_map_of_mem (mem_sortBy.mp hn)))

theorem scopes_entryTypes {keys values : List QualifiedName} (es : List (Object × Object))
    (hk : keys.map QualifiedName.head ⊆ given) (hv : values.map QualifiedName.head ⊆ given) :
    Scopes s path given (entryTypes keys values es)
      fun r => r.1.map QualifiedName.head ++ r.2.map QualifiedName.head := by
  induction es generalizing keys values given with
  | nil => exact .pure fun f hf => (mem_append.mp hf).elim (fun h => hk h) (fun h => hv h)
  | cons e es ih =>
    refine .bind (.of_plain (plain_settle _)) fun k => ?_
    refine (scopes_typeName _).bind fun keyType => ?_
    refine .bind (.of_plain (plain_settle _)) fun v => ?_
    refine (scopes_typeName _).bind fun valueType => ih ?_ ?_
    · intro f hf
      obtain ⟨n, hn, rfl⟩ := mem_map.mp hf
      simp only [append_nil, mem_append, mem_singleton]
      rcases mem_insert_iff.mp hn with rfl | hn
      · exact .inl (.inr rfl)
      · exact .inl (.inl (hk (mem_map_of_mem hn)))
    · intro f hf
      obtain ⟨n, hn, rfl⟩ := mem_map.mp hf
      simp only [append_nil, mem_append, mem_singleton]
      rcases mem_insert_iff.mp hn with rfl | hn
      · exact .inr rfl
      · exact .inl (.inl (hv (mem_map_of_mem hn)))

theorem scopes_dictType? (o : Object) (union : Option QualifiedName) :
    Scopes s path given (dictType? o) (Hint.firsts? union) := by
  unfold dictType?
  split
  · refine (scopes_entryTypes _ (nil_subset _) (nil_subset _)).bind fun types => ?_
    refine (scopes_anyOf (fun f hf => mem_append_right _ (mem_append_left _ hf)) union).bind
      fun keyType => ?_
    refine (scopes_anyOf (fun f hf => mem_append_left _
      (mem_append_right _ (mem_append_right _ hf))) union).bind fun valueType => ?_
    refine (scopes_wellKnown _).bind fun dict => .pure fun f hf => ?_
    simp only [Hint.firsts?, Option.toList, flatMap_cons, flatMap_nil, append_nil] at hf
    rcases firsts_type hf with rfl | ⟨p, hp, hfp⟩
    · exact mem_append_right _ mem_cons_self
    · simp only [mem_cons, not_mem_nil, or_false] at hp
      rcases hp with rfl | rfl
      · exact mem_append_left _ (mem_append_left _ (mem_append_right _ hfp))
      · exact mem_append_left _ (mem_append_right _ hfp)
  · exact .pure fun _ hf => nomatch hf

theorem scopes_variableHint {hint : Option Hint} (hg : Hint.firsts? union hint ⊆ given) :
    Scopes s path given (variableHint hint) (Hint.firsts? union) := by
  cases hint with
  | none => exact .pure fun _ hf => nomatch hf
  | some type =>
    refine (scopes_wellKnown _).bind fun name => .pure fun f hf => ?_
    simp only [Hint.firsts?, Option.toList, flatMap_cons, flatMap_nil, append_nil] at hf hg
    rcases firsts_type hf with rfl | ⟨p, hp, hf⟩
    · exact mem_append_right _ mem_cons_self
    · cases mem_singleton.mp hp
      exact mem_append_left _ (hg hf)

theorem scopes_membersHint {hint : Option Hint} (site : QualifiedName) (o : Object)
    (hg : Hint.firsts? union hint ⊆ given) :
    Scopes s path given (membersHint site o hint) (Hint.firsts? union) := by
  unfold membersHint
  split
  · rename_i isMembers
    simp only [Bool.and_eq_true, decide_eq_true_eq] at isMembers
    refine (scopes_dictType? o union).bind fun type => ?_
    cases type with
    | none => exact .pure fun f hf => mem_append_left _ (hg hf)
    | some type =>
      refine .pure fun f hf => ?_
      simp only [Hint.firsts?, Option.toList, flatMap_cons, flatMap_nil, append_nil] at hf ⊢
      rcases firsts_type hf with rfl | ⟨p, hp, hf⟩
      · refine mem_append_left _ (hg ?_)
        rw [isMembers.2]
        exact mem_append_left _ mem_cons_self
      · cases mem_singleton.mp hp
        exact mem_append_right _ hf
  · exact .pure hg

theorem scopes_fieldOf (ha : s.options.arrays = .asWritten) (site : QualifiedName) (o : Object) :
    Scopes s path given (fieldOf site o)
      fun f => f.toList.flatMap fun f => Hint.firsts? (some (unionName path)) f.attr.hint := by
  refine (scopes_attributeOf site o (some (unionName path))).bind fun a => ?_
  cases a with
  | none => exact .pure fun _ hf => nomatch hf
  | some a =>
    have fieldHint : Scopes s path (given ++ Hint.firsts? (some (unionName path)) a.hint)
        (fieldHint site o a.hint) (Hint.firsts? (some (unionName path))) := by
      refine (scopes_variableHint (subset_append_right _ _)).bind fun hint => ?_
      refine (scopes_membersHint site o (subset_append_right _ _)).bind fun hint => .ite ?_ ?_
      · refine (scopes_hintOfSyntax ha _ _ (.inl rfl)).bind fun hint => .pure fun f hf => ?_
        exact mem_append_right _ (by simpa [Hint.firsts?] using hf)
      · exact .pure fun f hf => mem_append_right _ hf
    simp only [Option.toList, flatMap_cons, flatMap_nil, append_nil]
    refine fieldHint.bind fun hint => .pure fun f hf => ?_
    simp only [flatMap_cons, flatMap_nil, append_nil] at hf
    exact mem_append_right _ hf

end Inspection

end TypeStubs
