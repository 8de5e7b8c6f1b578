import TypeStubs.Proofs.Refining

/-! What attributes and fields are said to be: the type of their value, by its name in the module
being inspected. The path of the module is taken off this name twice, which shows where the full name
of the type repeats the path. -/

namespace TypeStubs

open List

namespace QualifiedName

/-- What a full name is in the module with a path: the rest behind the path, and all of the name if it
does not start with the path. -/
inductive IsCalled (path full : QualifiedName) : QualifiedName → Prop
  | outside : ¬ path.parts <+: full.parts → IsCalled path full full
  | inside {rest : List String} : full.parts = path.parts ++ rest → IsCalled path full ⟨rest⟩

theorem isCalled_inside (path full : QualifiedName) : IsCalled path full (full.inside path) := by
  unfold QualifiedName.inside dropBase?
  split
  · rename_i starts
    obtain ⟨rest, whole⟩ := isPrefixOf_iff_prefix.mp starts
    have dropped : full.parts.drop path.length = rest := by
      rw [← whole, length, drop_left]
    rw [dropped]
    exact .inside whole.symm
  · rename_i other
    exact .outside fun starts => other (List.isPrefixOf_iff_prefix.mpr starts)

theorem IsCalled.unique {path full name name' : QualifiedName} (h : IsCalled path full name)
    (h' : IsCalled path full name') : name = name' := by
  cases h with
  | outside other =>
    cases h' with
    | outside _ => rfl
    | inside whole => exact absurd ⟨_, whole.symm⟩ other
  | inside whole =>
    cases h' with
    | outside other => exact absurd ⟨_, whole.symm⟩ other
    | inside whole' => rw [append_cancel_left (whole.symm.trans whole')]

def Repeats (path full : QualifiedName) : Prop :=
  path.parts ≠ [] ∧ path.parts ++ path.parts <+: full.parts

variable {path full once name : QualifiedName}

theorem IsCalled.twice_iff (h : IsCalled path full once) (h' : IsCalled path once name) :
    IsCalled path full name ↔ ¬ Repeats path full := by
  cases h with
  | outside other =>
    have once : ¬ Repeats path full := fun twice =>
      other ((prefix_append _ _).trans twice.2)
    exact iff_of_true h' once
  | @inside rest whole =>
    have again : Repeats path full ↔ path.parts ≠ [] ∧ path.parts <+: rest := by
      rw [Repeats, whole, prefix_append_right_inj]
    rw [again]
    cases h' with
    | outside other => exact iff_of_true (.inside whole) fun twice => other twice.2
    | @inside rest' whole' =>
      -- The rest of the rest is the rest itself only if the path is empty.
      have rest_eq : rest = path.parts ++ rest' := whole'
      have starts : path.parts <+: rest := ⟨rest', rest_eq.symm⟩
      constructor
      · intro called twice
        have same : rest' = rest := congrArg QualifiedName.parts (called.unique (.inside whole))
        rw [same] at rest_eq
        exact twice.1 (self_eq_append_left.mp rest_eq)
      · intro once
        have empty : path.parts = [] := Decidable.not_not.mp fun h => once ⟨h, starts⟩
        have same : rest = rest' := by rw [rest_eq, empty, nil_append]
        exact same ▸ .inside whole

theorem IsCalled.twice_empty_iff (h : IsCalled path full once) (h' : IsCalled path once name)
    (some_parts : full.parts ≠ []) : name.parts = [] ↔
      full.parts = path.parts ∨ full.parts = path.parts ++ path.parts := by
  cases h with
  | outside other =>
    have name : name = full := h'.unique (.outside other)
    refine iff_of_false (name ▸ some_parts) ?_
    rintro (same | twice)
    · exact other (same ▸ prefix_rfl)
    · exact other (twice ▸ prefix_append _ _)
  | @inside rest whole =>
    rw [whole, append_cancel_left_eq, append_right_eq_self]
    cases h' with
    | outside other =>
      have ne : rest ≠ path.parts := fun same => other (same ▸ prefix_rfl)
      exact (or_iff_left ne).symm
    | @inside rest' whole' =>
      have rest_eq : rest = path.parts ++ rest' := whole'
      rw [rest_eq, append_right_eq_self, append_eq_nil_iff]
      exact ⟨.inr, fun h => h.elim And.right id⟩

end QualifiedName

def fullNameOf (module qualified : String) : QualifiedName :=
  ⟨splitText '.' module ++ splitText '.' qualified⟩

/-- The name that is written for a type in the module with a path. The path is taken off twice. -/
structure WritesType (path full name : QualifiedName) : Prop where
  twice : ∃ once, path.IsCalled full once ∧ path.IsCalled once name
  called_iff : path.IsCalled full name ↔ ¬ path.Repeats full
  empty_iff : name.parts = [] ↔ full.parts = path.parts ∨ full.parts = path.parts ++ path.parts

theorem writesType_inside (path : QualifiedName) (module qualified : String) :
    WritesType path (fullNameOf module qualified)
      (((fullNameOf module qualified).inside path).inside path) := by
  have once := QualifiedName.isCalled_inside path (fullNameOf module qualified)
  have twice := QualifiedName.isCalled_inside path ((fullNameOf module qualified).inside path)
  have some_parts : (fullNameOf module qualified).parts ≠ [] := by
    refine append_ne_nil_of_left_ne_nil (fun empty => ?_) _
    exact splitAtChar_ne_nil _ _ (map_eq_nil_iff.mp empty)
  exact ⟨⟨_, once, twice⟩, once.twice_iff twice, once.twice_empty_iff twice some_parts⟩

namespace Inspection

variable {s : Setting} {p q : Progress} {path : QualifiedName} {o : Object}
  {module qualified : String}

theorem typeName_ok {name : QualifiedName}
    (foreign : (fullNameOf module qualified).head ≠ "builtins")
    (h : (typeName ⟨some module, qualified⟩).outcome s p = (.ok name, q)) :
    name = (fullNameOf module qualified).inside p.modulePath := by
  have full : fullTypeName ⟨some module, qualified⟩ = pure (fullNameOf module qualified) := by
    have own : module ≠ "builtins" := by
      rintro rfl
      exact foreign rfl
    simp only [fullTypeName, own, decide_false, Bool.false_and, Bool.false_eq_true, if_false]
    split
    · rename_i parts builtin
      exact absurd (by rw [fullNameOf, QualifiedName.head, builtin]; rfl) foreign
    · rfl
  rw [typeName, full, pure_bind, outcome_bind, outcome_withoutModule] at h
  obtain ⟨_, r, -, h⟩ := bind_ok_iff.mp h
  cases h
  rfl

section

variable (ht : o.typeName = ⟨some module, qualified⟩)
  (foreign : (fullNameOf module qualified).head ≠ "builtins")
include ht foreign

theorem isValue_of_typeName : o.isNone = false ∧ o.isModule = false := by
  constructor
  · cases o with
    | none =>
      cases ht
      exact absurd rfl foreign
    | _ => rfl
  · cases o with
    | moduleDef name doc ms =>
      cases ht
      exact absurd rfl foreign
    | _ => rfl

theorem attributeOf_hint {a : Attribute}
    (h : (attributeOf path o).outcome s p = (.ok (some a), q)) : a.hint =
      some (.type (((fullNameOf module qualified).inside p.modulePath).inside p.modulePath) none) := by
  obtain ⟨notNone, notModule⟩ := isValue_of_typeName ht foreign
  unfold attributeOf at h
  rw [outcome_ite] at h
  split at h
  · cases h
  obtain ⟨v, r, valued, h⟩ := bind_ok_iff.mp h
  obtain ⟨type, r', typed, h⟩ := bind_ok_iff.mp h
  rw [ht] at typed
  have grows := ((plain_value o).grows valued).trans ((plain_typeName _).grows typed)
  have first := typeName_ok foreign typed
  simp only [notNone, notModule, Bool.or_false, Bool.false_eq_true, if_false] at h
  rw [outcome_bind, outcome_withoutModule] at h
  obtain ⟨_, r'', -, h⟩ := bind_ok_iff.mp h
  cases h
  rw [first, ((plain_value o).grows valued).modulePath, grows.modulePath]

theorem fieldOf_hint {f : Field} (h : (fieldOf path o).outcome s p = (.ok (some f), q)) :
    f.attr.hint = some (.type (wellKnownName "typing.ClassVar" p.modulePath) (some
      [.type (((fullNameOf module qualified).inside p.modulePath).inside p.modulePath) none])) := by
  obtain ⟨notNone, -⟩ := isValue_of_typeName ht foreign
  have notDict : dictType? o = pure none := by
    unfold dictType?
    split
    · cases ht
      exact absurd rfl foreign
    · rfl
  obtain ⟨a?, r, shown, h⟩ := bind_ok_iff.mp h
  cases a? with
  | none => cases h
  | some a =>
    obtain ⟨hint, r', hinted, h⟩ := bind_ok_iff.mp h
    cases h
    rw [attributeOf_hint ht foreign shown] at hinted
    obtain ⟨wrapped?, r₁, hv, hinted⟩ := bind_ok_iff.mp hinted
    obtain ⟨type, r₂, known, hv⟩ := bind_ok_iff.mp hv
    cases hv
    obtain ⟨hint', r₃, members, hinted⟩ := bind_ok_iff.mp hinted
    have same : hint' = some (.type type (some [.type
        (((fullNameOf module qualified).inside p.modulePath).inside p.modulePath) none])) := by
      rw [membersHint, outcome_ite, notDict, pure_bind] at members
      split at members
      · cases members
        rfl
      · cases members
        rfl
    simp only [notNone, Bool.false_and, Bool.false_eq_true, if_false] at hinted
    cases hinted
    rw [same, (wellKnown_ok known).1, ((plain_attributeOf path o).grows shown).modulePath]

end

/-- Attributes and fields are said to be of the type of their value. It has the name that it has in
the module being inspected, unless its full name starts with the path of the module twice. -/
theorem value_types_written (s : Setting) (p : Progress) (path : QualifiedName)
    (ht : o.typeName = ⟨some module, qualified⟩)
    (foreign : (fullNameOf module qualified).head ≠ "builtins") :
    ∃ name, WritesType p.modulePath (fullNameOf module qualified) name ∧
      (∀ a q, (attributeOf path o).outcome s p = (.ok (some a), q) → a.hint = some (.type name none)) ∧
      ∀ f q, (fieldOf path o).outcome s p = (.ok (some f), q) →
        f.attr.hint = some (.type (wellKnownName "typing.ClassVar" p.modulePath)
          (some [.type name none])) :=
  ⟨_, writesType_inside p.modulePath module qualified, fun _ _ => attributeOf_hint ht foreign,
    fun _ _ => fieldOf_hint ht foreign⟩

/-- A point, whose type is defined in the module `m`. -/
def origin : Object := .value ⟨some "m", "Point"⟩ .object "<m.Point object>"

def insideM : Progress := { layers := [⟨⟨["m"]⟩, []⟩], modulePath := ⟨["m"]⟩ }

/-- In its module the point is a `Point`, as an attribute and as a field. -/
theorem origin_types_written : ∃ a q f r,
    (attributeOf ⟨["m", "origin"]⟩ origin).outcome ⟨{}, .ofModules []⟩ insideM = (.ok (some a), q) ∧
      (fieldOf ⟨["m", "origin"]⟩ origin).outcome ⟨{}, .ofModules []⟩ insideM = (.ok (some f), r) ∧
      a.hint = some (.type ⟨["Point"]⟩ none) ∧
      f.attr.hint = some (.type ⟨["typing", "ClassVar"]⟩ (some [.type ⟨["Point"]⟩ none])) := by
  obtain ⟨name, written, attributes, fields⟩ := value_types_written (o := origin)
    ⟨{}, .ofModules []⟩ insideM ⟨["m", "origin"]⟩ rfl (by decide)
  have named : name = ⟨["Point"]⟩ :=
    (written.called_iff.mpr fun twice => absurd twice.2 (by decide)).unique (.inside rfl)
  have kept : ((attributeOf ⟨["m", "origin"]⟩ origin).outcome ⟨{}, .ofModules []⟩
      insideM).1.toOption.join.isSome = true := by
    rw [World.ofModules_eq]
    decide +kernel
  have keptField : ((fieldOf ⟨["m", "origin"]⟩ origin).outcome ⟨{}, .ofModules []⟩
      insideM).1.toOption.join.isSome = true := by
    rw [World.ofModules_eq]
    decide +kernel
  rcases ha : (attributeOf ⟨["m", "origin"]⟩ origin).outcome ⟨{}, .ofModules []⟩ insideM with
    ⟨e | _ | a, q⟩
  · rw [ha] at kept
    cases kept
  · rw [ha] at kept
    cases kept
  rcases hf : (fieldOf ⟨["m", "origin"]⟩ origin).outcome ⟨{}, .ofModules []⟩ insideM with
    ⟨e | _ | f, r⟩
  · rw [hf] at keptField
    cases keptField
  · rw [hf] at keptField
    cases keptField
  exact ⟨a, q, f, r, rfl, rfl, named ▸ attributes a q ha, named ▸ fields f r hf⟩

/-- A module with a class of its own name, and with a value of this class. -/
def namesake : Object := .moduleDef "m" none
  [("m", .classDef { name? := some "m", qualified? := some "m", module? := some "m" }
      (.builtin "type") [] []),
    ("x", .value ⟨some "m", "m"⟩ .object "<m.m object>")]

/-- The type of the value is called `m` in the module, and nothing is written for it. -/
theorem namesake_type_lost : ∃ m q,
    (moduleOf ⟨["m"]⟩ namesake).outcome ⟨{}, .ofModules [namesake]⟩ {} = (.ok m, q) ∧
      (m.attributes.filter (·.name = "x")).map Attribute.hint = [some (.type ⟨[]⟩ none)] ∧
      ∀ name, (QualifiedName.mk ["m"]).IsCalled (fullNameOf "m" "m") name ↔ name = ⟨["m"]⟩ := by
  have result : ((moduleOf ⟨["m"]⟩ namesake).outcome ⟨{}, .ofModules [namesake]⟩ {}).1.toOption.map
      (fun m => (m.attributes.filter (·.name = "x")).map Attribute.hint) =
        some [some (.type ⟨[]⟩ none)] := by
    rw [outcome_moduleOf, World.ofModules_eq]
    decide +kernel
  have called : (QualifiedName.mk ["m"]).IsCalled (fullNameOf "m" "m") ⟨["m"]⟩ := .inside rfl
  rcases h : (moduleOf ⟨["m"]⟩ namesake).outcome ⟨{}, .ofModules [namesake]⟩ {} with ⟨e | m, q⟩
  · rw [h] at result
    cases result
  · rw [h] at result
    exact ⟨m, q, rfl, Option.some.inj result, fun name => ⟨fun h => h.unique called, fun h => h ▸ called⟩⟩

end Inspection

end TypeStubs
