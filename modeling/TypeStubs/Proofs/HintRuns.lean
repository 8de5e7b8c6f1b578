import TypeStubs.Proofs.PlacedHints

/-! Hints that are read outside of every module. Whether a text can be read there depends on its
structure alone: the dimensions of fixed sizes have to be integers, and the modules of names have to
be such that they can be looked for. -/

namespace TypeStubs

variable {w : World}

/-- The import that the name of a type needs can be looked for. -/
def Hint.Importable : Hint → Prop
  | .type name _ => name.Importable
  | .expression _ => True

mutual

/-- The imports that the names in a text need can be looked for. Those of the types between bars are
not asked for. -/
def HintSyntax.Importable : HintSyntax → Prop
  | .malformed _ => True
  | .single t => t.Importable ∧ ∀ h ∈ (HintSyntax.single t).hint? ⟨[]⟩, h.Importable
  | .union ts => TypeSyntax.AllImportable ts

/-- The imports that the parameters of a type need can be looked for. -/
def TypeSyntax.Importable : TypeSyntax → Prop
  | .named _ none => True
  | .named _ (some hs) => HintSyntax.AllImportable hs
  | .value _ => True

def TypeSyntax.AllImportable : List TypeSyntax → Prop
  | [] => True
  | t :: ts => t.Importable ∧ TypeSyntax.AllImportable ts

def HintSyntax.AllImportable : List HintSyntax → Prop
  | [] => True
  | h :: hs => h.Importable ∧ HintSyntax.AllImportable hs

end

theorem World.startsModule_of_has {name : String}
    (h : w.has Builtins.asModule name = true) : startsModule name = true := by
  have own : ∀ n ∈ Builtins.asModule.members.map Prod.fst, startsModule n := by decide +kernel
  have implicit : ∀ n ∈ Builtins.asModule.implicitNames, startsModule n := by decide +kernel
  have notClass : Builtins.asModule.isClass = false := rfl
  by_cases hi : name ∈ Builtins.asModule.implicitNames
  · exact implicit name hi
  · rw [has, attribute?, Object.implicit?, if_neg hi, Option.or_none, member?,
      Option.isSome_map] at h
    cases hr : w.reach with
    | zero =>
      rw [hr, memberAt?] at h
      cases h
    | succ n =>
      have found : (Builtins.asModule.members.lookup name).isSome := by
        cases hl : Builtins.asModule.members.lookup name with
        | none => simp [hr, memberAt?, notClass, Located.ownMember?, Object.ownMember?, hl] at h
        | some o => rfl
      obtain ⟨m, hm, same⟩ := List.lookup_isSome_iff.mp found
      exact own name (List.mem_map.mpr ⟨m, hm, (eq_of_beq same).symm⟩)

/-- What is known outside of every module. -/
def Site.outside : Site := ⟨⟨[]⟩, none, none⟩

theorem Site.reaches_outside {name : QualifiedName} :
    outside.Reaches w name ↔ name.Importable := by
  constructor
  · rintro (known | importable)
    · obtain ⟨_ | ⟨part, _ | ⟨part', parts⟩⟩⟩ := name
      · exact .inl (Nat.zero_le 1)
      · exact .inl (Nat.le_refl 1)
      · have given : w.has Builtins.asModule part = true := by
          simpa [knows, outside, QualifiedName.head] using known
        exact .inr (World.startsModule_of_has given)
    · exact importable
  · exact .inr

theorem Hint.reachable_outside {h : Hint} :
    h.Reachable w .outside ↔ h.Importable := by
  cases h with
  | type name parameters => exact Site.reaches_outside
  | expression e => exact Iff.rfl

mutual

theorem HintSyntax.reachable_outside {w : World} (h : HintSyntax) :
    h.Reachable w .outside ↔ h.Importable := by
  match h with
  | .malformed _ => exact Iff.rfl
  | .single t =>
    rw [HintSyntax.Reachable, HintSyntax.Importable, TypeSyntax.reachable_outside t]
    exact and_congr_right fun _ => forall₂_congr fun _ _ => Hint.reachable_outside
  | .union ts =>
    rw [HintSyntax.Reachable, HintSyntax.Importable]
    exact TypeSyntax.allReachable_outside ts

theorem TypeSyntax.reachable_outside {w : World} (t : TypeSyntax) :
    t.Reachable w .outside ↔ t.Importable := by
  match t with
  | .named _ none => exact Iff.rfl
  | .named _ (some hs) =>
    rw [TypeSyntax.Reachable, TypeSyntax.Importable]
    exact HintSyntax.allReachable_outside hs
  | .value _ => exact Iff.rfl

theorem TypeSyntax.allReachable_outside {w : World} (ts : List TypeSyntax) :
    TypeSyntax.AllReachable w .outside ts ↔ TypeSyntax.AllImportable ts := by
  match ts with
  | [] => exact Iff.rfl
  | t :: ts =>
    rw [TypeSyntax.AllReachable, TypeSyntax.AllImportable, TypeSyntax.reachable_outside t,
      TypeSyntax.allReachable_outside ts]

theorem HintSyntax.allReachable_outside {w : World} (hs : List HintSyntax) :
    HintSyntax.AllReachable w .outside hs ↔ HintSyntax.AllImportable hs := by
  match hs with
  | [] => exact Iff.rfl
  | h :: hs =>
    rw [HintSyntax.AllReachable, HintSyntax.AllImportable, HintSyntax.reachable_outside h,
      HintSyntax.allReachable_outside hs]

end

namespace Inspection

variable {s : Setting} {p : Progress}

/-- Something is being inspected, but no class and no module. -/
structure IsOutside (p : Progress) : Prop where
  layers : p.layers ≠ []
  modulePath : p.modulePath = ⟨[]⟩
  module? : p.module? = none
  class? : p.class? = none

theorem isAt_outside : IsAt .outside p ↔ IsOutside p :=
  ⟨fun h => ⟨h.layers, h.modulePath, h.module?, h.class?⟩,
    fun h => ⟨h.layers, h.modulePath, h.module?, h.class?⟩⟩

/-- Outside of every module the text of a hint is read if and only if its structure is that of a
hint, with names that can be imported. -/
theorem gives_hintOfSyntax (ho : s.options = {}) (h : HintSyntax) (p : Progress) (hp : IsOutside p) :
    (∀ hint, h.hint? ⟨[]⟩ = some hint ∧ h.Importable →
      ∃ q, (hintOfSyntax h).outcome s p = (.ok hint, q)) ∧
    ∀ hint q, (hintOfSyntax h).outcome s p = (.ok hint, q) →
      (h.hint? ⟨[]⟩ = some hint ∧ h.Importable) ∧ IsOutside q := by
  have gives : GivesAt s .outside (hintOfSyntax h) _ := givesAt_hintOfSyntax ho h
  have hp := isAt_outside.mpr hp
  constructor
  · rintro hint ⟨read, importable⟩
    exact gives.returns p hp hint ⟨read, (HintSyntax.reachable_outside h).mpr importable⟩
  · intro hint q hr
    obtain ⟨read, reachable⟩ := (gives.only p hp.isIn hint q hr).1
    exact ⟨⟨read, (HintSyntax.reachable_outside h).mp reachable⟩, isAt_outside.mp (gives.stays hr hp)⟩

end Inspection

end TypeStubs
