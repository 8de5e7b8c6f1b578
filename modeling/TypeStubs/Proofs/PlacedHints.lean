import TypeStubs.Proofs.HintValues
import TypeStubs.Proofs.Scope
import TypeStubs.Proofs.WrittenNames

/-! Hints that are read at a site, somewhere in an inspection. Whether a text can be read there
depends on its structure and on the names that are known at the site: the dimensions of fixed sizes
have to be integers, and the modules of other names have to be such that they can be looked for. -/

namespace TypeStubs

open List Option

variable {name : QualifiedName} {text : String}

def startsModule (text : String) : Bool := text.toList.head?.any (· != '.')

theorem startsModule_iff : startsModule text = true ↔ text ≠ "" ∧ hasFront "." text = false := by
  have dot : ".".toList = ['.'] := rfl
  rw [startsModule, hasFront, dot]
  cases hc : text.toList with
  | nil => simp [String.toList_eq_nil_iff.mp hc]
  | cons c cs =>
    have nonempty : text ≠ "" := by
      rintro rfl
      cases hc
    simp only [any_some, bne_iff_ne, isPrefixOf, nonempty, head?_cons, ne_eq,
      not_false_eq_true, true_and, Bool.and_true, beq_eq_false_iff_ne]
    exact ne_comm

namespace QualifiedName

/-- The modules that the name may come from can be looked for. -/
def Importable (name : QualifiedName) : Prop := name.length ≤ 1 ∨ startsModule name.head

instance (name : QualifiedName) : Decidable name.Importable :=
  inferInstanceAs (Decidable (_ ∨ _))

theorem startsModule_text (part : String) (parts : List String) :
    startsModule (⟨part :: parts⟩ : QualifiedName).text = startsModule part := by
  have chars : (⟨part :: parts⟩ : QualifiedName).text.toList =
      intercalate ['.'] (part.toList :: parts.map String.toList) := toList_text _
  unfold startsModule
  rw [chars]
  cases part.toList with
  | nil =>
    cases parts with
    | nil => rfl
    | cons part' parts => rfl
  | cons c cs =>
    cases parts with
    | nil => simp
    | cons part' parts => simp [intercalate_cons_cons]

end QualifiedName

theorem QualifiedName.exists_inside (name path : QualifiedName) :
    ∃ k ≤ name.length, name.inside path = ⟨name.parts.drop k⟩ := by
  unfold inside dropBase?
  split
  · rename_i h
    have fits : path.length ≤ name.length := (List.isPrefixOf_iff_prefix.mp h).length_le
    exact ⟨path.length, fits, rfl⟩
  · exact ⟨0, Nat.zero_le _, rfl⟩

theorem importable_inside (path : QualifiedName)
    (h : ∀ k ≤ name.length, (⟨name.parts.drop k⟩ : QualifiedName).Importable) :
    (name.inside path).Importable := by
  obtain ⟨k, hk, inside⟩ := name.exists_inside path
  rw [inside]
  exact h k hk

theorem importable_wellKnownName (path : QualifiedName)
    (h : ∀ k ≤ (QualifiedName.ofText text).length,
      ((⟨(QualifiedName.ofText text).parts.drop k⟩ : QualifiedName).qualifyTyping
        false).plainCollection.Importable) : (wellKnownName text path).Importable := by
  obtain ⟨k, hk, inside⟩ := (QualifiedName.ofText text).exists_inside path
  rw [wellKnownName, inside]
  exact h k hk

/-- Where hints are read: in the module with a path. What the module and a class have is known
there. -/
structure Site where
  path : QualifiedName
  module? : Option Object
  class? : Option Object

namespace Site

def knows (w : World) (site : Site) (name : QualifiedName) : Bool :=
  name.parts = [] || name.parts = [""] || w.has Builtins.asModule name.head ||
    site.class?.any (w.has · name.head) || site.module?.any (w.has · name.head)

/-- The name is known at the site, or the modules that it may come from can be looked for. -/
def Reaches (w : World) (site : Site) (name : QualifiedName) : Prop :=
  site.knows w name = true ∨ name.Importable

end Site

def Hint.Reachable (w : World) (site : Site) : Hint → Prop
  | .type name _ => site.Reaches w name
  | .expression _ => True

mutual

/-- The names in a text can be reached at a site. Those of the types between bars are not asked
for. -/
def HintSyntax.Reachable (w : World) (site : Site) : HintSyntax → Prop
  | .malformed _ => True
  | .single t => t.Reachable w site ∧
    ∀ h ∈ (HintSyntax.single t).hint? site.path, h.Reachable w site
  | .union ts => TypeSyntax.AllReachable w site ts

def TypeSyntax.Reachable (w : World) (site : Site) : TypeSyntax → Prop
  | .named _ none => True
  | .named _ (some hs) => HintSyntax.AllReachable w site hs
  | .value _ => True

def TypeSyntax.AllReachable (w : World) (site : Site) : List TypeSyntax → Prop
  | [] => True
  | t :: ts => t.Reachable w site ∧ TypeSyntax.AllReachable w site ts

def HintSyntax.AllReachable (w : World) (site : Site) : List HintSyntax → Prop
  | [] => True
  | h :: hs => h.Reachable w site ∧ HintSyntax.AllReachable w site hs

end

namespace Inspection

variable {s : Setting} {site : Site} {p q : Progress} {α β : Type}

/-- Something is being inspected at a site. -/
structure IsAt (site : Site) (p : Progress) : Prop where
  layers : p.layers ≠ []
  modulePath : p.modulePath = site.path
  module? : p.module? = site.module?
  class? : p.class? = site.class?

structure IsIn (site : Site) (p : Progress) : Prop where
  modulePath : p.modulePath = site.path
  module? : p.module? = site.module?
  class? : p.class? = site.class?

theorem IsAt.isIn (hp : IsAt site p) : IsIn site p := ⟨hp.modulePath, hp.module?, hp.class?⟩

theorem IsIn.isAt (hp : IsIn site p) (h : p.layers ≠ []) : IsAt site p :=
  ⟨h, hp.modulePath, hp.module?, hp.class?⟩

theorem IsIn.pushed (hp : IsIn site p) (path : QualifiedName) : IsAt site (pushed path p) :=
  ⟨cons_ne_nil _ _, hp.modulePath, hp.module?, hp.class?⟩

def siteOf (p : Progress) : Site := ⟨p.modulePath, p.module?, p.class?⟩

theorem isIn_siteOf (p : Progress) : IsIn (siteOf p) p := ⟨rfl, rfl, rfl⟩

theorem IsIn.knows_viewOf (hp : IsIn site p) (name : QualifiedName) :
    knows (viewOf s p) name = site.knows s.world name := by
  rw [Site.knows, ← hp.class?, ← hp.module?]
  rfl

theorem Plain.isIn {x : Inspection α} (hx : Plain x) {a : α} (h : x.outcome s p = (.ok a, q))
    (hp : IsIn site p) : IsIn site q := by
  have grows := hx.grows h
  exact ⟨grows.modulePath.trans hp.modulePath, grows.module?.trans hp.module?,
    grows.class?.trans hp.class?⟩

theorem Plain.layers {x : Inspection α} (hx : Plain x) {a : α} (h : x.outcome s p = (.ok a, q)) :
    p.layers ≠ [] → q.layers ≠ [] := layers_ne_nil ((Composed.plain hx).keeps (keeps_paths s) h)

theorem Plain.isAt {x : Inspection α} (hx : Plain x) {a : α} (h : x.outcome s p = (.ok a, q))
    (hp : IsAt site p) : IsAt site q :=
  (hx.isIn h hp.isIn).isAt (hx.layers h hp.layers)

/-- A step returns only values with a property at a site, and while something is being inspected
there it can return all of them. -/
structure GivesAt (s : Setting) (site : Site) (x : Inspection α) (P : α → Prop) : Prop where
  returns : ∀ p, IsAt site p → ∀ a, P a → ∃ q, x.outcome s p = (.ok a, q)
  only : ∀ p, IsIn site p → ∀ a q, x.outcome s p = (.ok a, q) →
    P a ∧ IsIn site q ∧ (p.layers ≠ [] → q.layers ≠ [])

namespace GivesAt

variable {x : Inspection α} {P P' : α → Prop} {f : α → Inspection β} {Q : α → β → Prop}

theorem stays (hx : GivesAt s site x P) {a : α} (h : x.outcome s p = (.ok a, q)) (hp : IsAt site p) :
    IsAt site q :=
  have ⟨_, hq, layers⟩ := hx.only p hp.isIn a q h
  hq.isAt (layers hp.layers)

protected theorem ok (hx : GivesAt s (siteOf p) x P) {a : α} (h : x.outcome s p = (.ok a, q)) : P a :=
  (hx.only p (isIn_siteOf p) a q h).1

theorem of_outcome {a : α} (h : ∀ p, IsIn site p → x.outcome s p = (.ok a, p)) :
    GivesAt s site x (a = ·) where
  returns p hp := by
    rintro b rfl
    exact ⟨p, h p hp.isIn⟩
  only p hp b q hq := by
    rw [h p hp] at hq
    cases hq
    exact ⟨rfl, hp, id⟩

protected theorem pure (a : α) : GivesAt s site (pure a) (a = ·) := .of_outcome fun _ _ => rfl

protected theorem bind (hx : GivesAt s site x P) (hf : ∀ a, P a → GivesAt s site (f a) (Q a)) :
    GivesAt s site (x >>= f) fun b => ∃ a, P a ∧ Q a b where
  returns p hp := by
    rintro b ⟨a, ha, hb⟩
    obtain ⟨r, hr⟩ := hx.returns p hp a ha
    obtain ⟨q, hq⟩ := (hf a ha).returns r (hx.stays hr hp) b hb
    exact ⟨q, bind_ok_iff.mpr ⟨a, r, hr, hq⟩⟩
  only p hp b q h := by
    obtain ⟨a, r, hr, hq⟩ := bind_ok_iff.mp h
    obtain ⟨ha, hp', deep⟩ := hx.only p hp a r hr
    obtain ⟨hb, hq', deep'⟩ := (hf a ha).only r hp' b q hq
    exact ⟨⟨a, ha, hb⟩, hq', deep' ∘ deep⟩

protected theorem iff (hx : GivesAt s site x P) (h : ∀ a, P a ↔ P' a) : GivesAt s site x P' where
  returns p hp a ha := hx.returns p hp a ((h a).mpr ha)
  only p hp a q hq := (hx.only p hp a q hq).imp_left (h a).mp

theorem followedBy {a : α} {Q : β → Prop} (hx : GivesAt s site x (a = ·))
    (hf : GivesAt s site (f a) Q) : GivesAt s site (x >>= f) Q := by
  have next : ∀ a', a = a' → GivesAt s site (f a') Q := by
    rintro _ rfl
    exact hf
  exact (hx.bind next).iff fun b => by simp

theorem of_same {y : Inspection α} (h : GivesAt s site y P)
    (same : ∀ p, x.outcome s p = y.outcome s p) : GivesAt s site x P where
  returns p := by
    rw [same]
    exact h.returns p
  only p := by
    rw [same]
    exact h.only p

theorem of_plain (hx : Plain x)
    (returns : ∀ p, IsAt site p → ∀ a, P a → ∃ q, x.outcome s p = (.ok a, q))
    (only : ∀ p, IsIn site p → ∀ a q, x.outcome s p = (.ok a, q) → P a) : GivesAt s site x P :=
  ⟨returns, fun p hp a q h => ⟨only p hp a q h, hx.isIn h hp, hx.layers h⟩⟩

end GivesAt

/-! Names. -/

theorem outcome_findModule?_of_starts (h : startsModule name.text = true)
    (s : Setting) (p : Progress) :
    (findModule? name).outcome s p = (.ok (s.world.module? name.text), p) := by
  obtain ⟨nonempty, absolute⟩ := startsModule_iff.mp h
  rw [outcome_findModule?, if_neg nonempty, absolute, if_neg Bool.false_ne_true]

theorem startsModule_of_findModule? {o : Option Object}
    (h : (findModule? name).outcome s p = (.ok o, q)) : startsModule name.text = true := by
  rw [outcome_findModule?] at h
  by_cases empty : name.text = ""
  · rw [if_pos empty] at h
    cases h
  · rw [if_neg empty] at h
    by_cases relative : hasFront "." name.text = true
    · rw [if_pos relative] at h
      cases h
    · exact startsModule_iff.mpr ⟨empty, Bool.eq_false_iff.mpr relative⟩

theorem outcome_parentModuleAmong? (name : QualifiedName) {bases : List QualifiedName}
    (h : ∀ base ∈ bases, base.length ≠ 0 → startsModule base.text = true) (s : Setting)
    (p : Progress) : ∃ origin?, (parentModuleAmong? name bases).outcome s p = (.ok origin?, p) := by
  induction bases with
  | nil => exact ⟨none, rfl⟩
  | cons base bases ih =>
    by_cases empty : base.length = 0
    · exact ⟨none, by rw [parentModuleAmong?, outcome_ite, if_pos empty]; rfl⟩
    · have found := outcome_findModule?_of_starts (h base mem_cons_self empty) s p
      have isModule : (isModule base).outcome s p =
          (.ok (s.world.module? base.text).isSome, p) := by
        rw [Inspection.isModule, outcome_bind, found]
        rfl
      rw [parentModuleAmong?, outcome_ite, if_neg empty, outcome_bind, isModule]
      cases hm : s.world.module? base.text with
      | none =>
        obtain ⟨origin?, rest⟩ := ih fun base hb => h base (.tail _ hb)
        exact ⟨origin?, rest⟩
      | some m =>
        have accessible : (isAccessible name base).outcome s p =
            (.ok (s.world.reaches m (name.parts.drop base.length)), p) := by
          rw [isAccessible, outcome_bind, found, hm]
          rfl
        simp only [isSome_some, if_true]
        rw [outcome_bind, accessible]
        exact ⟨_, rfl⟩

theorem startsModule_of_mem_parents {base : QualifiedName} (h : name.Importable)
    (hb : base ∈ name.parents) (hl : base.length ≠ 0) : startsModule base.text = true := by
  have head := head_of_mem_parents hb hl
  obtain ⟨part, parts, shape⟩ : ∃ part parts, base = ⟨part :: parts⟩ := by
    obtain ⟨_ | ⟨part, parts⟩⟩ := base
    · exact absurd rfl hl
    · exact ⟨part, parts, rfl⟩
  have starts : startsModule name.head = true := by
    rcases h with short | starts
    · simp only [QualifiedName.parents, mem_reverse, List.mem_map, mem_range] at hb
      obtain ⟨k, hk, rfl⟩ := hb
      have zero : k = 0 := Nat.lt_one_iff.mp (Nat.lt_of_lt_of_le hk short)
      exact absurd (by rw [zero]; rfl) hl
    · exact starts
  rw [shape] at head ⊢
  have same : part = name.head := head
  rw [QualifiedName.startsModule_text, same]
  exact starts

theorem importable_of_parentModule? {origin? : Option QualifiedName}
    (h : (parentModule? name).outcome s p = (.ok origin?, q)) : name.Importable := by
  obtain ⟨parts⟩ := name
  match parts with
  | [] => exact .inl (Nat.zero_le _)
  | [_] => exact .inl (Nat.le_refl _)
  | part :: part' :: parts =>
    have first : ∃ bases, (⟨part :: part' :: parts⟩ : QualifiedName).parents =
        ⟨part :: (part' :: parts).take parts.length⟩ :: bases := by
      rw [QualifiedName.parents, QualifiedName.length, length_cons, length_cons,
        range_succ, map_append, reverse_append]
      exact ⟨_, rfl⟩
    obtain ⟨bases, first⟩ := first
    rw [parentModule?, first, parentModuleAmong?, outcome_ite,
      if_neg (by rw [QualifiedName.length]; exact Nat.succ_ne_zero _)] at h
    obtain ⟨_, r, hm, -⟩ := bind_ok_iff.mp h
    obtain ⟨_, r, hm, -⟩ := bind_ok_iff.mp hm
    have starts := startsModule_of_findModule? hm
    rw [QualifiedName.startsModule_text] at starts
    exact .inr starts

theorem givesAt_requireImport (name : QualifiedName) :
    GivesAt s site (requireImport name) fun _ => site.Reaches s.world name := by
  have look {p : Progress} (hp : IsIn site p) :
      (isKnown name).outcome s p = (.ok (site.knows s.world name), p) := by
    rw [outcome_isKnown, hp.knows_viewOf]
  refine .of_plain (Plain.requireImport name) ?_ ?_
  · intro p hp _ reaches
    rw [requireImport, outcome_bind, look hp.isIn]
    -- Only names that are not known are looked for, and that fails without a start of a module.
    cases known : site.knows s.world name with
    | true => exact ⟨p, rfl⟩
    | false =>
      have importable : name.Importable :=
        reaches.resolve_left (by rw [known]; exact Bool.false_ne_true)
      obtain ⟨origin?, found⟩ := outcome_parentModuleAmong? name
        (fun base hb hl => startsModule_of_mem_parents importable hb hl) s p
      simp only [Bool.false_eq_true, if_false]
      rw [outcome_bind, parentModule?, found]
      cases origin? with
      | some origin => exact ⟨_, rfl⟩
      | none =>
        obtain ⟨q, reported, -⟩ := report_placed (.name name) s hp.layers
        exact ⟨q, reported⟩
  · intro p hp _ q h
    rw [requireImport, bind_of_ok (look hp), outcome_ite] at h
    split at h
    · exact .inl ‹_›
    · obtain ⟨origin?, r', found, -⟩ := bind_ok_iff.mp h
      exact .inr (importable_of_parentModule? found)

theorem givesAt_report (problem : Problem) : GivesAt s site (report problem) fun _ => True := by
  refine .of_plain (.report problem) ?_ fun _ _ _ _ _ => trivial
  intro p hp _ _
  obtain ⟨q, reported, -⟩ := report_placed problem s hp.layers
  exact ⟨q, reported⟩

theorem givesAt_wellKnown (h : (wellKnownName text site.path).Importable) :
    GivesAt s site (wellKnown text) (wellKnownName text site.path = ·) := by
  refine .of_plain (plain_wellKnown text) ?_ ?_
  · rintro p hp _ rfl
    obtain ⟨q, required⟩ := (givesAt_requireImport _).returns p hp () (.inr h)
    refine ⟨q, ?_⟩
    rw [wellKnown, outcome_bind, outcome_withoutModule, hp.modulePath]
    exact bind_ok_iff.mpr ⟨(), q, required, rfl⟩
  · intro p hp name q hr
    rw [(wellKnown_ok hr).1, hp.modulePath]

theorem givesAt_addDimension (name : String) : GivesAt s site (addDimension name) (() = ·) :=
  .of_plain (.addDimension name) (fun _ _ _ _ => ⟨_, rfl⟩) fun _ _ _ _ _ => rfl

theorem givesAt_options {f : Options → Inspection α} {P : α → Prop}
    (h : GivesAt s site (f s.options) P) : GivesAt s site (options >>= f) P :=
  h.of_same fun p => bind_of_ok (outcome_options s p)

/-! Hints. -/

theorem givesAt_completeElementType (hint : Hint) :
    GivesAt s site (completeElementType hint) (hint.withElementType site.path = ·) := by
  cases hint with
  | expression e => exact .pure _
  | type name parameters =>
    rw [completeElementType, Hint.withElementType]
    split
    · have any : (wellKnownName "Any" site.path).Importable :=
        importable_wellKnownName _ (by decide)
      refine ((((givesAt_wellKnown any).bind fun _ _ => .pure _).bind fun _ _ => .pure _)).iff ?_
      simp
    · exact .pure _

theorem givesAt_integersOfTexts (texts : List (List Char)) :
    GivesAt s site (integersOfTexts texts) (integers? texts = some ·) := by
  induction texts with
  | nil => exact (GivesAt.pure _).iff fun dims => by simp [integers?]
  | cons text texts ih =>
    rw [integersOfTexts, integers?]
    cases readInteger? text with
    | some n => exact (ih.bind fun _ _ => .pure _).iff fun dims => by simp
    | none =>
      exact ⟨nofun, nofun⟩

theorem givesAt_sizeType (size : ArraySize) :
    GivesAt s site (typeName ⟨some ArraySize.moduleName, size.className⟩)
      ((⟨["pybind11_stubgen", "typing_ext", size.className]⟩ : QualifiedName).inside site.path = ·) := by
  have known : ∀ c ∈ ["FixedSize", "DynamicSize"],
      splitText '.' ArraySize.moduleName ++ splitText '.' c = ["pybind11_stubgen", "typing_ext", c] := by
    decide
  have class_mem : size.className ∈ ["FixedSize", "DynamicSize"] := by
    cases size with
    | fixed dims => exact .head _
    | dynamic dims => exact .tail _ (.head _)
  have full : fullTypeName ⟨some ArraySize.moduleName, size.className⟩ =
      pure ⟨["pybind11_stubgen", "typing_ext", size.className]⟩ := by
    have parts := known _ class_mem
    have own : ArraySize.moduleName ≠ "builtins" := by decide
    simp [fullTypeName, parts, own]
  generalize hn : (⟨["pybind11_stubgen", "typing_ext", size.className]⟩ : QualifiedName) = name at full
  have importable : (name.inside site.path).Importable := by
    have ends : ∀ c ∈ ["FixedSize", "DynamicSize"], ∀ k ≤ 3,
        (⟨["pybind11_stubgen", "typing_ext", c].drop k⟩ : QualifiedName).Importable := by decide
    subst hn
    exact importable_inside _ (ends _ class_mem)
  rw [typeName, full, pure_bind]
  have inside : GivesAt s site (withoutModule name) (name.inside site.path = ·) :=
    .of_outcome fun p hp => by rw [outcome_withoutModule, hp.modulePath]
  have imported : site.Reaches s.world (name.inside site.path) := .inr importable
  exact (inside.bind fun _ _ => (givesAt_requireImport _).bind fun _ _ => .pure _).iff fun name => by
    simp [imported]

theorem givesAt_completeFixedSize (hint : Hint) :
    GivesAt s site (completeFixedSize hint) (hint.withFixedSize? = some ·) := by
  unfold completeFixedSize
  split
  · rename_i v
    rw [Hint.withFixedSize?]
    cases fixedSizeText? v.text with
    | none => exact (GivesAt.pure _).iff fun h => by simp
    | some inside =>
      exact ((givesAt_sizeType (.fixed [])).bind fun _ _ => (givesAt_integersOfTexts _).bind fun _ _ => .pure _).iff
        fun h => by simp
  · rename_i other
    have same : hint.withFixedSize? = some hint := by
      unfold Hint.withFixedSize?
      split
      · rename_i v
        exact absurd rfl (other v)
      · rfl
    exact (GivesAt.pure _).iff fun h => by simp [same]

theorem refine_ok (ha : s.options.arrays = .asWritten) {hint hint' : Hint}
    (h : (refine hint).outcome s p = (.ok hint', q)) :
    hint.refined? p.modulePath = some hint' ∧ ∃ r₁ r₂,
      (completeElementType (hint.inside p.modulePath).withQualifiedFlags).outcome s p =
        (.ok ((hint.inside p.modulePath).withQualifiedFlags.withElementType p.modulePath), r₁) ∧
      Grows r₁ r₂ ∧ (requireHintImport hint').outcome s r₂ = (.ok (), q) := by
  obtain ⟨h₀, r₀, hr₀, h⟩ := bind_ok_iff.mp h
  rw [outcome_hintWithoutModule] at hr₀
  cases hr₀
  obtain ⟨h₁, r₁, hr₁, h⟩ := bind_ok_iff.mp h
  obtain ⟨h₂, r₂, hr₂, h⟩ := bind_ok_iff.mp h
  obtain ⟨h₃, r₃, hr₃, h⟩ := bind_ok_iff.mp h
  obtain ⟨_, r₄, hr₄, h⟩ := bind_ok_iff.mp h
  cases h
  rw [outcome_styledArray ha] at hr₂
  cases hr₂
  obtain rfl := (givesAt_completeElementType _).ok hr₁
  have sized := (givesAt_completeFixedSize _).ok hr₃
  exact ⟨congrArg (Option.map _) sized, r₁, r₃, hr₁, (plain_completeFixedSize _).grows hr₃, hr₄⟩

/-- What a hint becomes follows from what the style of the options makes of it. -/
theorem givesAt_refine_of_styled {raw complete styled : Hint}
    (start : (raw.inside site.path).withQualifiedFlags.withElementType site.path = complete)
    (h : GivesAt s site (styledArray complete) (styled = ·)) :
    GivesAt s site (refine raw) fun hint =>
      styled.withFixedSize?.map (·.withoutSparseParameters.qualifyTyping.plainCollection) = some hint ∧
        hint.Reachable s.world site := by
  have inside : GivesAt s site (hintWithoutModule raw) (raw.inside site.path = ·) :=
    .of_outcome fun p hp => by rw [outcome_hintWithoutModule, hp.modulePath]
  have imported (hint : Hint) :
      GivesAt s site (requireHintImport hint) fun _ => hint.Reachable s.world site := by
    cases hint with
    | type name parameters => exact givesAt_requireImport name
    | expression e => exact (GivesAt.pure ()).iff fun _ => by simp [Hint.Reachable]
  have completed (h₀ : Hint) (same : raw.inside site.path = h₀) :
      GivesAt s site (completeElementType h₀.withQualifiedFlags) (complete = ·) :=
    same ▸ start ▸ givesAt_completeElementType _
  have styles (h₁ : Hint) (same : complete = h₁) : GivesAt s site (styledArray h₁) (styled = ·) :=
    same ▸ h
  refine (inside.bind fun h₀ same => (completed h₀ same).bind fun h₁ same =>
    (styles h₁ same).bind fun h₂ _ => (givesAt_completeFixedSize h₂).bind fun h₃ _ =>
      (imported h₃.withoutSparseParameters.qualifyTyping.plainCollection).bind fun _ _ =>
        .pure _).iff fun hint => ?_
  simp only [exists_eq_left', map_eq_some_iff]
  constructor
  · rintro ⟨h₃, sized, -, importable, rfl⟩
    exact ⟨⟨h₃, sized, rfl⟩, importable⟩
  · rintro ⟨⟨h₃, sized, rfl⟩, importable⟩
    exact ⟨h₃, sized, (), importable, rfl⟩

theorem givesAt_refine_styled {raw entering styled sized hint : Hint}
    (enters : (raw.inside site.path).withQualifiedFlags.withElementType site.path = entering)
    (style : GivesAt s site (styledArray entering) (styled = ·))
    (size : styled.withFixedSize? = some sized)
    (leaves : sized.withoutSparseParameters.qualifyTyping.plainCollection = hint)
    (reaches : hint.Reachable s.world site) : GivesAt s site (refine raw) (hint = ·) := by
  refine (givesAt_refine_of_styled enters style).iff fun hint' => ?_
  rw [size, map_some, leaves, Option.some.injEq]
  exact and_iff_left_of_imp fun same => same ▸ reaches

theorem givesAt_styledArray_expression (e : Expression) :
    GivesAt s site (styledArray (.expression e)) (.expression e = ·) := by
  refine givesAt_options ?_
  cases s.options.arrays with
  | asWritten => exact .pure _
  | annotated => exact .pure _
  | typeVariables => exact .pure _
  | bare => exact .pure _

theorem givesAt_refine_expression {e : Expression}
    (sized : (Hint.expression e).withFixedSize? = some (.expression e)) :
    GivesAt s site (refine (.expression e)) (.expression e = ·) :=
  givesAt_refine_styled rfl (givesAt_styledArray_expression e) sized rfl trivial

theorem givesAt_refine (ha : s.options.arrays = .asWritten) (raw : Hint) :
    GivesAt s site (refine raw) fun h =>
      raw.refined? site.path = some h ∧ h.Reachable s.world site :=
  givesAt_refine_of_styled rfl (.of_outcome fun p _ => outcome_styledArray ha _ p)

theorem givesAt_plainExpression (text : List Char) :
    GivesAt s site (plainExpression text) (Expression.ofText text = ·) := by
  rw [plainExpression, Expression.ofText]
  split
  · exact .pure _
  · exact ((givesAt_report _).bind fun _ _ => .pure _).iff fun e => by simp

theorem givesAt_expressionOfText (ho : s.options = {}) (text : List Char) :
    GivesAt s site (expressionOfText text) (Expression.ofText text = ·) :=
  (givesAt_plainExpression text).of_same (outcome_expressionOfText ho text)

mutual

/-- At a site the text of a hint is read if and only if its structure is that of a hint, with names
that can be reached. -/
theorem givesAt_hintOfSyntax (ho : s.options = {}) (h : HintSyntax) :
    GivesAt s site (hintOfSyntax h) fun hint =>
      h.hint? site.path = some hint ∧ h.Reachable s.world site := by
  have ha : s.options.arrays = .asWritten := by rw [ho]
  match h with
  | .malformed text =>
    rw [hintOfSyntax]
    refine ((givesAt_report _).bind fun _ _ => givesAt_refine ha _).iff fun hint => ?_
    simp only [HintSyntax.hint?, HintSyntax.Reachable, Hint.refined?_expression,
      Hint.withFixedSize?, some.injEq]
    constructor
    · rintro ⟨-, -, rfl, -⟩
      exact ⟨rfl, trivial⟩
    · rintro ⟨rfl, -⟩
      exact ⟨(), trivial, rfl, trivial⟩
  | .single t =>
    rw [hintOfSyntax]
    refine ((givesAt_typeOfSyntax ho t).bind fun raw _ => givesAt_refine ha raw).iff fun hint => ?_
    simp only [HintSyntax.hint?, HintSyntax.Reachable, bind_eq_some_iff, mem_def]
    constructor
    · rintro ⟨raw, ⟨read, parts⟩, refined, importable⟩
      refine ⟨⟨raw, read, refined⟩, parts, ?_⟩
      rintro hint' ⟨raw', read', refined'⟩
      rw [read] at read'
      cases read'
      rw [refined] at refined'
      cases refined'
      exact importable
    · rintro ⟨⟨raw, read, refined⟩, parts, importable⟩
      exact ⟨raw, ⟨read, parts⟩, refined, importable hint ⟨raw, read, refined⟩⟩
  | .union ts =>
    rw [hintOfSyntax]
    have known : (wellKnownName "typing.Union" site.path).Importable :=
      importable_wellKnownName _ (by decide)
    have importable : site.Reaches s.world (unionName site.path) := by
      rw [← wellKnownName_union]
      exact .inr known
    refine ((givesAt_wellKnown known).bind fun _ _ => (givesAt_typesOfSyntax ho ts).bind fun _ _ =>
      givesAt_refine ha _).iff fun hint => ?_
    rw [wellKnownName_union]
    simp only [exists_eq_left', Hint.refined?_union, HintSyntax.hint?, HintSyntax.Reachable,
      map_eq_some_iff, some.injEq]
    constructor
    · rintro ⟨hs, ⟨read, parts⟩, rfl, -⟩
      exact ⟨⟨hs, read, rfl⟩, parts⟩
    · rintro ⟨⟨hs, read, rfl⟩, parts⟩
      exact ⟨hs, ⟨read, parts⟩, rfl, importable⟩

theorem givesAt_typeOfSyntax (ho : s.options = {}) (t : TypeSyntax) :
    GivesAt s site (typeOfSyntax t) fun hint =>
      t.hint? site.path = some hint ∧ t.Reachable s.world site := by
  match t with
  | .named name none =>
    rw [typeOfSyntax]
    exact (GivesAt.pure _).iff fun hint => by simp [TypeSyntax.hint?, TypeSyntax.Reachable]
  | .named name (some hs) =>
    rw [typeOfSyntax]
    refine ((givesAt_hintsOfSyntax ho hs).bind fun _ _ => .pure _).iff fun hint => ?_
    simp only [TypeSyntax.hint?, TypeSyntax.Reachable, map_eq_some_iff]
    constructor
    · rintro ⟨ps, ⟨read, parts⟩, same⟩
      exact ⟨⟨ps, read, same⟩, parts⟩
    · rintro ⟨⟨ps, read, same⟩, parts⟩
      exact ⟨ps, ⟨read, parts⟩, same⟩
  | .value text =>
    rw [typeOfSyntax]
    exact ((givesAt_expressionOfText ho text).bind fun _ _ => .pure _).iff fun hint => by
      simp [TypeSyntax.hint?, TypeSyntax.Reachable]

theorem givesAt_typesOfSyntax (ho : s.options = {}) (ts : List TypeSyntax) :
    GivesAt s site (typesOfSyntax ts) fun hs =>
      TypeSyntax.hints? site.path ts = some hs ∧ TypeSyntax.AllReachable s.world site ts := by
  match ts with
  | [] =>
    rw [typesOfSyntax]
    exact (GivesAt.pure _).iff fun hs => by simp [TypeSyntax.hints?, TypeSyntax.AllReachable]
  | t :: ts =>
    rw [typesOfSyntax]
    refine ((givesAt_typeOfSyntax ho t).bind fun _ _ => (givesAt_typesOfSyntax ho ts).bind fun _ _ =>
      .pure _).iff fun hs => ?_
    simp only [TypeSyntax.hints?, TypeSyntax.AllReachable, bind_eq_some_iff, map_eq_some_iff]
    constructor
    · rintro ⟨h, ⟨first, part⟩, hs, ⟨rest, parts⟩, same⟩
      exact ⟨⟨h, first, hs, rest, same⟩, part, parts⟩
    · rintro ⟨⟨h, first, hs, rest, same⟩, part, parts⟩
      exact ⟨h, ⟨first, part⟩, hs, ⟨rest, parts⟩, same⟩

theorem givesAt_hintsOfSyntax (ho : s.options = {}) (hs : List HintSyntax) :
    GivesAt s site (hintsOfSyntax hs) fun hints =>
      HintSyntax.hints? site.path hs = some hints ∧ HintSyntax.AllReachable s.world site hs := by
  match hs with
  | [] =>
    rw [hintsOfSyntax]
    exact (GivesAt.pure _).iff fun hs => by simp [HintSyntax.hints?, HintSyntax.AllReachable]
  | h :: hs =>
    rw [hintsOfSyntax]
    refine ((givesAt_hintOfSyntax ho h).bind fun _ _ => (givesAt_hintsOfSyntax ho hs).bind fun _ _ =>
      .pure _).iff fun hints => ?_
    simp only [HintSyntax.hints?, HintSyntax.AllReachable, bind_eq_some_iff, map_eq_some_iff]
    constructor
    · rintro ⟨h, ⟨first, part⟩, hs, ⟨rest, parts⟩, same⟩
      exact ⟨⟨h, first, hs, rest, same⟩, part, parts⟩
    · rintro ⟨⟨h, first, hs, rest, same⟩, part, parts⟩
      exact ⟨h, ⟨first, part⟩, hs, ⟨rest, parts⟩, same⟩

end

end Inspection

end TypeStubs
