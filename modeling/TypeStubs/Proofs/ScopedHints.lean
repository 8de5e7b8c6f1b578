import TypeStubs.Proofs.PlacedHints

/-! The names in hints are brought into scope, apart from those of types with bars between them. -/

namespace TypeStubs

open List Option

variable {union : Option QualifiedName} {f : String} {h hint : Hint} {p q : Progress}

mutual

/-- Types with bars between them stand somewhere in the text of a hint. -/
def HintSyntax.hasBars : HintSyntax → Bool
  | .malformed _ => false
  | .single t => t.hasBars
  | .union _ => true

def TypeSyntax.hasBars : TypeSyntax → Bool
  | .named _ none => false
  | .named _ (some hs) => HintSyntax.anyHasBars hs
  | .value _ => false

def HintSyntax.anyHasBars : List HintSyntax → Bool
  | [] => false
  | h :: hs => h.hasBars || HintSyntax.anyHasBars hs

end

namespace Hint

variable {name : QualifiedName}

/-- The first part of the name of a type. -/
def ownFirst : Hint → List String
  | .type name _ => [name.head]
  | .expression _ => []

mutual

/-- The first parts of the names in the parameters of a hint. If a name for unions is given, the
direct parameters of a type with this name do not count, and only those inside them do. -/
def innerFirsts (union : Option QualifiedName) : Hint → List String
  | .type _ none => []
  | .type name (some ps) => firstsAmong union (some name = union) ps
  | .expression _ => []

/-- The first parts of the names in hints, of the hints themselves only if they count. -/
def firstsAmong (union : Option QualifiedName) (leftOut : Bool) : List Hint → List String
  | [] => []
  | h :: hs =>
    (if leftOut then [] else h.ownFirst) ++ h.innerFirsts union ++ firstsAmong union leftOut hs

end

/-- The first parts of all names in a hint but those of the direct parameters of a union. -/
def firsts (union : Option QualifiedName) (h : Hint) : List String := h.ownFirst ++ h.innerFirsts union

/-- The first parts of the names in the parameters of a hint, the direct ones included. -/
def parameterFirsts (union : Option QualifiedName) : Hint → List String
  | .type _ (some ps) => firstsAmong union false ps
  | _ => []

theorem mem_firstsAmong {leftOut : Bool} {hs : List Hint} :
    f ∈ firstsAmong union leftOut hs ↔
      ∃ h ∈ hs, (leftOut = false ∧ f ∈ h.ownFirst) ∨ f ∈ h.innerFirsts union := by
  induction hs with
  | nil => simp [firstsAmong]
  | cons h hs ih =>
    rw [firstsAmong, mem_append, ih]
    cases leftOut with
    | true => simp
    | false => simp

theorem innerFirsts_subset (union : Option QualifiedName) (h : Hint) :
    h.innerFirsts union ⊆ h.parameterFirsts union := by
  intro f hf
  match h with
  | .type name none => simp [innerFirsts] at hf
  | .type name (some ps) =>
    rw [innerFirsts, mem_firstsAmong] at hf
    obtain ⟨p, hp, hf⟩ := hf
    exact mem_firstsAmong.mpr ⟨p, hp, hf.imp_left fun h => ⟨rfl, h.2⟩⟩
  | .expression e => simp [innerFirsts] at hf

/-- The parameters of a hint have only full names in them. -/
def Settled : Hint → Prop
  | .type _ (some ps) => qualifyTypingAll ps = ps
  | _ => True

theorem parameterFirsts_qualifyTyping (hs : h.Settled) (union : Option QualifiedName) :
    h.qualifyTyping.parameterFirsts union = h.parameterFirsts union := by
  match h with
  | .expression e => rfl
  | .type name none => rfl
  | .type name (some ps) => simp only [qualifyTyping, parameterFirsts, show qualifyTypingAll ps = ps from hs]

/-- Another name in front of parameters brings no new names into them, unless it was that of a
union. -/
theorem innerFirsts_rename (name' : QualifiedName)
    (h : some name = union → some name' = union) (ps : Option (List Hint)) :
    (type name' ps).innerFirsts union ⊆ (type name ps).innerFirsts union := by
  intro f hf
  match ps with
  | none => simp [innerFirsts] at hf
  | some ps =>
    rw [innerFirsts, mem_firstsAmong] at hf ⊢
    obtain ⟨p, hp, hf⟩ := hf
    refine ⟨p, hp, hf.imp_left fun hf => ⟨?_, hf.2⟩⟩
    simp only [decide_eq_false_iff_not] at hf ⊢
    exact fun he => hf.1 (h he)

theorem qualifiedFlag_firsts (hu : ∀ u ∈ union, u ∉ arrayFlags)
    (hf : f ∈ h.qualifiedFlag.firsts union) : f = "numpy" ∨ f ∈ h.firsts union := by
  match h with
  | .expression e => exact .inr hf
  | .type name ps =>
    simp only [qualifiedFlag] at hf
    split at hf
    · rename_i flag
      rcases mem_append.mp hf with hf | hf
      · exact .inl (mem_singleton.mp hf)
      · refine .inr (mem_append_right _ (innerFirsts_rename _ (fun he => ?_) ps hf))
        exact absurd (contains_iff_mem.mp flag) (hu name he.symm)
    · exact .inr hf

theorem mem_parameterFirsts {ps : List Hint} :
    f ∈ (type name (some ps)).parameterFirsts union ↔ ∃ p ∈ ps, f ∈ p.firsts union := by
  simp [parameterFirsts, mem_firstsAmong, firsts]

theorem withQualifiedFlags_parameterFirsts (hu : ∀ u ∈ union, u ∉ arrayFlags)
    (hf : f ∈ h.withQualifiedFlags.parameterFirsts union) :
    f ∈ h.parameterFirsts union ∨ f = "numpy" ∧ ∃ ps, h = .type denseArray ps := by
  match h with
  | .expression e => exact .inl hf
  | .type name none => exact .inl hf
  | .type name (some ps) =>
    simp only [withQualifiedFlags] at hf
    split at hf
    · rename_i dense
      obtain ⟨p, hp, hf⟩ := mem_parameterFirsts.mp hf
      obtain ⟨p', hp', rfl⟩ := mem_map.mp hp
      rcases qualifiedFlag_firsts hu hf with rfl | hf
      · exact .inr ⟨rfl, _, by rw [dense]⟩
      · exact .inl (mem_parameterFirsts.mpr ⟨p', hp', hf⟩)
    · exact .inl hf

theorem Settled.withQualifiedFlags (hs : h.Settled) : h.withQualifiedFlags.Settled := by
  match h with
  | .expression e => exact hs
  | .type name none => exact hs
  | .type name (some ps) =>
    simp only [Hint.withQualifiedFlags]
    split
    · simp only [Settled, qualifyTypingAll_eq_iff] at hs ⊢
      intro h hh
      obtain ⟨p, hp, rfl⟩ := mem_map.mp hh
      exact qualifiedFlag_qualifyTyping (hs p hp)
    · exact hs

theorem Settled.withElementType (hs : h.Settled) (path : QualifiedName) :
    (h.withElementType path).Settled := by
  match h with
  | .expression e => exact hs
  | .type name ps =>
    simp only [Hint.withElementType]
    split
    · have full := QualifiedName.qualifyTyping_plainCollection
        (QualifiedName.qualifyTyping_idem ((QualifiedName.ofText "Any").inside path) false)
      simp only [Settled, qualifyTypingAll, qualifyTyping, wellKnownName, full]
    · exact hs

theorem mem_firsts_of_settled {h' : Hint} (hs : h.Settled)
    (hw : h.withFixedSize?.map (·.withoutSparseParameters.qualifyTyping.plainCollection) = some h')
    (hf : f ∈ h'.firsts union) : f ∈ h'.ownFirst ∨ f ∈ h.parameterFirsts union := by
  obtain ⟨g, hg, rfl⟩ := map_eq_some_iff.mp hw
  refine (mem_append.mp hf).imp_right fun hf => ?_
  have hf := innerFirsts_subset union _ hf
  match h with
  | .expression e =>
    have isExpression : ∃ e', g = .expression e' := by
      unfold withFixedSize? at hg
      split at hg
      · split at hg
        · exact ⟨_, (some.inj hg).symm⟩
        · obtain ⟨_, _, rfl⟩ := map_eq_some_iff.mp hg
          exact ⟨_, rfl⟩
      · exact ⟨_, (some.inj hg).symm⟩
    obtain ⟨e', rfl⟩ := isExpression
    simp [withoutSparseParameters, qualifyTyping, plainCollection, parameterFirsts] at hf
  | .type name none =>
    cases hg
    simp [withoutSparseParameters, qualifyTyping, plainCollection, parameterFirsts] at hf
  | .type name (some ps) =>
    cases hg
    simp only [withoutSparseParameters] at hf
    split at hf
    · simp [qualifyTyping, plainCollection, parameterFirsts] at hf
    · rw [qualifyTyping, plainCollection, hs] at hf
      exact hf

theorem ownFirst_refined_denseArray {path : QualifiedName} {h' : Hint} {ps : Option (List Hint)}
    (hd : h.inside path = .type denseArray ps) (hr : h.refined? path = some h') :
    h'.ownFirst = ["numpy"] := by
  rw [refined?, hd] at hr
  cases ps with
  | none =>
    cases hr
    rfl
  | some ps =>
    cases hr
    rfl

end Hint

namespace Inspection

variable {s : Setting} {path : QualifiedName} {given : List String}

theorem unionName_not_flag (path : QualifiedName) : unionName path ∉ arrayFlags := by
  unfold unionName
  split
  · decide
  · decide

theorem scopes_wellKnown (text : String) :
    Scopes s path given (wellKnown text) fun name => [name.head] := by
  refine .bind (.of_plain (plain_withoutModule _)) fun name => ?_
  exact .bind (scopes_requireImport _) fun _ => .pure fun f hf => by simp_all

theorem scopes_wellKnownType (union : Option QualifiedName) (text : String) :
    Scopes s path given (wellKnownType text) (Hint.firsts union) := by
  refine .bind (scopes_wellKnown text) fun name => .pure fun f hf => ?_
  simp only [Hint.firsts, Hint.ownFirst, Hint.innerFirsts, append_nil] at hf
  exact mem_append_right _ hf

theorem scopes_completeElementType (hg : hint.parameterFirsts union ⊆ given) :
    Scopes s path given (completeElementType hint) (Hint.parameterFirsts union) := by
  cases hint with
  | expression e => exact .pure hg
  | type name parameters =>
    refine .ite ?_ (.pure hg)
    refine (scopes_wellKnownType union "Any").bind fun any => .pure fun f hf => ?_
    obtain ⟨p, hp, hf⟩ := Hint.mem_parameterFirsts.mp hf
    cases mem_singleton.mp hp
    exact mem_append_right _ hf

theorem scopes_requireHintImport (hint : Hint) :
    Scopes s path given (requireHintImport hint) fun _ => hint.ownFirst := by
  cases hint with
  | type name parameters => exact scopes_requireImport name
  | expression e => exact .pure fun _ hf => nomatch hf

section

variable (ha : s.options.arrays = .asWritten)

include ha

/-- Making a hint fit for a module brings its name into scope, and keeps what was in scope. -/
theorem scopes_refine (hs : hint.Settled)
    (hu : ∀ u ∈ union, u ∉ arrayFlags) (hg : hint.parameterFirsts union ⊆ given) :
    Scopes s path given (refine hint) (Hint.firsts union) := by
  intro p q hint' hp h
  refine ⟨(plain_refine hint).grows h, fun f hf => ?_⟩
  obtain ⟨hr, r₁, r₂, hr₁, grows, himp⟩ := refine_ok ha h
  rw [hp] at hr hr₁
  have settled : (hint.inside path).Settled := by
    match hint with
    | .type name none => exact hs
    | .type name (some ps) => exact hs
    | .expression e => exact hs
  have grows₁ : Grows p r₁ := (plain_completeElementType _).grows hr₁
  have grows₂ := grows₁.trans grows
  have own (hf : f ∈ hint'.ownFirst) : Scoped s.world p q f :=
    ((scopes_requireHintImport hint').known (grows₂.modulePath.trans hp) himp hf).mono grows₂ (.refl q)
  rcases Hint.mem_firsts_of_settled (settled.withQualifiedFlags.withElementType path) hr hf with hf | hf
  · exact .inr (own hf)
  · rcases (scopes_completeElementType (fun _ h => h) hp hr₁).2 f hf with hf | known
    · rcases Hint.withQualifiedFlags_parameterFirsts hu hf with hf | ⟨rfl, ps, hd⟩
      · refine .inl (hg ?_)
        match hint with
        | .type name none => exact hf
        | .type name (some ps) => exact hf
        | .expression e => exact hf
      · exact .inr (own (Hint.ownFirst_refined_denseArray hd hr ▸ mem_singleton.mpr rfl))
    · refine .inr (known.mono (.refl p) (grows.trans ?_))
      cases hint' with
      | type name parameters => exact (Plain.requireImport name).grows himp
      | expression e =>
        cases himp
        exact .refl _

/-- A union of types that are written with bars between them is in scope up to the names of these
types. -/
theorem scopes_refine_union {ms : List Hint} (hs : ∀ m ∈ ms, m.Settled)
    (hg : ∀ m ∈ ms, m.parameterFirsts (some (unionName path)) ⊆ given) :
    Scopes s path given (refine (.type (unionName path) (some ms)))
      (Hint.firsts (some (unionName path))) := by
  intro p q hint' hp h
  refine ⟨(plain_refine _).grows h, fun f hf => ?_⟩
  obtain ⟨hr, r₁, r₂, hr₁, grows, himp⟩ := refine_ok ha h
  have grows₂ := ((plain_completeElementType _).grows hr₁).trans grows
  rw [hp, Hint.refined?_union] at hr
  cases hr
  rcases mem_append.mp hf with hf | hf
  · exact .inr (((scopes_requireHintImport _).known (grows₂.modulePath.trans hp) himp hf).mono grows₂
      (.refl q))
  · rw [Hint.innerFirsts, Hint.mem_firstsAmong] at hf
    obtain ⟨m', hm', hf⟩ := hf
    obtain ⟨m, hm, rfl⟩ := Hint.mem_qualifyTypingAll hm'
    have inner : f ∈ m.qualifyTyping.innerFirsts (some (unionName path)) := by simpa using hf
    have parameter := Hint.innerFirsts_subset _ _ inner
    rw [Hint.parameterFirsts_qualifyTyping (hs m hm)] at parameter
    exact .inl (hg m hm parameter)

theorem hintOfSyntax_settled {h : HintSyntax}
    (ho : (hintOfSyntax h).outcome s p = (.ok hint, q)) : hint.qualifyTyping = hint := by
  cases h with
  | malformed | single =>
    rw [hintOfSyntax] at ho
    obtain ⟨_, _, _, ho⟩ := bind_ok_iff.mp ho
    exact Hint.qualifyTyping_refined (refine_ok ha ho).1
  | union ts =>
    rw [hintOfSyntax] at ho
    obtain ⟨_, _, _, ho⟩ := bind_ok_iff.mp ho
    obtain ⟨_, _, _, ho⟩ := bind_ok_iff.mp ho
    exact Hint.qualifyTyping_refined (refine_ok ha ho).1

theorem hintsOfSyntax_settled {hs : List HintSyntax}
    {hints : List Hint} (ho : (hintsOfSyntax hs).outcome s p = (.ok hints, q)) :
    Hint.qualifyTypingAll hints = hints := by
  induction hs generalizing hints p q with
  | nil =>
    rw [hintsOfSyntax] at ho
    cases ho
    rfl
  | cons h hs ih =>
    rw [hintsOfSyntax] at ho
    obtain ⟨hint, _, h₁, ho⟩ := bind_ok_iff.mp ho
    obtain ⟨rest, _, h₂, ho⟩ := bind_ok_iff.mp ho
    cases ho
    rw [Hint.qualifyTypingAll, hintOfSyntax_settled ha h₁, ih h₂]

theorem typeOfSyntax_settled {t : TypeSyntax}
    (ho : (typeOfSyntax t).outcome s p = (.ok hint, q)) : hint.Settled := by
  cases t with
  | named name parameters =>
    cases parameters with
    | none =>
      rw [typeOfSyntax] at ho
      cases ho
      trivial
    | some hs =>
      rw [typeOfSyntax] at ho
      obtain ⟨hints, _, h₁, ho⟩ := bind_ok_iff.mp ho
      cases ho
      exact hintsOfSyntax_settled ha h₁
  | value text =>
    rw [typeOfSyntax] at ho
    obtain ⟨e, _, _, ho⟩ := bind_ok_iff.mp ho
    cases ho
    trivial

theorem typesOfSyntax_settled {ts : List TypeSyntax}
    {hints : List Hint} (ho : (typesOfSyntax ts).outcome s p = (.ok hints, q)) :
    ∀ h ∈ hints, h.Settled := by
  induction ts generalizing hints p q with
  | nil =>
    rw [typesOfSyntax] at ho
    cases ho
    exact fun h hh => nomatch hh
  | cons t ts ih =>
    rw [typesOfSyntax] at ho
    obtain ⟨hint, _, h₁, ho⟩ := bind_ok_iff.mp ho
    obtain ⟨rest, _, h₂, ho⟩ := bind_ok_iff.mp ho
    cases ho
    intro h hh
    cases hh with
    | head => exact typeOfSyntax_settled ha h₁
    | tail _ hh => exact ih h₂ h hh

end

/-- The names that count are all but those of types with bars between them: these are left out, or
there are none. -/
def LeavesOut (path : QualifiedName) (union : Option QualifiedName) (hasBars : Bool) : Prop :=
  union = some (unionName path) ∨ union = none ∧ hasBars = false

theorem LeavesOut.not_flag {hasBars : Bool} (h : LeavesOut path union hasBars) :
    ∀ u ∈ union, u ∉ arrayFlags := by
  intro u hu
  rcases h with rfl | ⟨rfl, -⟩
  · cases hu
    exact unionName_not_flag path
  · cases hu

theorem LeavesOut.both {a b : Bool} (h : LeavesOut path union (a || b)) :
    LeavesOut path union a ∧ LeavesOut path union b := by
  rcases h with h | ⟨h, hb⟩
  · exact ⟨.inl h, .inl h⟩
  · rw [Bool.or_eq_false_iff] at hb
    exact ⟨.inr ⟨h, hb.1⟩, .inr ⟨h, hb.2⟩⟩

mutual

theorem scopes_hintOfSyntax (ha : s.options.arrays = .asWritten) (given : List String)
    {union : Option QualifiedName} (h : HintSyntax) (hu : LeavesOut path union h.hasBars) :
    Scopes s path given (hintOfSyntax h) (Hint.firsts union) := by
  match h with
  | .malformed text =>
    rw [hintOfSyntax]
    refine .bind (.of_plain (.report _)) fun _ => ?_
    refine scopes_refine ha ?_ hu.not_flag fun _ hf => nomatch hf
    trivial
  | .single t =>
    rw [hintOfSyntax]
    refine (scopes_typeOfSyntax ha given t hu).bind_of_returns fun hint ho => ?_
    obtain ⟨p, q, hp, ho⟩ := ho
    exact scopes_refine ha (typeOfSyntax_settled ha ho) hu.not_flag (subset_append_right _ _)
  | .union ts =>
    rw [hintOfSyntax]
    have left : union = some (unionName path) := hu.resolve_right fun h => nomatch h.2
    subst left
    refine (scopes_wellKnown _).bind_of_returns fun name hn => ?_
    obtain ⟨p, q, hp, hn⟩ := hn
    have isUnion : name = unionName path := by
      rw [(wellKnown_ok hn).1, hp, wellKnownName_union]
    subst isUnion
    refine (scopes_typesOfSyntax ha _ ts).bind_of_returns fun hints ho => ?_
    obtain ⟨p, q, hp, ho⟩ := ho
    refine scopes_refine_union ha (typesOfSyntax_settled ha ho) fun m hm f hf => ?_
    exact mem_append_right _ (mem_flatMap.mpr ⟨m, hm, hf⟩)

theorem scopes_typeOfSyntax (ha : s.options.arrays = .asWritten) (given : List String)
    {union : Option QualifiedName} (t : TypeSyntax) (hu : LeavesOut path union t.hasBars) :
    Scopes s path given (typeOfSyntax t) (Hint.parameterFirsts union) := by
  match t with
  | .named name none =>
    rw [typeOfSyntax]
    exact .pure fun _ hf => nomatch hf
  | .named name (some hs) =>
    rw [typeOfSyntax]
    refine (scopes_hintsOfSyntax ha given hs hu).bind fun hints => .pure fun f hf => ?_
    exact mem_append_right _ (mem_flatMap.mpr (Hint.mem_parameterFirsts.mp hf))
  | .value text =>
    rw [typeOfSyntax]
    exact .bind (.of_plain (plain_expressionOfText text)) fun _ => .pure fun _ hf => nomatch hf

theorem scopes_typesOfSyntax (ha : s.options.arrays = .asWritten) (given : List String)
    (ts : List TypeSyntax) : Scopes s path given (typesOfSyntax ts) fun hints =>
      hints.flatMap (Hint.parameterFirsts (some (unionName path))) := by
  match ts with
  | [] =>
    rw [typesOfSyntax]
    exact .pure fun _ hf => nomatch hf
  | t :: ts =>
    rw [typesOfSyntax]
    refine (scopes_typeOfSyntax ha given t (.inl rfl)).bind fun hint => ?_
    refine (scopes_typesOfSyntax ha _ ts).bind fun hints => .pure fun f hf => ?_
    rw [append_assoc]
    exact mem_append_right _ hf

theorem scopes_hintsOfSyntax (ha : s.options.arrays = .asWritten) (given : List String)
    {union : Option QualifiedName} (hs : List HintSyntax)
    (hu : LeavesOut path union (HintSyntax.anyHasBars hs)) :
    Scopes s path given (hintsOfSyntax hs) fun hints => hints.flatMap (Hint.firsts union) := by
  match hs with
  | [] =>
    rw [hintsOfSyntax]
    exact .pure fun _ hf => nomatch hf
  | h :: hs =>
    rw [hintsOfSyntax]
    refine (scopes_hintOfSyntax ha given h hu.both.1).bind fun hint => ?_
    refine (scopes_hintsOfSyntax ha _ hs hu.both.2).bind fun hints => .pure fun f hf => ?_
    rw [append_assoc]
    exact mem_append_right _ hf

end

end Inspection

end TypeStubs
