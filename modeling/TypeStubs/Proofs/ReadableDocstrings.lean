import TypeStubs.Proofs.Contributions
import TypeStubs.Proofs.PlacedHints
import TypeStubs.Proofs.SignatureLines

/-! Which parameters in docstrings can be read. The texts of their hints decide about it. -/

namespace TypeStubs

variable {name : String} {text : List Char} {c : Captures}

/-- The text can be read as a hint at a site: the dimensions of its fixed sizes are integers, and its
names can be reached. -/
def Site.Reads (w : World) (site : Site) (text : List Char) : Prop :=
  ((HintSyntax.ofText text).hint? site.path).isSome ∧ (HintSyntax.ofText text).Reachable w site

/-- The texts of the hints of parameters, up to the first name that is no name. -/
def ArgumentText.hints : List ArgumentText → List (List Char)
  | [] => []
  | a :: as =>
    if trim a.name = ['/'] ∨ trim a.name = ['*'] then hints as
    else if (starredName? a.name).isSome then a.hint.toList ++ hints as
    else []

def parameterHints (text : List Char) : List (List Char) :=
  ((ArgumentText.split? text).map ArgumentText.hints).getD []

/-- The first line of the docstring of a function. -/
def signatureLine (name : String) : Regex :=
  ⟨signaturePattern name, .signature name.toList, [("returns", 3), ("args", 1)]⟩

def overloadLine (name : String) : Regex :=
  ⟨overloadPattern name, .overload name.toList, [("returns", 4), ("args", 3), ("overload_number", 2)]⟩

namespace Inspection

variable {s : Setting} {site : Site} {p q : Progress} {α β : Type}

/-- At a site a step returns under a condition and only then, always with the same result. -/
def ReturnsWhen (s : Setting) (site : Site) (x : Inspection α) (C : Prop) : Prop :=
  ∃ P, GivesAt s site x P ∧ ((∃ a, P a) ↔ C)

namespace ReturnsWhen

variable {x : Inspection α} {f : α → Inspection β} {C C' : Prop}

protected theorem pure (a : α) : ReturnsWhen s site (pure a) True :=
  ⟨_, .pure a, by simp⟩

protected theorem iff (hx : ReturnsWhen s site x C) (h : C ↔ C') : ReturnsWhen s site x C' := by
  obtain ⟨P, gives, returns⟩ := hx
  exact ⟨P, gives, returns.trans h⟩

protected theorem bind (hx : ReturnsWhen s site x C) (hf : ∀ a, ReturnsWhen s site (f a) C') :
    ReturnsWhen s site (x >>= f) (C ∧ C') := by
  obtain ⟨P, gives, returns⟩ := hx
  obtain ⟨Q, all⟩ := Classical.axiomOfChoice hf
  refine ⟨_, gives.bind fun a _ => (all a).1, ?_⟩
  rw [← returns]
  constructor
  · rintro ⟨b, a, ha, hb⟩
    exact ⟨⟨a, ha⟩, (all a).2.mp ⟨b, hb⟩⟩
  · rintro ⟨⟨a, ha⟩, condition⟩
    obtain ⟨b, hb⟩ := (all a).2.mpr condition
    exact ⟨b, a, ha, hb⟩

theorem map (hx : ReturnsWhen s site x C) (g : α → β) :
    ReturnsWhen s site (x >>= fun a => pure (g a)) C :=
  (hx.bind fun a => .pure (g a)).iff (and_iff_left trivial)

end ReturnsWhen

section

variable (ho : s.options = {})

include ho

theorem returnsWhen_hintOfText (text : List Char) :
    ReturnsWhen s site (hintOfText text) (site.Reads s.world text) := by
  refine ⟨_, givesAt_hintOfSyntax ho _, ?_⟩
  rw [Site.Reads, Option.isSome_iff_exists]
  exact exists_and_right

theorem returnsWhen_expressionOfText? (text? : Option (List Char)) :
    ReturnsWhen s site (expressionOfText? text?) True := by
  cases text? with
  | none => exact .pure none
  | some text =>
    have read : ReturnsWhen s site (expressionOfText text) True :=
      ⟨_, givesAt_expressionOfText ho text, by simp⟩
    exact read.map some

theorem returnsWhen_hintOfText? (text? : Option (List Char)) :
    ReturnsWhen s site (hintOfText? text?) (∀ text ∈ text?.toList, site.Reads s.world text) := by
  cases text? with
  | none => exact (ReturnsWhen.pure none).iff (by simp)
  | some text => exact ((returnsWhen_hintOfText ho text).map some).iff (by simp)

theorem returnsWhen_argumentsOfTexts (read : List Argument)
    (keywordOnly : Bool) (texts : List ArgumentText) :
    ReturnsWhen s site (argumentsOfTexts read keywordOnly texts)
      (∀ text ∈ ArgumentText.hints texts, site.Reads s.world text) := by
  induction texts generalizing read keywordOnly with
  | nil => exact (ReturnsWhen.pure read).iff (by simp [ArgumentText.hints])
  | cons a as ih =>
    rw [argumentsOfTexts, ArgumentText.hints]
    by_cases slash : trim a.name = ['/']
    · rw [if_pos slash, if_pos (.inl slash)]
      exact ih _ _
    · rw [if_neg slash]
      by_cases star : trim a.name = ['*']
      · rw [if_pos star, if_pos (.inr star)]
        exact ih _ _
      · rw [if_neg star, if_neg (not_or.mpr ⟨slash, star⟩)]
        cases ArgumentText.starredName? a.name with
        | none => exact (ReturnsWhen.pure _).iff (by simp)
        | some starred =>
          refine ((returnsWhen_hintOfText? ho a.hint).bind fun hint =>
            (returnsWhen_expressionOfText? ho a.default).bind fun default => ih _ _).iff ?_
          simp only [true_and, Option.isSome_some, if_true, List.forall_mem_append]

theorem returnsWhen_argumentsOfText (text : List Char) : ReturnsWhen s site (argumentsOfText text)
      (∀ hint ∈ parameterHints text, site.Reads s.world hint) := by
  rw [argumentsOfText, parameterHints]
  cases ArgumentText.split? text with
  | none => exact (ReturnsWhen.pure _).iff (by simp)
  | some texts => exact returnsWhen_argumentsOfTexts ho [] false texts

omit ho in
theorem groupText_eq (h : c.named? name = some text) : groupText c name = pure text := by
  rw [groupText, h]

omit ho in
theorem patternOf_signature (h : isIdentifier name = true) :
    patternOf (signaturePattern name) = pure (signatureLine name) := by
  rw [patternOf, PatternReader.read_signature (PatternReader.isSign_of_identifier h)]
  rfl

omit ho in
theorem patternOf_overload (h : isIdentifier name = true) :
    patternOf (overloadPattern name) = pure (overloadLine name) := by
  rw [patternOf, PatternReader.read_overload (PatternReader.isSign_of_identifier h)]
  rfl

end

def nativeRoutine (name doc : String) : Object :=
  .routine .native { name? := some name, qualified? := some name, doc? := some doc } none

def insideModule : Progress := { layers := [{ path := ⟨["m"]⟩ }], modulePath := ⟨["m"]⟩ }

/-- Sizes that are no integers, and names that start with a dot, are fatal. -/
theorem docstrings_abort :
    ((functionsOf ⟨["m", "f"]⟩ (nativeRoutine "f" "f(x: FixedSize(n)) -> None")).outcome
      ⟨{}, .ofModules []⟩ insideModule).1 = .error (.badInteger "n") ∧
    ((functionsOf ⟨["m", "f"]⟩ (nativeRoutine "f" "f(x: .a) -> None")).outcome
      ⟨{}, .ofModules []⟩ insideModule).1 = .error .emptyModuleName := by
  rw [World.ofModules_eq]
  constructor
  · decide +kernel
  · decide +kernel

end Inspection

end TypeStubs
