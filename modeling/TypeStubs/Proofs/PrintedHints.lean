import TypeStubs.Proofs.WrittenNames
import TypeStubs.Source

/-! The texts of hints in stubs, and the structure that is read from them. -/

namespace TypeStubs

open List Hint

variable {name : QualifiedName} {ps : List Hint} {more : List QualifiedName}

def Hint.printed (h : Hint) : List Char := (({} : Printer).hint h).toList

/-- The names that are written with bars after the parameters of a type. Nothing, if the parameters
are written in brackets. -/
def barred? (name : QualifiedName) (ps : List Hint) : Option (List QualifiedName) :=
  if name.text = "typing.Optional" ∧ ps.length = 1 then some [⟨["None"]⟩]
  else if name.text = "typing.Union" then some []
  else none

theorem Printer.hints_eq_map (p : Printer) (hs : List Hint) : p.hints hs = hs.map p.hint := by
  induction hs with
  | nil => rfl
  | cons h hs ih => rw [Printer.hints, ih, map_cons]

namespace Hint

theorem printed_name (name : QualifiedName) : (Hint.type name none).printed = name.text.toList := by
  rw [printed, Printer.hint]

theorem printed_invalid (text : String) :
    (Hint.expression (.invalid text)).printed = "...".toList := by
  rw [printed, Printer.hint]
  rfl

theorem printed_value {v : Value} (h : '\n' ∉ v.text.toList) :
    (Hint.expression (.value v)).printed = v.text.toList := by
  rw [printed, Printer.hint, Printer.expression, Printer.value, splitAtChar_of_not_mem h]
  exact String.toList_ofList

theorem toList_joinWith_hints (separator : String) (ps : List Hint) :
    (joinWith separator (({} : Printer).hints ps)).toList =
      intercalate separator.toList (ps.map printed) := by
  rw [joinWith, String.toList_intercalate, Printer.hints_eq_map, map_map]
  rfl

theorem printed_barred (h : barred? name ps = some more) : (Hint.type name (some ps)).printed =
      intercalate " | ".toList (ps.map printed ++ more.map (·.text.toList)) := by
  unfold barred? at h
  rw [printed, Printer.hint]
  split at h
  · rename_i optional
    cases h
    obtain ⟨p, rfl⟩ := length_eq_one_iff.mp optional.2
    have length : (({} : Printer).hints [p]).length = 1 := by rw [Printer.hints_eq_map]; rfl
    simp only [optional.1, length, beq_self_eq_true, Bool.and_self, if_true, String.toList_append]
    have none : (⟨["None"]⟩ : QualifiedName).text.toList = "None".toList := by decide
    rw [toList_joinWith_hints, map_singleton, map_singleton, none,
      intercalate_singleton, singleton_append, intercalate_cons_cons,
      intercalate_singleton, append_assoc]
    rfl
  · rename_i noOptional
    split at h
    · rename_i union
      cases h
      have other : ("typing.Union" == "typing.Optional") = false := by decide
      simp only [union, other, Bool.false_and, Bool.false_eq_true, if_false, beq_self_eq_true,
        if_true]
      rw [toList_joinWith_hints, map_nil, append_nil]
    · cases h

theorem printed_parameters (h : barred? name ps = none) (hne : ps ≠ []) :
    (Hint.type name (some ps)).printed =
      name.text.toList ++ '[' :: (intercalate ", ".toList (ps.map printed) ++ [']']) := by
  unfold barred? at h
  rw [printed, Printer.hint]
  split at h
  · cases h
  · rename_i noOptional
    split at h
    · cases h
    · rename_i noUnion
      have optional : (name.text == "typing.Optional" && (({} : Printer).hints ps).length == 1) =
          false := by
        rw [Printer.hints_eq_map, length_map]
        simpa using noOptional
      have union : (name.text == "typing.Union") = false := by simpa using noUnion
      have some : (({} : Printer).hints ps).isEmpty = false := by
        rw [Printer.hints_eq_map]
        simpa using hne
      simp only [optional, union, some, Bool.false_eq_true, if_false, String.toList_append]
      rw [toList_joinWith_hints]
      simp

end Hint

/-- One type, or several with bars between them. -/
def HintSyntax.ofTypes : List TypeSyntax → HintSyntax
  | [t] => .single t
  | ts => .union ts

mutual

/-- The types with bars between them that the text of a hint is. -/
def Hint.types : Hint → List TypeSyntax
  | .expression (.value v) => [.value v.text.toList]
  | .expression (.invalid _) => [.value "...".toList]
  | .type name none => [.named name none]
  | .type name (some ps) =>
    match barred? name ps with
    | some more => allTypes ps ++ more.map (.named · none)
    | none => [.named name (some (Hint.structures ps))]

def Hint.allTypes : List Hint → List TypeSyntax
  | [] => []
  | h :: hs => h.types ++ allTypes hs

def Hint.structures : List Hint → List HintSyntax
  | [] => []
  | h :: hs => .ofTypes h.types :: Hint.structures hs

end

def Hint.structure (h : Hint) : HintSyntax := .ofTypes h.types

theorem Hint.types_barred (h : barred? name ps = some more) :
    (Hint.type name (some ps)).types = allTypes ps ++ more.map (.named · none) := by
  rw [types, h]

theorem Hint.types_parameters (h : barred? name ps = none) :
    (Hint.type name (some ps)).types = [.named name (some (Hint.structures ps))] := by
  rw [types, h]

/-- The text of a value stands for itself: it is one line of source text and no type, and neither a
bar nor another of some characters stands outside in it. -/
structure Value.IsLegible (avoided : List Char) (v : Value) : Prop where
  read : TypeSyntax.ofText v.text.toList = .value v.text.toList
  line : '\n' ∉ v.text.toList
  source : Source.isModule v.text.toList = true
  closed : Closed ('|' :: avoided) v.text.toList

mutual

/-- The names and values of a hint stand for themselves. Outside in its text none of `avoided`
stands, and inside of brackets none of `inner`. -/
def Hint.Legible (inner avoided : List Char) : Hint → Prop
  | .expression (.value v) => v.IsLegible avoided
  | .expression (.invalid _) => True
  | .type name none => name.IsWritten
  | .type name (some ps) => name.IsWritten ∧ ps ≠ [] ∧
      AllLegible inner (if (barred? name ps).isSome then avoided else inner) ps

def Hint.AllLegible (inner avoided : List Char) : List Hint → Prop
  | [] => True
  | h :: hs => h.Legible inner avoided ∧ AllLegible inner avoided hs

end

theorem intercalate_append {α : Type} (separator : List α) {xs ys : List (List α)} (hx : xs ≠ [])
    (hy : ys ≠ []) : intercalate separator (xs ++ ys) =
      intercalate separator xs ++ separator ++ intercalate separator ys := by
  induction xs with
  | nil => exact absurd rfl hx
  | cons x xs ih =>
    cases xs with
    | nil =>
      rw [intercalate_singleton, singleton_append, intercalate_cons_of_ne_nil hy]
    | cons x' xs =>
      have rest := ih (cons_ne_nil _ _)
      rw [cons_append, cons_append, intercalate_cons_cons, ← cons_append, rest,
        intercalate_cons_cons]
      simp only [append_assoc]

theorem HintSyntax.ofText_intercalate {ts : List (List Char)} (hne : ts ≠ [])
    (h : ∀ t ∈ ts, Closed ['|'] t) : HintSyntax.ofText (intercalate " | ".toList ts) =
      .ofTypes (ts.map TypeSyntax.ofText) := by
  match ts, hne with
  | [t], _ =>
    rw [intercalate_singleton]
    exact HintSyntax.ofText_of_closed (h t mem_cons_self)
  | t :: t' :: ts, _ => exact HintSyntax.ofText_bars (by simp) h

/-- The text is one of types with bars between them, and none of some characters stands outside. -/
def Reads (avoided text : List Char) (types : List TypeSyntax) : Prop :=
  ∃ ts, ts ≠ [] ∧ text = intercalate " | ".toList ts ∧
    (∀ t ∈ ts, Closed ('|' :: avoided) t) ∧ ts.map TypeSyntax.ofText = types

namespace Reads

variable {avoided text text' : List Char} {types types' : List TypeSyntax}

protected theorem single (h : Closed ('|' :: avoided) text) {t : TypeSyntax}
    (ht : TypeSyntax.ofText text = t) : Reads avoided text [t] :=
  ⟨[text], cons_ne_nil _ _, intercalate_singleton.symm, by simpa using h,
    by rw [map_singleton, ht]⟩

section

variable (h : Reads avoided text types)
include h

protected theorem append (h' : Reads avoided text' types') :
    Reads avoided (text ++ " | ".toList ++ text') (types ++ types') := by
  obtain ⟨ts, hne, rfl, closed, rfl⟩ := h
  obtain ⟨ts', hne', rfl, closed', rfl⟩ := h'
  refine ⟨ts ++ ts', by simp [hne], (intercalate_append _ hne hne').symm, ?_, map_append⟩
  exact forall_mem_append.mpr ⟨closed, closed'⟩

theorem ofText : HintSyntax.ofText text = .ofTypes types := by
  obtain ⟨ts, hne, rfl, closed, rfl⟩ := h
  exact HintSyntax.ofText_intercalate hne fun t ht => (closed t ht).mono (by simp)

theorem closed (hav : avoided ⊆ [',', ']']) :
    Closed avoided text := by
  obtain ⟨ts, hne, rfl, closed, rfl⟩ := h
  refine closed_intercalate (.of_plain fun c hc => ?_) fun t ht =>
    (closed t ht).mono (subset_cons_self _ _)
  have plain : ∀ c ∈ " | ".toList, isQuote c = false ∧ closer? c = none ∧ c ∉ [',', ']'] :=
    forall_of_all (by decide)
  obtain ⟨hq, hc, out⟩ := plain c hc
  exact ⟨hq, hc, fun hin => out (hav hin)⟩

end

end Reads

theorem barred?_cases (h : barred? name ps = some more) : more = [] ∨ more = [⟨["None"]⟩] := by
  unfold barred? at h
  split at h
  · cases h
    exact .inr rfl
  · split at h
    · cases h
      exact .inl rfl
    · cases h

theorem avoided_marks {avoided : List Char} (h : avoided ⊆ [',', ']']) :
    '|' :: avoided ⊆ [',', ']', '|'] := by
  intro c hc
  rcases mem_cons.mp hc with rfl | hc
  · simp
  · have := h hc
    simp only [mem_cons, not_mem_nil, or_false] at this ⊢
    exact this.elim .inl (.inr ∘ .inl)

theorem ofText_ellipsis : TypeSyntax.ofText "...".toList = .value "...".toList := by
  have cut : cutName "...".toList = ([], "...".toList) := by decide +kernel
  have whole : trim "...".toList = "...".toList := by decide
  rw [TypeSyntax.ofText_eq, whole, cut, whole]
  rfl

theorem closed_ellipsis {avoided : List Char} (hav : avoided ⊆ [',', ']', '|']) :
    Closed avoided "...".toList := by
  have plain : ∀ c ∈ "...".toList, isQuote c = false ∧ closer? c = none ∧ c ∉ [',', ']', '|'] :=
    forall_of_all (by decide)
  refine .of_plain fun c hc => ?_
  obtain ⟨hq, ho, out⟩ := plain c hc
  exact ⟨hq, ho, fun hin => out (hav hin)⟩

mutual

theorem Hint.Legible.reads {h : Hint} {avoided : List Char} (hav : avoided ⊆ [',', ']'])
    (hl : h.Legible [',', ']'] avoided) : Reads avoided h.printed h.types := by
  match h with
  | .expression (.value v) =>
    rw [Hint.Legible] at hl
    rw [printed_value hl.line, types]
    exact .single hl.closed hl.read
  | .expression (.invalid text) =>
    rw [printed_invalid, types]
    exact .single (closed_ellipsis (avoided_marks hav)) ofText_ellipsis
  | .type name none =>
    rw [Hint.Legible] at hl
    rw [printed_name, types]
    exact .single (hl.1.closed (avoided_marks hav)) hl.ofText
  | .type name (some ps) =>
    rw [Hint.Legible] at hl
    obtain ⟨written, hne, parameters⟩ := hl
    cases bars : barred? name ps with
    | some more =>
      rw [bars, Option.isSome_some, if_pos rfl] at parameters
      have read := AllLegible.reads hne hav parameters
      rw [printed_barred bars, types_barred bars]
      rcases barred?_cases bars with rfl | rfl
      · rw [map_nil, append_nil, map_nil, append_nil]
        exact read
      · have word : QualifiedName.IsWritten ⟨["None"]⟩ := by decide +kernel
        have last :
            Reads avoided (⟨["None"]⟩ : QualifiedName).text.toList [.named ⟨["None"]⟩ none] :=
          .single (word.1.closed (avoided_marks hav)) word.ofText
        rw [intercalate_append _ (by simpa using hne) (by simp), map_singleton,
          intercalate_singleton, map_singleton]
        exact read.append last
    | none =>
      rw [bars, Option.isSome_none, if_neg Bool.false_ne_true] at parameters
      obtain ⟨closed, structures⟩ := AllLegible.ofText parameters
      have inside : Closed [']'] (intercalate ", ".toList (ps.map printed)) :=
        closed_intercalate (.of_plain (forall_of_all (by decide))) fun t ht =>
          (closed t ht).mono (by simp)
      have whole : Closed ('|' :: avoided) (name.text.toList ++
          '[' :: (intercalate ", ".toList (ps.map printed) ++ [']'])) :=
        (written.1.closed (avoided_marks hav)).append (inside.bracketed _)
      rw [printed_parameters bars hne, types_parameters bars]
      refine .single whole ?_
      obtain ⟨p, ps, rfl⟩ := exists_cons_of_ne_nil hne
      rw [map_cons] at closed structures ⊢
      rw [written.ofText_bracketed fun t ht => (closed t ht).mono (by simp), structures]

theorem Hint.AllLegible.reads {hs : List Hint} {avoided : List Char} (hne : hs ≠ [])
    (hav : avoided ⊆ [',', ']']) (hl : AllLegible [',', ']'] avoided hs) :
    Reads avoided (intercalate " | ".toList (hs.map printed)) (allTypes hs) := by
  match hs with
  | [] => exact absurd rfl hne
  | [h] =>
    rw [AllLegible] at hl
    rw [map_singleton, intercalate_singleton, allTypes, allTypes, append_nil]
    exact hl.1.reads hav
  | h :: h' :: hs =>
    rw [AllLegible] at hl
    rw [map_cons, intercalate_cons_of_ne_nil (by simp), allTypes]
    exact (hl.1.reads hav).append (AllLegible.reads (cons_ne_nil _ _) hav hl.2)

theorem Hint.AllLegible.ofText {hs : List Hint} (hl : AllLegible [',', ']'] [',', ']'] hs) :
    (∀ t ∈ hs.map printed, Closed [',', ']'] t) ∧
      (hs.map printed).map HintSyntax.ofText = Hint.structures hs := by
  match hs with
  | [] => exact ⟨nofun, by rw [Hint.structures]; rfl⟩
  | h :: hs =>
    rw [AllLegible] at hl
    have read := hl.1.reads (Subset.refl _)
    obtain ⟨closed, structures⟩ := AllLegible.ofText hl.2
    refine ⟨forall_mem_cons.mpr ⟨read.closed (Subset.refl _), closed⟩, ?_⟩
    rw [map_cons, map_cons, structures, read.ofText, Hint.structures]

end

theorem Hint.Legible.ofText {h : Hint} (hl : h.Legible [',', ']'] []) :
    HintSyntax.ofText h.printed = h.structure := (hl.reads (nil_subset _)).ofText

end TypeStubs
