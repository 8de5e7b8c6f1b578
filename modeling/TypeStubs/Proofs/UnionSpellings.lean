import TypeStubs.Proofs.PlacedHints

/-! The two spellings of a union: types with bars between them, and types in brackets. They mean the
same exactly if no rule that is for single types only applies to one of the types. -/

namespace TypeStubs

open Option

variable {ts : List (List Char)}

/-- Types with bars between them. -/
def barSpelling (ts : List (List Char)) : List Char := List.intercalate " | ".toList ts

/-- Types between the brackets of a union. -/
def unionSpelling (ts : List (List Char)) : List Char :=
  "Union".toList ++ '[' :: (List.intercalate ", ".toList ts ++ [']'])

theorem ofText_barSpelling (hlen : 2 ≤ ts.length) (h : ∀ t ∈ ts, Closed ['|', ',', ']'] t) :
    HintSyntax.ofText (barSpelling ts) = .union (ts.map TypeSyntax.ofText) :=
  HintSyntax.ofText_bars hlen fun t ht => (h t ht).mono (by simp)

theorem ofText_unionSpelling {t : List Char} (h : ∀ x ∈ t :: ts, Closed ['|', ',', ']'] x) :
    HintSyntax.ofText (unionSpelling (t :: ts)) =
      .single (.named ⟨["Union"]⟩ (some ((t :: ts).map fun x => .single (TypeSyntax.ofText x)))) := by
  have inside : Closed [']'] (List.intercalate ", ".toList (t :: ts)) :=
    closed_intercalate (.of_plain (forall_of_all (by decide))) fun x hx => (h x hx).mono (by simp)
  have name : Closed ['|'] "Union".toList := .of_plain (forall_of_all (by decide))
  have whole : Closed ['|'] (unionSpelling (t :: ts)) := name.append (inside.bracketed _)
  have members : (t :: ts).map HintSyntax.ofText =
      (t :: ts).map fun x => .single (TypeSyntax.ofText x) :=
    List.map_congr_left fun x hx => HintSyntax.ofText_of_closed ((h x hx).mono (by simp))
  have cut : cutName "Union".toList = ("Union".toList, []) := by decide +kernel
  have start : ∀ c ∈ "Union".toList.head?, isBlank c = false := by
    intro c hc
    obtain rfl : 'U' = c := by simpa using hc
    rfl
  have type := TypeSyntax.ofText_bracketed cut start fun x hx => (h x hx).mono (by simp)
  have named : nameOfText "Union".toList = ⟨["Union"]⟩ := by decide
  rw [members, named] at type
  exact (HintSyntax.ofText_of_closed whole).trans (congrArg HintSyntax.single type)

/-- A union in brackets keeps its members, and is named in full unless the module has its name. -/
theorem Hint.refined?_unionSpelling (path : QualifiedName) (ms : List Hint) :
    (Hint.type ⟨["Union"]⟩ (some ms)).refined? path =
      some (.type (if path = ⟨["Union"]⟩ then ⟨[]⟩ else ⟨["typing", "Union"]⟩)
        (some (Hint.qualifyTypingAll ms))) := by
  have inside : (⟨["Union"]⟩ : QualifiedName).inside path =
      if path = ⟨["Union"]⟩ then ⟨[]⟩ else ⟨["Union"]⟩ := by
    obtain ⟨parts⟩ := path
    match parts with
    | [] => rfl
    | [a] =>
      by_cases ha : a = "Union"
      · subst ha
        rfl
      · simp [QualifiedName.inside, QualifiedName.dropBase?, ha]
    | a :: b :: rest => simp [QualifiedName.inside, QualifiedName.dropBase?]
  by_cases hp : path = ⟨["Union"]⟩
  · rw [if_pos hp] at inside ⊢
    rw [Hint.refined?_parameters (by rw [inside]; rfl), inside]
    rfl
  · rw [if_neg hp] at inside ⊢
    rw [Hint.refined?_parameters (by rw [inside]; rfl), inside]
    rfl

/-- The members of a union in brackets are those of one with bars, each made fit as a single type. -/
theorem members_eq_iff {path : QualifiedName} {ts : List TypeSyntax} {raws members : List Hint}
    (hraws : TypeSyntax.hints? path ts = some raws)
    (hmembers : HintSyntax.hints? path (ts.map .single) = some members) :
    Hint.qualifyTypingAll raws = Hint.qualifyTypingAll members ↔
      ∀ t ∈ ts, ∀ h, t.hint? path = some h → h.Unaffected path := by
  induction ts generalizing raws members with
  | nil =>
    cases hraws
    cases hmembers
    simp
  | cons t ts ih =>
    rw [TypeSyntax.hints?] at hraws
    rw [List.map_cons, HintSyntax.hints?, HintSyntax.hint?] at hmembers
    obtain ⟨raw, hraw, rest⟩ := bind_eq_some_iff.mp hraws
    obtain ⟨raws, hrest, rfl⟩ := map_eq_some_iff.mp rest
    rw [hraw, bind_some] at hmembers
    obtain ⟨member, hmember, rest'⟩ := bind_eq_some_iff.mp hmembers
    obtain ⟨members, hrest', rfl⟩ := map_eq_some_iff.mp rest'
    have first : raw.qualifyTyping = member ↔ raw.Unaffected path := by
      rw [← Hint.refined?_eq_qualifyTyping_iff, hmember, some.injEq, eq_comm]
    simp only [Hint.qualifyTypingAll, Hint.qualifyTyping_refined hmember, List.cons.injEq, first,
      ih hrest hrest', List.forall_mem_cons, hraw, some.injEq, forall_eq']

namespace Inspection

/-- The two spellings of a union mean the same exactly if the module does not have the name of the
union, and no rule for single types applies to one of its types. -/
theorem spellings_agree_iff {s : Setting} (ho : s.options = {}) {ts : List (List Char)}
    (hlen : 2 ≤ ts.length) (hts : ∀ t ∈ ts, Closed ['|', ',', ']'] t) {p p' q q' : Progress}
    (hp : p'.modulePath = p.modulePath) {a b : Hint}
    (ha : (hintOfText (barSpelling ts)).outcome s p = (.ok a, q))
    (hb : (hintOfText (unionSpelling ts)).outcome s p' = (.ok b, q')) :
    a = b ↔ (p.modulePath ≠ ⟨["Union"]⟩ ∧ p.modulePath ≠ ⟨["typing", "Union"]⟩) ∧
      ∀ t ∈ ts, ∀ h, (TypeSyntax.ofText t).hint? p.modulePath = some h →
        h.Unaffected p.modulePath := by
  generalize hpath : p.modulePath = path at *
  obtain ⟨left, -⟩ := (givesAt_hintOfSyntax ho _).ok ha
  obtain ⟨right, -⟩ := (givesAt_hintOfSyntax ho _).ok hb
  match ts, hlen with
  | t :: ts, hlen =>
    rw [siteOf, hpath, ofText_barSpelling hlen hts, HintSyntax.hint?] at left
    rw [siteOf, hp, ofText_unionSpelling hts, HintSyntax.hint?, TypeSyntax.hint?] at right
    obtain ⟨raws, hraws, rfl⟩ := Option.map_eq_some_iff.mp left
    obtain ⟨named, hnamed, refined⟩ := Option.bind_eq_some_iff.mp right
    obtain ⟨members, hmembers, rfl⟩ := Option.map_eq_some_iff.mp hnamed
    rw [Hint.refined?_unionSpelling] at refined
    cases refined
    have same := members_eq_iff hraws (by rwa [List.map_map])
    have names : unionName path = (if path = ⟨["Union"]⟩ then ⟨[]⟩ else ⟨["typing", "Union"]⟩) ↔
        path ≠ ⟨["Union"]⟩ ∧ path ≠ ⟨["typing", "Union"]⟩ := by
      by_cases h₁ : path = ⟨["Union"]⟩
      · subst h₁
        decide
      · by_cases h₂ : path = ⟨["typing", "Union"]⟩
        · subst h₂
          decide
        · simp [unionName, h₁, h₂]
    simp only [Hint.type.injEq, Option.some.injEq, names, same, List.forall_mem_map]

def hintInModule (text : List Char) : Except Failure Hint × Progress :=
  (hintOfText text).outcome ⟨{}, .ofModules []⟩ { layers := [⟨⟨["m"]⟩, []⟩], modulePath := ⟨["m"]⟩ }

theorem hintInModule_ok {text : List Char} {hint : Hint}
    (h : (hintInModule text).1.toOption = some hint) : ∃ q, hintInModule text = (.ok hint, q) := by
  generalize hintInModule text = outcome at h ⊢
  obtain ⟨e | a, q⟩ := outcome
  · cases h
  · cases h
    exact ⟨q, rfl⟩

/-- A type with parameters may hold what only single types may hold. -/
theorem spellings_of_nested_list_agree :
    (hintInModule (barSpelling ["A[List[int]]".toList, "None".toList])).1.toOption =
      (hintInModule (unionSpelling ["A[List[int]]".toList, "None".toList])).1.toOption ∧
    ∀ h, (TypeSyntax.ofText "A[List[int]]".toList).hint? ⟨["m"]⟩ = some h →
      h.Unaffected ⟨["m"]⟩ := by
  have left : (hintInModule (barSpelling ["A[List[int]]".toList, "None".toList])).1.toOption =
      some (.type ⟨["typing", "Union"]⟩ (some [.type ⟨["A"]⟩ (some [.type ⟨["list"]⟩
        (some [.type ⟨["int"]⟩ none])]), .type ⟨["None"]⟩ none])) := by
    rw [hintInModule, World.ofModules_eq]
    decide +kernel
  have right : (hintInModule (unionSpelling ["A[List[int]]".toList, "None".toList])).1.toOption =
      some (.type ⟨["typing", "Union"]⟩ (some [.type ⟨["A"]⟩ (some [.type ⟨["list"]⟩
        (some [.type ⟨["int"]⟩ none])]), .type ⟨["None"]⟩ none])) := by
    rw [hintInModule, World.ofModules_eq]
    decide +kernel
  obtain ⟨q, hq⟩ := hintInModule_ok left
  obtain ⟨q', hq'⟩ := hintInModule_ok right
  have closed : ∀ t ∈ ["A[List[int]]".toList, "None".toList], Closed ['|', ',', ']'] t := by
    decide
  have both := (spellings_agree_iff rfl (by decide) closed rfl hq hq').mp rfl
  exact ⟨left.trans right.symm, both.2 _ List.mem_cons_self⟩

/-- A list among the types has a name of the typing module in one spelling, and its name in the
language itself in the other. -/
theorem spellings_of_list_differ :
    (∀ t ∈ ["List[int]".toList, "None".toList], Closed ['|', ',', ']'] t) ∧
    (hintInModule (barSpelling ["List[int]".toList, "None".toList])).1.toOption =
      some (.type ⟨["typing", "Union"]⟩ (some [.type ⟨["typing", "List"]⟩
        (some [.type ⟨["int"]⟩ none]), .type ⟨["None"]⟩ none])) ∧
    (hintInModule (unionSpelling ["List[int]".toList, "None".toList])).1.toOption =
      some (.type ⟨["typing", "Union"]⟩ (some [.type ⟨["list"]⟩
        (some [.type ⟨["int"]⟩ none]), .type ⟨["None"]⟩ none])) := by
  simp only [hintInModule, World.ofModules_eq]
  exact ⟨by decide, by decide +kernel, by decide +kernel⟩

end Inspection

end TypeStubs
