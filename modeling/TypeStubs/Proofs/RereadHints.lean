import TypeStubs.Proofs.HintRuns
import TypeStubs.Proofs.PrintedHints

/-! Hints that are read from their own texts. A text comes back as it was, but for flags of dense
arrays that became short by the way they were written. -/

namespace TypeStubs

open List Option Hint

variable {h : Hint}

/-- A text and the one that it becomes if the names of `n` flags in it are written in full. -/
structure Grown (n : Nat) (text text' : List Char) : Prop where
  length : text'.length = text.length + 14 * n
  same : n = 0 → text' = text

namespace Grown

variable {n m : Nat} {a a' b b' c : List Char}

protected theorem refl (a : List Char) : Grown 0 a a := ⟨rfl, fun _ => rfl⟩

protected theorem trans (h : Grown n a b) (h' : Grown m b c) : Grown (n + m) a c where
  length := by rw [h'.length, h.length]; omega
  same hz := by rw [h'.same (by omega), h.same (by omega)]

protected theorem append (h : Grown n a a') (h' : Grown m b b') :
    Grown (n + m) (a ++ b) (a' ++ b') where
  length := by rw [length_append, length_append, h.length, h'.length]; omega
  same hz := by rw [h.same (by omega), h'.same (by omega)]

theorem eq_iff (h : Grown n a b) : b = a ↔ n = 0 := by
  refine ⟨fun same => ?_, h.same⟩
  have length := h.length
  rw [same] at length
  omega

theorem intercalate_cons (separator : List Char) {xs ys : List (List Char)}
    (hl : ys.length = xs.length) (h : Grown n a b)
    (hs : Grown m (intercalate separator xs) (intercalate separator ys)) :
    Grown (n + m) (intercalate separator (a :: xs)) (intercalate separator (b :: ys)) := by
  cases xs with
  | nil =>
    cases length_eq_zero_iff.mp hl
    have none : m = 0 := hs.eq_iff.mp rfl
    rw [none, intercalate_singleton, intercalate_singleton]
    exact h
  | cons x xs =>
    obtain ⟨y, ys, rfl⟩ := exists_cons_of_length_eq_add_one hl
    rw [intercalate_cons_cons, intercalate_cons_cons]
    have first := (h.append (.refl separator)).append hs
    rwa [Nat.add_zero] at first

end Grown

mutual

/-- The one type that the text of a hint is, if it is not several with bars between them. -/
def Hint.only? : Hint → Option Hint
  | .type name (some ps) =>
    match barred? name ps with
    | some [] => onlyAmong? ps
    | some (_ :: _) => none
    | none => some (.type name (some ps))
  | .type name none => some (.type name none)
  | .expression e => some (.expression e)

/-- The one type that the texts of hints are. -/
def Hint.onlyAmong? : List Hint → Option Hint
  | [h] => h.only?
  | _ => none

end

def Hint.isWrittenAsFlag (h : Hint) : Bool := h.only?.any isFlag

/-- The number of parameters of a dense array that are written as flags. -/
def Hint.ownFlags : Hint → Nat
  | .type name (some ps) => if name = denseArray then ps.countP isWrittenAsFlag else 0
  | _ => 0

mutual

/-- The number of flags that are hidden in the parameters in brackets. -/
def Hint.innerFlags : Hint → Nat
  | .type name (some ps) =>
    if (barred? name ps).isSome then innerFlagsAmong ps else hiddenFlagsAmong ps
  | _ => 0

/-- The number of flags that are hidden in the parameters in brackets of all hints. -/
def Hint.innerFlagsAmong : List Hint → Nat
  | [] => 0
  | h :: hs => h.innerFlags + innerFlagsAmong hs

def Hint.hiddenFlagsAmong : List Hint → Nat
  | [] => 0
  | h :: hs => h.innerFlags + (h.only?.map ownFlags).getD 0 + hiddenFlagsAmong hs

end

/-- The number of parameters of dense arrays that are no flags, but are written as flags. In a type
between bars the flags keep their short names. -/
def Hint.hiddenFlags (h : Hint) : Nat := h.innerFlags + (h.only?.map ownFlags).getD 0

mutual

/-- The parameters in brackets are steady, at every depth. -/
def Hint.SteadyInside : Hint → Prop
  | .type name (some ps) =>
    if (barred? name ps).isSome then AllSteadyInside ps else AllSteady ps
  | _ => True

def Hint.AllSteadyInside : List Hint → Prop
  | [] => True
  | h :: hs => h.SteadyInside ∧ AllSteadyInside hs

def Hint.AllSteady : List Hint → Prop
  | [] => True
  | h :: hs => ((∀ a ∈ h.only?, a.Unaffected ⟨[]⟩ ∧ a.Importable) ∧ h.SteadyInside) ∧
      AllSteady hs

end

/-- No rule for single types changes the hint if it is read as one, and the same holds of its
parameters in brackets. -/
def Hint.Steady (h : Hint) : Prop :=
  (∀ a ∈ h.only?, a.Unaffected ⟨[]⟩ ∧ a.Importable) ∧ h.SteadyInside

/-! What is read from types with bars between them. -/

namespace TypeSyntax

variable {path : QualifiedName} {ts ts' : List TypeSyntax} {hs hs' : List Hint}

theorem hints?_append (h : hints? path ts = some hs) (h' : hints? path ts' = some hs') :
    hints? path (ts ++ ts') = some (hs ++ hs') := by
  induction ts generalizing hs with
  | nil =>
    rw [hints?] at h
    cases h
    exact h'
  | cons t ts ih =>
    rw [hints?, bind_eq_some_iff] at h
    obtain ⟨hint, first, h⟩ := h
    obtain ⟨rest, others, rfl⟩ := map_eq_some_iff.mp h
    rw [cons_append, hints?, first, bind_some, ih others, map_some, cons_append]

theorem length_hints? (h : hints? path ts = some hs) : hs.length = ts.length := by
  induction ts generalizing hs with
  | nil =>
    rw [hints?] at h
    cases h
    rfl
  | cons t ts ih =>
    rw [hints?, bind_eq_some_iff] at h
    obtain ⟨hint, first, h⟩ := h
    obtain ⟨rest, others, rfl⟩ := map_eq_some_iff.mp h
    rw [length_cons, length_cons, ih others]

theorem allImportable_append (h : AllImportable ts) (h' : AllImportable ts') :
    AllImportable (ts ++ ts') := by
  induction ts with
  | nil => exact h'
  | cons t ts ih =>
    rw [AllImportable] at h
    rw [cons_append, AllImportable]
    exact ⟨h.1, ih h.2⟩

end TypeSyntax

/-- The types are those of a text, and what is read from them has this text again, but for `n`
flags. -/
structure ReadsBack (ts : List TypeSyntax) (text : List Char) (n : Nat) (raws : List Hint) :
    Prop where
  read : TypeSyntax.hints? ⟨[]⟩ ts = some raws
  importable : TypeSyntax.AllImportable ts
  qualified : qualifyTypingAll raws = raws
  nonempty : raws ≠ []
  grown : Grown n text (intercalate " | ".toList (raws.map printed))

namespace ReadsBack

variable {ts ts' : List TypeSyntax} {text text' : List Char} {n n' : Nat} {raws raws' : List Hint}

protected theorem single {t : TypeSyntax} {raw : Hint} (read : t.hint? ⟨[]⟩ = some raw)
    (importable : t.Importable) (qualified : raw.qualifyTyping = raw)
    (grown : Grown n text raw.printed) : ReadsBack [t] text n [raw] where
  read := by rw [TypeSyntax.hints?, read, bind_some, TypeSyntax.hints?, map_some]
  importable := by
    rw [TypeSyntax.AllImportable, TypeSyntax.AllImportable]
    exact ⟨importable, trivial⟩
  qualified := by rw [qualifyTypingAll, qualified, qualifyTypingAll]
  nonempty := cons_ne_nil _ _
  grown := by rwa [map_singleton, intercalate_singleton]

protected theorem append (h : ReadsBack ts text n raws) (h' : ReadsBack ts' text' n' raws') :
    ReadsBack (ts ++ ts') (text ++ " | ".toList ++ text') (n + n') (raws ++ raws') where
  read := TypeSyntax.hints?_append h.read h'.read
  importable := TypeSyntax.allImportable_append h.importable h'.importable
  qualified := qualifyTypingAll_eq_iff.mpr (forall_mem_append.mpr
    ⟨qualifyTypingAll_eq_iff.mp h.qualified, qualifyTypingAll_eq_iff.mp h'.qualified⟩)
  nonempty := by simp [h.nonempty]
  grown := by
    have bar := (h.grown.append (.refl " | ".toList)).append h'.grown
    rw [map_append, intercalate_append _ (by simpa using h.nonempty) (by simpa using h'.nonempty)]
    rwa [Nat.add_zero] at bar

end ReadsBack

/-- What comes back of a single type, before rules for single types apply. -/
inductive ComesBack : Hint → Hint → Prop
  | name (name : QualifiedName) : ComesBack (.type name none) (.type name none)
  | parameters (name : QualifiedName) {ps ps' : List Hint} (nonempty : ps' ≠ [])
      (flags : ps'.map isFlag = ps.map isWrittenAsFlag) :
      ComesBack (.type name (some ps)) (.type name (some ps'))
  | value (text : String) (b b' : Bool) :
      ComesBack (.expression (.value ⟨text, b⟩)) (.expression (.value ⟨text, b'⟩))
  | invalid (text : String) (b : Bool) :
      ComesBack (.expression (.invalid text)) (.expression (.value ⟨"...", b⟩))

/-- A single type comes back as one, and several as several. -/
def ComeBack (raws : List Hint) : Option Hint → Prop
  | some a => ∃ raw, raws = [raw] ∧ ComesBack a raw
  | none => 2 ≤ raws.length

/-! The flags of dense arrays. -/

theorem Hint.qualifiedFlag_of_not_flag (hf : h.isFlag = false) :
    h.qualifiedFlag = h := by
  cases h with
  | expression e => rfl
  | type name ps =>
    rw [isFlag] at hf
    rw [qualifiedFlag, if_neg (Bool.eq_false_iff.mp hf)]

theorem Hint.printed_after_name (ps : List Hint) : ∃ rest, ∀ name, barred? name ps = none →
    (Hint.type name (some ps)).printed = name.text.toList ++ rest := by
  cases ps with
  | nil =>
    refine ⟨[], fun name h => ?_⟩
    have noUnion : name.text ≠ "typing.Union" := by
      intro union
      rw [barred?, if_neg (by simp), if_pos union] at h
      cases h
    rw [printed, Printer.hint, append_nil]
    simp [Printer.hints, noUnion]
  | cons p ps => exact ⟨_, fun name h => printed_parameters h (cons_ne_nil p ps)⟩

theorem Hint.grown_qualifiedFlag (hf : h.isFlag = true) :
    Grown 1 h.printed h.qualifiedFlag.printed := by
  have longer : ∀ name ∈ arrayFlags, (⟨denseArray.parts ++ name.parts⟩ : QualifiedName).text =
      "numpy.ndarray." ++ name.text := by decide
  have brackets : ∀ name ∈ arrayFlags, ∀ n ∈ [name, ⟨denseArray.parts ++ name.parts⟩],
      n.text ≠ "typing.Optional" ∧ n.text ≠ "typing.Union" := by decide
  have grown (text : String) (rest : List Char) :
      Grown 1 (text.toList ++ rest) (("numpy.ndarray." ++ text).toList ++ rest) := by
    refine ⟨?_, fun h => nomatch h⟩
    rw [String.toList_append, length_append, length_append, length_append]
    have dense : "numpy.ndarray.".toList.length = 14 := by decide
    omega
  match h with
  | .type name parameters =>
    rw [isFlag] at hf
    have flag : name ∈ arrayFlags := by simpa using hf
    rw [qualifiedFlag, if_pos hf]
    cases parameters with
    | none =>
      rw [printed_name, printed_name, longer name flag]
      simpa using grown name.text []
    | some ps =>
      obtain ⟨rest, after⟩ := printed_after_name ps
      have bracketed (n : QualifiedName) (hn : n ∈ [name, ⟨denseArray.parts ++ name.parts⟩]) :
          barred? n ps = none := by
        obtain ⟨noOptional, noUnion⟩ := brackets name flag n hn
        rw [barred?, if_neg fun both => noOptional both.1, if_neg noUnion]
      rw [after name (bracketed _ (.head _)), after _ (bracketed _ (.tail _ (.head _))),
        longer name flag]
      exact grown name.text rest

theorem Hint.grown_qualifiedFlags (hs : List Hint) : Grown (hs.countP isFlag)
    (intercalate ", ".toList (hs.map printed))
    (intercalate ", ".toList ((hs.map qualifiedFlag).map printed)) := by
  induction hs with
  | nil => exact .refl _
  | cons h hs ih =>
    have lengths : ((hs.map qualifiedFlag).map printed).length = (hs.map printed).length := by simp
    rw [map_cons, map_cons, map_cons, countP_cons, Nat.add_comm]
    refine .intercalate_cons _ lengths ?_ ih
    cases flag : h.isFlag with
    | true => exact grown_qualifiedFlag flag
    | false =>
      rw [qualifiedFlag_of_not_flag flag]
      exact .refl _

theorem QualifiedName.inside_root (name : QualifiedName) : name.inside ⟨[]⟩ = name := by
  simp [inside, dropBase?, length]

theorem ComesBack.refined {a raw : Hint} (h : ComesBack a raw) (unaffected : a.Unaffected ⟨[]⟩)
    (qualified : raw.qualifyTyping = raw) : ∃ h', raw.refined? ⟨[]⟩ = some h' ∧
      Grown a.ownFlags raw.printed h'.printed ∧ h'.isFlag = a.isFlag ∧
      (a.Importable → h'.Importable) := by
  cases h with
  | name name =>
    have same := (refined?_eq_qualifyTyping_iff _ _).mpr unaffected
    rw [qualified] at same
    exact ⟨_, same, .refl _, rfl, id⟩
  | value text b b' =>
    have back : (Hint.expression (.value ⟨text, b'⟩)).Unaffected ⟨[]⟩ := unaffected
    exact ⟨_, (refined?_eq_qualifyTyping_iff _ _).mpr back, .refl _, rfl, id⟩
  | invalid text b =>
    have dots : Inspection.fixedSizeText? "..." = none := by decide
    have back : (Hint.expression (.value ⟨"...", b⟩)).Unaffected ⟨[]⟩ := dots
    exact ⟨_, (refined?_eq_qualifyTyping_iff _ _).mpr back, .refl _, rfl, id⟩
  | @parameters name ps ps' nonempty flags =>
    rw [Hint.Unaffected, QualifiedName.inside_root] at unaffected
    obtain ⟨plain, -, rules⟩ := unaffected
    rw [isSome_some] at plain
    obtain ⟨notSparse, -⟩ := rules ps rfl
    rw [qualifyTyping] at qualified
    injection qualified with full qualified
    injection qualified with settled
    have notBare : isBareElementType (name.inside ⟨[]⟩) (some ps') = false := by
      simp [isBareElementType, nonempty]
    have refined := refined?_parameters notBare
    rw [QualifiedName.inside_root, if_neg notSparse, plain, full] at refined
    by_cases dense : name = denseArray
    · have named : qualifyTypingAll (ps'.map qualifiedFlag) =
          ps'.map qualifiedFlag := by
        refine qualifyTypingAll_eq_iff.mpr (forall_mem_map.mpr fun p hp => ?_)
        exact qualifiedFlag_qualifyTyping (qualifyTypingAll_eq_iff.mp settled p hp)
      rw [if_pos dense, named] at refined
      refine ⟨_, refined, ?_, rfl, id⟩
      have bracketed (hs : List Hint) : barred? name hs = none := by
        rw [dense, barred?, if_neg fun both => absurd both.1 (by decide), if_neg (by decide)]
      have count : ps.countP isWrittenAsFlag = ps'.countP isFlag := by
        have same := congrArg (countP id) flags
        rw [countP_map, countP_map] at same
        exact same.symm
      rw [ownFlags, if_pos dense, count, printed_parameters (bracketed _) nonempty,
        printed_parameters (bracketed _) (by simpa using nonempty)]
      have inside := (grown_qualifiedFlags ps').append (.refl [']'])
      have whole := (Grown.refl (name.text.toList ++ ['['])).append inside
      simpa using whole
    · rw [if_neg dense, settled] at refined
      refine ⟨_, refined, ?_, rfl, id⟩
      rw [ownFlags, if_neg dense]
      exact .refl _

/-! Whole hints. -/

theorem HintSyntax.hint?_qualified {path : QualifiedName} {h : HintSyntax} {hint : Hint}
    (hh : h.hint? path = some hint) : hint.qualifyTyping = hint := by
  match h with
  | .malformed text =>
    rw [HintSyntax.hint?] at hh
    cases hh
    rfl
  | .single t =>
    rw [HintSyntax.hint?, bind_eq_some_iff] at hh
    obtain ⟨raw, -, refined⟩ := hh
    exact qualifyTyping_refined refined
  | .union ts =>
    rw [HintSyntax.hint?, map_eq_some_iff] at hh
    obtain ⟨hs, -, rfl⟩ := hh
    exact qualifyTyping_refined (refined?_union path hs)

theorem HintSyntax.hints?_qualified {path : QualifiedName} {hs : List HintSyntax}
    {hints : List Hint} (h : HintSyntax.hints? path hs = some hints) :
    qualifyTypingAll hints = hints := by
  induction hs generalizing hints with
  | nil =>
    rw [HintSyntax.hints?] at h
    cases h
    rfl
  | cons h' hs ih =>
    rw [HintSyntax.hints?, bind_eq_some_iff] at h
    obtain ⟨hint, first, h⟩ := h
    obtain ⟨rest, others, rfl⟩ := map_eq_some_iff.mp h
    rw [qualifyTypingAll, hint?_qualified first, ih others]

theorem HintSyntax.ofTypes_of_two {ts : List TypeSyntax} (h : 2 ≤ ts.length) :
    HintSyntax.ofTypes ts = .union ts := by
  match ts with
  | [] => exact absurd h (Nat.not_succ_le_zero 1)
  | [_] => exact absurd h (Nat.not_succ_le_self 1)
  | _ :: _ :: _ => rfl

theorem ReadsBack.hint {raws : List Hint}
    (back : ReadsBack h.types h.printed h.innerFlags raws) (only : ComeBack raws h.only?)
    (steady : ∀ a ∈ h.only?, a.Unaffected ⟨[]⟩ ∧ a.Importable) :
    ∃ h', h.structure.hint? ⟨[]⟩ = some h' ∧ h.structure.Importable ∧
      Grown h.hiddenFlags h.printed h'.printed ∧ h'.isFlag = h.isWrittenAsFlag := by
  have lengths := TypeSyntax.length_hints? back.read
  rw [hiddenFlags, isWrittenAsFlag]
  cases one : h.only? with
  | some a =>
    rw [one] at only
    obtain ⟨raw, rfl, comes⟩ := only
    obtain ⟨t, types⟩ := length_eq_one_iff.mp lengths.symm
    obtain ⟨unaffected, importable⟩ := steady a one
    have qualified : raw.qualifyTyping = raw :=
      qualifyTypingAll_eq_iff.mp back.qualified raw mem_cons_self
    obtain ⟨h', refined, grown, flag, imported⟩ := comes.refined unaffected qualified
    have read : t.hint? ⟨[]⟩ = some raw := by
      have read := back.read
      rw [types, TypeSyntax.hints?, bind_eq_some_iff] at read
      obtain ⟨raw', first, read⟩ := read
      obtain ⟨_, -, same⟩ := map_eq_some_iff.mp read
      cases same
      exact first
    have hint : (HintSyntax.single t).hint? ⟨[]⟩ = some h' := by
      rw [HintSyntax.hint?, read, bind_some, refined]
    have parts := back.importable
    rw [types, TypeSyntax.AllImportable] at parts
    have whole := back.grown
    rw [map_singleton, intercalate_singleton] at whole
    rw [Hint.structure, types, HintSyntax.ofTypes]
    refine ⟨h', hint, ?_, whole.trans grown, ?_⟩
    · rw [HintSyntax.Importable, hint]
      refine ⟨parts.1, fun g hg => ?_⟩
      cases mem_some_iff.mp hg
      exact imported importable
    · rw [flag, any_some]
  | none =>
    rw [one] at only
    have union : h.structure = .union h.types := HintSyntax.ofTypes_of_two (lengths ▸ only)
    have bars : barred? (unionName ⟨[]⟩) raws = some [] := by
      rw [barred?, if_neg fun both => absurd both.1 (by decide), if_pos (by decide)]
    refine ⟨.type (unionName ⟨[]⟩) (some raws), ?_, ?_, ?_, rfl⟩
    · rw [union, HintSyntax.hint?, back.read, map_some, back.qualified]
    · rw [union, HintSyntax.Importable]
      exact back.importable
    · rw [printed_barred bars, map_nil, append_nil]
      exact back.grown

theorem Value.IsLegible.ofText {v : Value} {avoided : List Char} (h : v.IsLegible avoided) :
    Expression.ofText v.text.toList = .value ⟨v.text, Source.isLiteral v.text.toList⟩ := by
  have whole := TypeSyntax.ofText_eq_value h.read
  rw [Expression.ofText, ← whole, if_pos h.source, String.ofList_toList]

theorem Expression.ofText_ellipsis :
    Expression.ofText "...".toList = .value ⟨"...", Source.isLiteral "...".toList⟩ := by
  have whole : trim "...".toList = "...".toList := by decide
  have source : Source.isModule "...".toList = true := by decide
  rw [Expression.ofText, whole, if_pos source, String.ofList_toList]

theorem barred?_congr (name : QualifiedName) {ps ps' : List Hint} (h : ps'.length = ps.length) :
    barred? name ps' = barred? name ps := by
  rw [barred?, barred?, h]

mutual

theorem Hint.Legible.readsBack {h : Hint} {inner avoided : List Char}
    (hl : h.Legible inner avoided) (hq : h.qualifyTyping = h) (hs : h.SteadyInside) :
    ∃ raws, ReadsBack h.types h.printed h.innerFlags raws ∧ ComeBack raws h.only? := by
  match h with
  | .expression (.value v) =>
    rw [Hint.Legible] at hl
    refine ⟨[.expression (.value ⟨v.text, Source.isLiteral v.text.toList⟩)], ?_, ?_⟩
    · rw [types]
      refine .single ?_ ?_ rfl (.refl _)
      · rw [TypeSyntax.hint?, hl.ofText]
      · rw [TypeSyntax.Importable]
        trivial
    · rw [only?]
      exact ⟨_, rfl, .value _ _ _⟩
  | .expression (.invalid text) =>
    refine ⟨[.expression (.value ⟨"...", Source.isLiteral "...".toList⟩)], ?_, ?_⟩
    · rw [types]
      refine .single ?_ ?_ rfl (.refl _)
      · rw [TypeSyntax.hint?, Expression.ofText_ellipsis]
      · rw [TypeSyntax.Importable]
        trivial
    · rw [only?]
      exact ⟨_, rfl, .invalid _ _⟩
  | .type name none =>
    refine ⟨[.type name none], ?_, ?_⟩
    · rw [types]
      refine .single ?_ ?_ hq (.refl _)
      · rw [TypeSyntax.hint?]
      · rw [TypeSyntax.Importable]
        trivial
    · rw [only?]
      exact ⟨_, rfl, .name _⟩
  | .type name (some ps) =>
    rw [Hint.Legible] at hl
    rw [qualifyTyping] at hq
    injection hq with full settled
    injection settled with settled
    obtain ⟨-, hne, parameters⟩ := hl
    rw [SteadyInside] at hs
    rw [innerFlags, only?]
    cases bars : barred? name ps with
    | some more =>
      rw [bars, isSome_some, if_pos rfl] at hs parameters
      obtain ⟨raws, back, only⟩ := AllLegible.readsBack hne parameters settled hs
      rw [printed_barred bars, types_barred bars, isSome_some, if_pos rfl]
      rcases barred?_cases bars with rfl | rfl
      · refine ⟨raws, ?_, only⟩
        rw [map_nil, append_nil, map_nil, append_nil]
        exact back
      · have last : ReadsBack [.named ⟨["None"]⟩ none] (⟨["None"]⟩ : QualifiedName).text.toList 0
            [.type ⟨["None"]⟩ none] := by
          refine .single (by rw [TypeSyntax.hint?]) ?_ (by decide) ?_
          · rw [TypeSyntax.Importable]
            trivial
          · rw [printed_name]
            exact .refl _
        refine ⟨raws ++ [.type ⟨["None"]⟩ none], ?_, ?_⟩
        · rw [intercalate_append _ (by simpa using hne) (by simp), map_singleton,
            map_singleton, intercalate_singleton]
          exact back.append last
        · have first := length_pos_iff.mpr back.nonempty
          rw [ComeBack, length_append, length_singleton]
          omega
    | none =>
      rw [bars, isSome_none, if_neg Bool.false_ne_true] at hs parameters
      obtain ⟨ps', read, importable, flags, grown⟩ := AllLegible.comeBack parameters settled hs
      have lengths : ps'.length = ps.length := by
        have same := congrArg length flags
        rwa [length_map, length_map] at same
      have nonempty : ps' ≠ [] := by
        rintro rfl
        exact hne (length_eq_zero_iff.mp lengths.symm)
      rw [types_parameters bars, isSome_none, if_neg Bool.false_ne_true]
      refine ⟨[.type name (some ps')], .single ?_ ?_ ?_ ?_, _, rfl, .parameters name nonempty flags⟩
      · rw [TypeSyntax.hint?, read, map_some]
      · rw [TypeSyntax.Importable]
        exact importable
      · rw [qualifyTyping, full, HintSyntax.hints?_qualified read]
      · rw [printed_parameters bars hne,
          printed_parameters ((barred?_congr name lengths).trans bars) nonempty]
        have inside := grown.append (.refl [']'])
        have whole := (Grown.refl (name.text.toList ++ ['['])).append inside
        simpa using whole

theorem Hint.AllLegible.readsBack {hs : List Hint} {inner avoided : List Char} (hne : hs ≠ [])
    (hl : AllLegible inner avoided hs) (hq : qualifyTypingAll hs = hs)
    (ss : AllSteadyInside hs) : ∃ raws,
      ReadsBack (allTypes hs) (intercalate " | ".toList (hs.map printed))
        (innerFlagsAmong hs) raws ∧ ComeBack raws (onlyAmong? hs) := by
  match hs with
  | [] => exact absurd rfl hne
  | [h] =>
    rw [AllLegible] at hl
    rw [AllSteadyInside] at ss
    rw [qualifyTypingAll] at hq
    injection hq with first
    obtain ⟨raws, back, only⟩ := hl.1.readsBack first ss.1
    refine ⟨raws, ?_, by rwa [onlyAmong?]⟩
    rw [map_singleton, intercalate_singleton, allTypes, allTypes,
      append_nil, innerFlagsAmong, innerFlagsAmong, Nat.add_zero]
    exact back
  | h :: h' :: hs =>
    rw [AllLegible] at hl
    rw [AllSteadyInside] at ss
    rw [qualifyTypingAll] at hq
    injection hq with first rest
    obtain ⟨raws, back, -⟩ := hl.1.readsBack first ss.1
    obtain ⟨raws', back', -⟩ := AllLegible.readsBack (cons_ne_nil _ _) hl.2 rest ss.2
    refine ⟨raws ++ raws', ?_, ?_⟩
    · rw [map_cons, intercalate_cons_of_ne_nil (by simp), allTypes, innerFlagsAmong]
      exact back.append back'
    · have one := length_pos_iff.mpr back.nonempty
      have two := length_pos_iff.mpr back'.nonempty
      rw [onlyAmong?, ComeBack, length_append]
      · omega
      · nofun

theorem Hint.AllLegible.comeBack {hs : List Hint} {inner avoided : List Char}
    (hl : AllLegible inner avoided hs) (hq : qualifyTypingAll hs = hs)
    (ss : AllSteady hs) : ∃ hs', HintSyntax.hints? ⟨[]⟩ (structures hs) = some hs' ∧
      HintSyntax.AllImportable (structures hs) ∧
      hs'.map isFlag = hs.map isWrittenAsFlag ∧
      Grown (hiddenFlagsAmong hs) (intercalate ", ".toList (hs.map printed))
        (intercalate ", ".toList (hs'.map printed)) := by
  match hs with
  | [] =>
    refine ⟨[], ?_, ?_, rfl, .refl _⟩
    · rw [structures, HintSyntax.hints?]
    · rw [structures, HintSyntax.AllImportable]
      trivial
  | h :: hs =>
    rw [AllLegible] at hl
    rw [AllSteady] at ss
    rw [qualifyTypingAll] at hq
    injection hq with first rest
    obtain ⟨raws, back, only⟩ := hl.1.readsBack first ss.1.2
    obtain ⟨h', read, importable, grown, flag⟩ := back.hint only ss.1.1
    obtain ⟨hs', reads, importables, flags, growns⟩ := AllLegible.comeBack hl.2 rest ss.2
    have lengths : (hs'.map printed).length = (hs.map printed).length := by
      have same := congrArg length flags
      rw [length_map, length_map] at same
      rw [length_map, length_map, same]
    refine ⟨h' :: hs', ?_, ?_, ?_, ?_⟩
    · rw [structures, HintSyntax.hints?]
      rw [Hint.structure] at read
      rw [read, bind_some, reads, map_some]
    · rw [structures, HintSyntax.AllImportable]
      exact ⟨importable, importables⟩
    · rw [map_cons, map_cons, flag, flags]
    · rw [hiddenFlagsAmong]
      exact .intercalate_cons _ lengths grown growns

end

/-- A steady hint is read from its own text, and the text comes back but for the hidden flags. -/
theorem Hint.Steady.readsBack {inner avoided : List Char} (hs : h.Steady)
    (hl : h.Legible inner avoided) (hq : h.qualifyTyping = h) :
    ∃ h', h.structure.hint? ⟨[]⟩ = some h' ∧ h.structure.Importable ∧
      Grown h.hiddenFlags h.printed h'.printed := by
  obtain ⟨raws, back, only⟩ := hl.readsBack hq hs.2
  obtain ⟨h', read, importable, grown, -⟩ := back.hint only hs.1
  exact ⟨h', read, importable, grown⟩

end TypeStubs
