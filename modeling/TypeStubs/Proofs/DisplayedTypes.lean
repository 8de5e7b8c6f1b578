import TypeStubs.Proofs.NormalHints
import TypeStubs.Proofs.WrittenNumbers

/-! Types whose display is read back as the type: their names are full and lie outside of the packages
that the rules of reading are about, and their values are integers. -/

namespace TypeStubs

open List Source

variable {c : Char} {n : Int} {ps : List Hint} {P : Int → Prop}

/-! Integers as source text. -/

namespace Source

def IsShort (n : Int) : Prop := (Nat.toDigits 10 n.natAbs).length ≤ maxIntegerDigits

instance (n : Int) : Decidable (IsShort n) := inferInstanceAs (Decidable (_ ≤ _))

theorem lexFrom_stuck {fuel : Nat} {brackets : List String} {cs : List Char}
    (hc : c ∉ [' ', '\t', '\x0c', '#', '\n', '\\']) (ht : token (c :: cs) = none) :
    lexFrom (fuel + 1) ⟨brackets, [], false⟩ (c :: cs) = none := by
  rw [lexFrom]
  · rw [if_neg (by simp), ht]
    rfl
  all_goals simp_all

theorem isDigit_toDigits (n : Nat) : ∀ c ∈ Nat.toDigits 10 n, c.isDigit = true :=
  fun _ hc => Nat.isDigit_of_mem_toDigits (by decide) (by decide) hc

theorem number_line (n : Nat) : number (Nat.toDigits 10 n ++ ['\n']) =
    if (Nat.toDigits 10 n).length ≤ maxIntegerDigits then some (.integer, ['\n']) else none := by
  have ends : EndsDigits ['\n'] :=
    ⟨fun c hc => by cases hc; decide, fun c hc => by cases hc; decide⟩
  have exponent : exponentPart .integer ['\n'] = some (.integer, ['\n']) := rfl
  rw [number_whole Nat.toDigits_ne_nil (isDigit_toDigits n) ends (by simp), exponent,
    Option.bind_some]
  by_cases short : (Nat.toDigits 10 n).length ≤ maxIntegerDigits
  · have numeral : IsNumeral (Nat.toDigits 10 n) :=
      ⟨Nat.toDigits_ne_nil, isDigit_toDigits n, fun hz => by rw [head?_toDigits hz]; rfl, short⟩
    rw [numeral.zeros, if_pos short]
    rfl
  · have first : (Nat.toDigits 10 n).head? ≠ some '0' := fun hz =>
      short (by rw [head?_toDigits hz]; decide)
    have long : (Nat.toDigits 10 n).length > maxIntegerDigits := Nat.lt_of_not_le short
    rw [if_neg short, if_pos]
    simp [first, long]

theorem toDigits_eq_cons (n : Nat) : ∃ d ds, Nat.toDigits 10 n = d :: ds ∧
    d ∉ [' ', '\t', '\x0c', '#', '\n', '\\'] := by
  have plain : ∀ d ∈ ['0', '1', '2', '3', '4', '5', '6', '7', '8', '9'],
      d ∉ [' ', '\t', '\x0c', '#', '\n', '\\'] := forall_of_all (by decide)
  have digit := isDigit_toDigits n
  obtain ⟨d, ds, shape⟩ := exists_cons_of_ne_nil (Nat.toDigits_ne_nil (b := 10) (n := n))
  rw [shape] at digit
  exact ⟨d, ds, shape, plain d (mem_digits (digit d mem_cons_self))⟩

theorem lexFrom_digits (n fuel : Nat) :
    lexFrom (fuel + 3) ⟨[], [], false⟩ (Nat.toDigits 10 n ++ ['\n']) =
      if (Nat.toDigits 10 n).length ≤ maxIntegerDigits then some [.number .integer, .newline]
      else none := by
  have token := token_digits Nat.toDigits_ne_nil (isDigit_toDigits n) ['\n']
  obtain ⟨d, ds, shape, start⟩ := toDigits_eq_cons n
  rw [number_line] at token
  by_cases short : (Nat.toDigits 10 n).length ≤ maxIntegerDigits
  · rw [if_pos short] at token ⊢
    rw [shape, cons_append] at token ⊢
    rw [lexFrom_token start token rfl]
    rfl
  · rw [if_neg short] at token ⊢
    rw [shape, cons_append] at token ⊢
    exact lexFrom_stuck start token

theorem mem_toString (h : c ∈ (toString n).toList) : c ∈ "-0123456789".toList := by
  rw [toList_toString, DecimalText.signed] at h
  split at h
  · rcases mem_cons.mp h with rfl | h
    · exact .head _
    · exact .tail _ (mem_digits (isDigit_toDigits _ c h))
  · exact .tail _ (mem_digits (isDigit_toDigits _ c h))

theorem toString_ne_nil (n : Int) : (toString n).toList ≠ [] := by
  rw [toList_toString, DecimalText.signed]
  split
  · exact cons_ne_nil _ _
  · exact Nat.toDigits_ne_nil

theorem lex?_integer (n : Int) : lex? (toString n).toList =
    if IsShort n then some ((if n < 0 then [.op "-"] else []) ++ [.number .integer, .newline])
    else none := by
  have chars {c : Char} (hc : c ∉ "-0123456789".toList) : c ∉ (toString n).toList :=
    fun h => hc (mem_toString h)
  have last : ∃ c ∈ (toString n).toList.getLast?, c ≠ '\n' := by
    refine ⟨_, getLast?_eq_some_getLast (toString_ne_nil n), ?_⟩
    rintro same
    exact chars (c := '\n') (by decide) (same ▸ getLast_mem _)
  have length := length_pos_iff.mpr (toString_ne_nil n)
  have digits (fuel : Nat) : lexFrom (fuel + 3) ⟨[], [], false⟩ (Nat.toDigits 10 n.natAbs ++ ['\n']) =
      if IsShort n then some [.number .integer, .newline] else none := lexFrom_digits n.natAbs fuel
  obtain ⟨fuel, enough⟩ : ∃ fuel, 2 * (toString n).toList.length + 4 = fuel + 5 :=
    ⟨2 * (toString n).toList.length - 1, by omega⟩
  rw [lex?_line (chars (by decide)) last, if_neg (chars (by decide)), enough, toList_toString,
    DecimalText.signed]
  by_cases negative : n < 0
  · have minus := token_minus Nat.toDigits_ne_nil (isDigit_toDigits n.natAbs) ['\n']
    rw [if_pos (decide_eq_true negative), if_pos negative, cons_append,
      lexFrom_start (by decide), lexFrom_token (by decide) minus rfl, digits]
    split
    · rfl
    · rfl
  · have start : lexFrom (fuel + 5) {} (Nat.toDigits 10 n.natAbs ++ ['\n']) =
        lexFrom (fuel + 4) ⟨[], [], false⟩ (Nat.toDigits 10 n.natAbs ++ ['\n']) := by
      obtain ⟨d, ds, shape, plain⟩ := toDigits_eq_cons n.natAbs
      rw [shape]
      exact lexFrom_start plain _ _
    rw [if_neg (by simpa using negative), if_neg negative, start, digits]
    rfl

theorem tokens?_integer (short : IsShort n) (depth : Nat) :
    tokens? (depth + 1) (toString n).toList =
      some ((if n < 0 then [.op "-"] else []) ++ [.number .integer, .newline]) := by
  refine tokens?_of_lex? (by rw [lex?_integer, if_pos short]) (fun t ht s hs => ?_) depth
  subst hs
  split at ht
  · simp at ht
  · simp at ht

theorem isModule_integer (n : Int) : isModule (toString n).toList = true ↔ IsShort n := by
  by_cases short : IsShort n
  · rw [isModule, tokens?_integer short]
    by_cases negative : n < 0
    · simp only [if_pos negative, short, iff_true]
      rfl
    · simp only [if_neg negative, short, iff_true]
      rfl
  · rw [isModule, tokens?, lex?_integer, if_neg short]
    simp [short]

theorem isLiteral_integer (short : IsShort n) : isLiteral (toString n).toList = true := by
  rw [isLiteral, tokens?_integer short]
  by_cases negative : n < 0
  · rw [if_pos negative]
    rfl
  · rw [if_neg negative]
    rfl

end Source

theorem isBlank_of_mem_integer (h : c ∈ "-0123456789".toList) : isBlank c = false := by
  have plain : ∀ c ∈ "-0123456789".toList, isBlank c = false := forall_of_all (by decide)
  exact plain c h

theorem trim_integer (n : Int) : trim (toString n).toList = (toString n).toList :=
  trim_eq_self (fun _ hc => isBlank_of_mem_integer (mem_toString (mem_of_mem_head? hc)))
    (fun _ hc => isBlank_of_mem_integer (mem_toString (mem_of_getLast? hc)))

theorem closed_integer (n : Int) : Closed [',', ']', '|'] (toString n).toList := by
  have plain : ∀ c ∈ "-0123456789".toList,
      isQuote c = false ∧ closer? c = none ∧ c ∉ [',', ']', '|'] := forall_of_all (by decide)
  exact .of_plain fun c hc => plain c (mem_toString hc)

theorem cutName_cons (start : isNameStart c = false) (blank : isBlank c = false) (dot : c ≠ '.')
    (cs : List Char) : cutName (c :: cs) = ([], c :: cs) := by
  have first : namePart (c :: cs) = [] := by simp [namePart, start]
  have next : dottedPart (c :: cs) = [] := by
    rw [dottedPart, dropWhile_cons, blank, if_neg Bool.false_ne_true]
    split
    · rename_i same
      exact absurd (List.cons.inj same).1 dot
    · rfl
  have none : dottedLength (c :: cs) = 0 := by rw [dottedLength_eq, if_pos next]
  simp [cutName, first, none]

theorem ofText_integer (n : Int) :
    TypeSyntax.ofText (toString n).toList = .value (toString n).toList := by
  have plain : ∀ c ∈ "-0123456789".toList,
      isNameStart c = false ∧ isBlank c = false ∧ c ≠ '.' ∧ c ≠ '[' := forall_of_all (by decide)
  have whole := trim_integer n
  have chars {c : Char} (hc : c ∈ (toString n).toList) := plain c (mem_toString hc)
  obtain ⟨c, cs, shape⟩ := exists_cons_of_ne_nil (toString_ne_nil n)
  rw [shape] at whole chars
  obtain ⟨start, blank, dot, bracket⟩ := chars mem_cons_self
  have noBracket : bracketed? (c :: cs) = none := by
    unfold bracketed?
    split
    · rename_i same
      exact absurd (List.cons.inj same).1 bracket
    · rfl
  rw [shape, TypeSyntax.ofText_eq, whole, cutName_cons start blank dot, whole]
  simp only [noBracket, Option.bind_none]

theorem fixedSizeText?_integer (n : Int) : Inspection.fixedSizeText? (toString n) = none := by
  have plain : ∀ c ∈ "-0123456789".toList, c ≠ 'F' := forall_of_all (by decide)
  have front : hasFront "FixedSize(" (toString n) = false := by
    refine Bool.eq_false_iff.mpr fun h => ?_
    obtain ⟨rest, shape⟩ := isPrefixOf_iff_prefix.mp h
    have first : 'F' ∈ (toString n).toList := by
      rw [← shape]
      exact mem_cons_self
    exact plain 'F' (mem_toString first) rfl
  rw [Inspection.fixedSizeText?, front]
  rfl

theorem Expression.ofText_integer (n : Int) : Expression.ofText (toString n).toList =
    if IsShort n then .value ⟨toString n, true⟩ else .invalid (toString n) := by
  rw [Expression.ofText, trim_integer, String.ofList_toList]
  by_cases short : IsShort n
  · rw [if_pos ((isModule_integer n).mpr short), if_pos short, isLiteral_integer short]
  · rw [if_neg fun h => short ((isModule_integer n).mp h), if_neg short]

/-! Full names. -/

namespace QualifiedName

/-- A name of several parts that no rule of reading is about. -/
structure IsForeign (name : QualifiedName) : Prop where
  parts : ∀ part ∈ name.parts, IsNamePart part.toList
  several : 2 ≤ name.length
  outside : name.head ∉ ["typing", "numpy", "scipy", "dtype"]

instance (name : QualifiedName) : Decidable name.IsForeign :=
  decidable_of_iff ((∀ part ∈ name.parts, IsNamePart part.toList) ∧ 2 ≤ name.length ∧
      name.head ∉ ["typing", "numpy", "scipy", "dtype"])
    ⟨fun ⟨parts, several, outside⟩ => ⟨parts, several, outside⟩,
      fun h => ⟨h.parts, h.several, h.outside⟩⟩

namespace IsForeign

variable {name : QualifiedName} (h : name.IsForeign)

include h

theorem isWritten : name.IsWritten := isWritten_of_parts
  (fun none => absurd h.several (by rw [length, none]; decide)) h.parts

theorem importable : name.Importable := by
  obtain ⟨_ | ⟨part, parts⟩⟩ := name
  · exact absurd h.several (by decide)
  · obtain ⟨c, rest, text, start, -⟩ := h.parts part mem_cons_self
    refine .inr ?_
    have dot : c ≠ '.' := by
      rintro rfl
      cases start
    simp [head, startsModule, text, dot]

protected theorem qualifyTyping (b : Bool) : name.qualifyTyping b = name :=
  qualifyTyping_of_length (fun one => absurd h.several (by omega)) b

theorem refined? (parameters : Option (List Hint)) :
    (Hint.type name parameters).refined? ⟨[]⟩ = some (Hint.type name parameters).qualifyTyping := by
  have outside := h.outside
  rw [Hint.refined?_eq_qualifyTyping_iff, Hint.Unaffected, inside_root, h.qualifyTyping]
  obtain ⟨_ | ⟨a, _ | ⟨b, parts⟩⟩⟩ := name
  · exact absurd h.several (by decide)
  · exact absurd h.several (Nat.not_succ_le_self 1)
  · simp only [head, headD_cons, mem_cons, not_mem_nil, or_false, not_or] at outside
    obtain ⟨typing, numpy, scipy, dtype⟩ := outside
    refine ⟨?_, ?_, fun ps _ => ⟨?_, ?_⟩⟩
    · unfold plainCollection
      split
      · rename_i same
        exact absurd (List.cons.inj same).1 typing
      · rfl
    · simp [Hint.isBareElementType, elementTypeName, dtype, numpy]
    · simp [scipy]
    · intro dense
      injection dense with dense
      exact absurd (List.cons.inj dense).1 numpy

end IsForeign

end QualifiedName

/-! Trees of types. -/

namespace Hint

variable {h : Hint} {name : QualifiedName}

/-- Types with full names, and as their parameters such types again or integers with a property. -/
inductive IsTree (P : Int → Prop) : Hint → Prop
  | name {name : QualifiedName} (foreign : name.IsForeign) : IsTree P (.type name none)
  | parameters {name : QualifiedName} {ps : List Hint} (foreign : name.IsForeign) (nonempty : ps ≠ [])
      (trees : ∀ p ∈ ps, IsTree P p) : IsTree P (.type name (some ps))
  | integer {n : Int} (holds : P n) : IsTree P (.expression (.value ⟨toString n, true⟩))

theorem displayList_eq_map (hs : List Hint) : displayList hs = hs.map display := by
  induction hs with
  | nil => rfl
  | cons h hs ih => rw [displayList, ih, map_cons]

theorem display_name (name : QualifiedName) : (Hint.type name none).display = name.text := by
  rw [display]

theorem toList_display_parameters (name : QualifiedName) (hne : ps ≠ []) :
    (Hint.type name (some ps)).display.toList = name.text.toList ++
      '[' :: (intercalate ", ".toList (ps.map fun p => p.display.toList) ++ [']']) := by
  have joined : (joinWith ", " (ps.map display)).toList =
      intercalate ", ".toList ((ps.map display).map String.toList) := String.toList_intercalate
  obtain ⟨p, ps, rfl⟩ := exists_cons_of_ne_nil hne
  rw [display, displayList_eq_map]
  simp only [String.toList_append, joined, map_map]
  simp [Function.comp_def]

theorem display_integer (n : Int) :
    (Hint.expression (.value ⟨toString n, true⟩)).display = toString n := by
  rw [display]
  rfl

theorem IsTree.closed (ht : h.IsTree P) : Closed [',', ']', '|'] h.display.toList := by
  induction ht with
  | name foreign =>
    rw [display_name]
    exact foreign.isWritten.1.closed (Subset.refl _)
  | @parameters name ps foreign nonempty trees ih =>
    have inside : Closed [']'] (intercalate ", ".toList (ps.map fun p => p.display.toList)) :=
      closed_intercalate (.of_plain (forall_of_all (by decide))) fun t ht => by
        obtain ⟨p, hp, rfl⟩ := mem_map.mp ht
        exact (ih p hp).mono (by simp)
    rw [toList_display_parameters name nonempty]
    exact (foreign.isWritten.1.closed (Subset.refl _)).append (inside.bracketed _)
  | integer =>
    rw [display_integer]
    exact closed_integer _

theorem IsTree.ofText (ht : h.IsTree P) :
    HintSyntax.ofText h.display.toList = .single (TypeSyntax.ofText h.display.toList) :=
  HintSyntax.ofText_of_closed (ht.closed.mono (by simp))

theorem ofText_parameters (written : name.IsWritten) (hne : ps ≠ [])
    (closed : ∀ p ∈ ps, Closed [',', ']', '|'] p.display.toList)  :
    TypeSyntax.ofText (Hint.type name (some ps)).display.toList =
      .named name (some (ps.map fun p => HintSyntax.ofText p.display.toList)) := by
  rw [toList_display_parameters name hne]
  obtain ⟨p, ps, rfl⟩ := exists_cons_of_ne_nil hne
  have texts : ∀ text ∈ p.display.toList :: ps.map (fun p => p.display.toList), Closed [','] text := by
    rw [← map_cons (f := fun p : Hint => p.display.toList)]
    exact forall_mem_map.mpr fun p hp => (closed p hp).mono (by simp)
  rw [map_cons, written.ofText_bracketed texts, map_cons, map_map, map_cons]
  rfl

/-- What is read from the display of a hint, outside of every module. -/
structure ReadsAs (h h' : Hint) : Prop where
  read : (HintSyntax.ofText h.display.toList).hint? ⟨[]⟩ = some h'
  importable : (HintSyntax.ofText h.display.toList).Importable

theorem readsAs_type {parameters : Option (List Hint)}
    {t : TypeSyntax} (foreign : name.IsForeign) (text : HintSyntax.ofText h.display.toList = .single t)
    (read : t.hint? ⟨[]⟩ = some (.type name parameters)) (importable : t.Importable)
    (qualified : (Hint.type name parameters).qualifyTyping = .type name parameters) :
    h.ReadsAs (.type name parameters) := by
  have whole : (HintSyntax.single t).hint? ⟨[]⟩ = some (.type name parameters) := by
    rw [HintSyntax.hint?, read, Option.bind_some, foreign.refined?, qualified]
  refine ⟨text ▸ whole, ?_⟩
  rw [text, HintSyntax.Importable, whole]
  refine ⟨importable, fun g hg => ?_⟩
  cases Option.mem_some_iff.mp hg
  exact foreign.importable

theorem readAll {Q : Hint → Prop} (h : ∀ p ∈ ps, ∃ p', p.ReadsAs p' ∧ (p' = p ↔ Q p)) :
    ∃ ps', HintSyntax.hints? ⟨[]⟩ (ps.map fun p => HintSyntax.ofText p.display.toList) = some ps' ∧
      HintSyntax.AllImportable (ps.map fun p => HintSyntax.ofText p.display.toList) ∧
      (ps' = ps ↔ ∀ p ∈ ps, Q p) := by
  induction ps with
  | nil =>
    refine ⟨[], ?_, ?_, by simp⟩
    · rw [map_nil, HintSyntax.hints?]
    · rw [map_nil, HintSyntax.AllImportable]
      trivial
  | cons p ps ih =>
    obtain ⟨first, others⟩ := forall_mem_cons.mp h
    obtain ⟨p', reads, same⟩ := first
    obtain ⟨ps', read, importable, sames⟩ := ih others
    refine ⟨p' :: ps', ?_, ?_, by rw [List.cons.injEq, same, sames, forall_mem_cons]⟩
    · rw [map_cons, HintSyntax.hints?, reads.read, Option.bind_some, read, Option.map_some]
    · rw [map_cons, HintSyntax.AllImportable]
      exact ⟨reads.importable, importable⟩

theorem IsTree.isShort (tree : (Hint.expression (.value ⟨toString n, true⟩)).IsTree IsShort) :
    IsShort n := by
  generalize value : (⟨toString n, true⟩ : Value) = v at tree
  cases tree with
  | @integer m short =>
    -- an integer with the same text is as short
    rw [← isModule_integer] at short ⊢
    rwa [(Value.mk.inj value).1]

/-- A tree is read as the same tree if and only if its integers are short. -/
theorem IsTree.reads (ht : h.IsTree P) :
    ∃ h', h.ReadsAs h' ∧ (h' = h ↔ h.IsTree IsShort) := by
  have text := ht.ofText
  induction ht with
  | @name name foreign =>
    refine ⟨.type name none, readsAs_type foreign text ?_ ?_ ?_, by simp [IsTree.name foreign]⟩
    · rw [display_name, foreign.isWritten.ofText, TypeSyntax.hint?]
    · rw [display_name, foreign.isWritten.ofText, TypeSyntax.Importable]
      trivial
    · rw [qualifyTyping, foreign.qualifyTyping]
  | @parameters name ps foreign nonempty trees ih =>
    obtain ⟨ps', read, importable, same⟩ := readAll fun p hp => ih p hp (trees p hp).ofText
    have shape := ofText_parameters foreign.isWritten nonempty fun p hp => (trees p hp).closed
    refine ⟨.type name (some ps'), readsAs_type foreign text ?_ ?_ ?_, ?_⟩
    · rw [shape, TypeSyntax.hint?, read, Option.map_some]
    · rw [shape, TypeSyntax.Importable]
      exact importable
    · rw [qualifyTyping, foreign.qualifyTyping, HintSyntax.hints?_qualified read]
    · simp only [type.injEq, Option.some.injEq, true_and, same]
      constructor
      · exact .parameters foreign nonempty
      · rintro (_ | ⟨-, -, short⟩)
        exact short
  | @integer n holds =>
    refine ⟨.expression (.ofText (toString n).toList), ?_, ?_⟩
    · rw [display_integer, ofText_integer] at text
      have value : (HintSyntax.single (.value (toString n).toList)).hint? ⟨[]⟩ =
          some (.expression (.ofText (toString n).toList)) := by
        rw [HintSyntax.hint?, TypeSyntax.hint?, Option.bind_some, refined?_expression,
          Expression.ofText_integer]
        split
        · simp only [withFixedSize?, fixedSizeText?_integer]
        · rfl
      refine ⟨by rw [display_integer, text, value], ?_⟩
      rw [display_integer, text, HintSyntax.Importable, TypeSyntax.Importable, value]
      refine ⟨trivial, fun g hg => ?_⟩
      cases Option.mem_some_iff.mp hg
      trivial
    · rw [Expression.ofText_integer]
      split
      · rename_i short
        exact iff_of_true rfl (.integer short)
      · rename_i long
        exact iff_of_false (by simp) fun tree => long tree.isShort

end Hint

namespace Inspection

variable {s : Setting} {p : Progress} {h h' : Hint}

theorem hintOfText_readsAs (ho : s.options = {}) (hp : IsOutside p) (reads : h.ReadsAs h') (hint : Hint) :
    (∃ q, (hintOfText h.display.toList).outcome s p = (.ok hint, q)) ↔ h' = hint := by
  obtain ⟨returns, only⟩ := gives_hintOfSyntax ho (HintSyntax.ofText h.display.toList) p hp
  constructor
  · rintro ⟨q, run⟩
    have read := (only hint q run).1.1
    rw [reads.read] at read
    exact Option.some.inj read
  · rintro rfl
    exact returns h' ⟨reads.read, reads.importable⟩

/-- Outside of every module, the display of a tree of types is read as the tree, if and only if none of
its integers is too long. -/
theorem displayed_tree_read_iff (ho : s.options = {}) (hp : IsOutside p)
    (tree : h.IsTree fun _ => True) :
    (∃ q, (hintOfText h.display.toList).outcome s p = (.ok h, q)) ↔ h.IsTree Source.IsShort := by
  obtain ⟨h', reads, same⟩ := tree.reads
  rw [hintOfText_readsAs ho hp reads, same]

def nestedTree (n : Int) : Hint :=
  .type ⟨["a", "b"]⟩ (some [.type ⟨["c", "_d1", "E"]⟩ (some [.type ⟨["f", "g"]⟩ none,
    .expression (.value ⟨toString n, true⟩)]), .type ⟨["h", "Union"]⟩ none])

theorem isTree_nestedTree (holds : P n) : (nestedTree n).IsTree P := by
  refine .parameters (by decide) (cons_ne_nil _ _) ?_
  rw [forall_mem_cons, forall_mem_singleton]
  refine ⟨.parameters (by decide) (cons_ne_nil _ _) ?_, .name (by decide)⟩
  rw [forall_mem_cons, forall_mem_singleton]
  exact ⟨.name (by decide), .integer holds⟩

theorem nestedTree_read_back : (nestedTree (-3)).display = "a.b[c._d1.E[f.g, -3], h.Union]" ∧
    (nestedTree (-3)).IsTree (fun _ => True) ∧ Source.IsShort (-3) ∧
    ∃ q, (hintOfText (nestedTree (-3)).display.toList).outcome nowhere outside =
      (.ok (nestedTree (-3)), q) := by
  have short : Source.IsShort (-3) := by decide
  exact ⟨by decide, isTree_nestedTree trivial, short,
    (displayed_tree_read_iff rfl isOutside_outside (isTree_nestedTree trivial)).mpr
      (isTree_nestedTree short)⟩

theorem long_pow {k : Nat} (hk : 0 < k) : ¬ (Nat.toDigits 10 ((10 : Int) ^ k).natAbs).length ≤ k := by
  rw [Int.natAbs_pow, Nat.length_toDigits_le_iff (by decide) hk]
  exact Nat.lt_irrefl _

/-- An integer of one digit more than can be read does not come back. -/
theorem long_integer_not_read_back :
    (nestedTree (10 ^ Source.maxIntegerDigits)).IsTree (fun _ => True) ∧
    ¬ ∃ q, (hintOfText (nestedTree (10 ^ Source.maxIntegerDigits)).display.toList).outcome nowhere
      outside = (.ok (nestedTree (10 ^ Source.maxIntegerDigits)), q) := by
  have tree : (nestedTree (10 ^ Source.maxIntegerDigits)).IsTree (fun _ => True) :=
    isTree_nestedTree trivial
  refine ⟨tree, fun read => ?_⟩
  obtain ⟨h', reads, same⟩ := tree.reads
  rw [hintOfText_readsAs rfl isOutside_outside reads, same] at read
  have inner : Source.IsShort (10 ^ Source.maxIntegerDigits) := by
    cases read with
    | parameters _ _ trees =>
      cases trees _ mem_cons_self with
      | parameters _ _ trees => exact (trees _ (.tail _ mem_cons_self)).isShort
  exact long_pow (by decide) inner

end Inspection

end TypeStubs
