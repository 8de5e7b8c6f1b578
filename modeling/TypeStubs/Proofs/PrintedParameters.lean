import TypeStubs.Proofs.SourceParameters

/-! Printed parameters as source text. If hints and defaults are printed as expressions, a printed list
is read as the parameters that it shows. -/

namespace TypeStubs

open Source List

/-- The text behind the equals sign of a parameter. -/
def Printer.default (p : Printer) : Expression → String
  | .value v => if v.printSafe then p.value v else "..."
  | .invalid text => p.invalid text

/-- A text behind a mark, if there is one. -/
def suffix (mark : String) : Option String → List Char
  | none => []
  | some text => mark.toList ++ text.toList

theorem Printer.toList_parameter (p : Printer) (a : Argument) :
    (p.argument a).toList = a.stars.toList ++ (a.displayName.toList ++
      (suffix ": " (a.hint.map p.hint) ++ suffix " = " (a.default.map p.default))) := by
  have equals (c : Bool) (text : String) :
      (if c then " = " ++ text else " = ...") = " = " ++ if c then text else "..." := by
    cases c <;> rfl
  rcases a with ⟨_, _, _, _, _, _ | ⟨v⟩ | ⟨text⟩, _ | h⟩ <;>
    simp [argument, suffix, Printer.default, equals]

namespace Source

theorem endsWord_of_mem {c : Char} (hc : c ∈ [',', ')', ']', ' ', ':', '.', '[']) (rest : List Char) :
    EndsWord (c :: rest) := by
  have all : ∀ c ∈ [',', ')', ']', ' ', ':', '.', '['],
      isNameChar c = false ∧ c ≠ '\'' ∧ c ≠ '"' := forall_of_all (by decide)
  intro d hd
  cases hd
  exact all c hc

section

variable {mark m : String} {text? : Option String} {ts? : Option (List Token)} {c : Char}
  {rest : List Char}

theorem exists_tokens {α : Type} {x? : Option α} {f : α → String}
    (h : ∀ x ∈ x?, IsTerm (f x).toList) :
    ∃ ts?, Option.Rel (fun text ts => IsTermOf text.toList ts) (x?.map f) ts? := by
  cases x? with
  | none => exact ⟨none, .none⟩
  | some x =>
    obtain ⟨ts, term⟩ := h x rfl
    exact ⟨some ts, .some term⟩

variable (h : Option.Rel (fun text ts => IsTermOf text.toList ts) text? ts?)

include h

theorem isSome_tokens : ts?.isSome = text?.isSome := by
  cases h <;> rfl

theorem readsIfAny_tokens : ReadsIfAny ts? := by
  intro ts hts
  cases h with
  | none => cases hts
  | some term =>
    cases hts
    exact term.reads

theorem lexes_suffix (hm : ∀ rest, Lexes [")"] [")"] rest mark.toList [.op m]) (hc : c ∈ termEnds) :
    Lexes [")"] [")"] (c :: rest) (suffix mark text?) (marked m ts?) := by
  cases h with
  | none => exact .nil _ _
  | some term => exact (hm _).append (term.lexes c rest hc)

theorem strings_marked {l : StringLiteral} (hl : .string l ∈ marked m ts?) {depth : Nat}
    (hd : (suffix mark text?).length ≤ depth) : l.valid (areExpressions depth) = true := by
  cases h with
  | none => cases hl
  | some term =>
    rcases mem_cons.mp hl with mark | hl
    · cases mark
    · refine term.strings l hl depth (Nat.le_trans ?_ hd)
      rw [suffix, length_append]
      exact Nat.le_add_left _ _

theorem not_mem_suffix (hc : c = '\r' ∨ c = '\x00') (hm : c ∉ mark.toList) :
    c ∉ suffix mark text? := by
  cases h with
  | none => exact not_mem_nil
  | some term =>
    refine fun hin => (mem_append.mp hin).elim hm ?_
    rcases hc with rfl | rfl
    · exact term.chars.1
    · exact term.chars.2

end

end Source

/-! Some terms. -/

namespace Source

section

variable {t : Token} {e : Expr} {text : List Char}

theorem isTerm_of_atom (lexed : IsLexedAs text [t])
    (ht : t ∉ [.op "+", .op "-", .op "~", .keyword "await", .keyword "not", .keyword "lambda"])
    (read : ∀ (rec : Rec) (rest : List Token), EndsExpression rest →
      (atom rec).run (t :: rest) = some (e, rest)) : IsTerm text := by
  refine ⟨[t], lexed, fun rest hr => ⟨e, ?_⟩⟩
  have other {u : Token} (hu : u ∈ [Token.op "+", .op "-", .op "~", .keyword "await", .keyword "not",
      .keyword "lambda"]) : ([t] ++ rest).head? ≠ some u := by
    intro same
    cases same
    exact ht hu
  have start : (anyPhrase .expression).run ([t] ++ rest) =
      (expression (phrase (rest.length + 1))).run ([t] ++ rest) := rfl
  rw [start]
  generalize phrase (rest.length + 1) = rec
  have first : (primary rec).run ([t] ++ rest) = some (e, rest) := by
    simp [primary, trailers, read rec rest hr, trailer_none hr]
  refine expression_run ?_ hr (other (by simp)) (other (by simp))
  rw [factor_run fun sign hs => other (by revert sign; decide)]
  exact power_run first hr (other (by simp))

end

theorem isTerm_ellipsis : IsTerm "...".toList := by
  have lexed : IsLexedAs "...".toList [.op "..."] := by
    refine ⟨fun c rest _ => ?_, fun l hl => by simp at hl, by decide⟩
    have found : operators.find? (fun o => o.toList.isPrefixOf ('.' :: '.' :: '.' :: c :: rest)) =
        some "..." := by simp [operators]
    exact lexes_token (by decide) (token_operator (by decide) (fun _ => rfl) found) rfl
  exact isTerm_of_atom lexed (by decide) fun rec rest _ => rfl

theorem isTerm_name {n : String} (h : IsName n) : IsTerm n.toList := by
  have ends : ∀ c ∈ termEnds, c ∈ [',', ')', ']', ' ', ':', '.', '['] := forall_of_all (by decide)
  have lexed : IsLexedAs n.toList [.name n] := by
    refine ⟨fun c rest hc => ?_, fun l hl => by simp at hl, fun hin => ?_, fun hin => ?_⟩
    · rw [← h.token]
      exact lexes_word h.identifier (endsWord_of_mem (ends c hc) rest) _
    all_goals
      have letter := nameChars_identifier h.identifier _ hin
      revert letter
      decide
  exact isTerm_of_atom lexed (by simp) fun rec rest _ => rfl

theorem isTerm_encode (cs : List Char) : IsTerm (Quoted.encode cs) := by
  have hq := Quoted.isQuote_mark cs
  have start : Quoted.mark cs ∉ [' ', '\t', '\x0c', '#', '\n', '\\'] ∧ Quoted.mark cs ∉ termEnds := by
    rcases hq with h | h <;> rw [h] <;> decide
  have visible (c : Char) (hc : isPrintable c = false) : c ∉ Quoted.encode cs := fun h =>
    Bool.false_ne_true (hc.symm.trans (Quoted.isPrintable_of_mem_encode h))
  have lexed : IsLexedAs (Quoted.encode cs)
      [.string ⟨false, false, false, Quoted.body (Quoted.mark cs) cs⟩] := by
    refine ⟨fun c rest hc => ?_, fun l hl depth _ => ?_, visible _ (by decide), visible _ (by decide)⟩
    · have read := Quoted.token_encode cs (c :: rest) fun same => start.2 (Option.some.inj same ▸ hc)
      rw [Quoted.encode_eq, cons_append] at read
      rw [Quoted.encode_eq]
      exact lexes_token start.1 read rfl
    · cases mem_singleton.mp hl
      exact Quoted.escapesValid_body hq cs
  refine isTerm_of_atom (e := .constant .text) lexed (by simp) fun rec rest hr => ?_
  obtain ⟨t, rest, rfl, ht⟩ := hr
  simp only [expressionEnds, mem_cons, not_mem_nil, or_false] at ht
  rcases ht with rfl | rfl | rfl | rfl | rfl <;> rfl

end Source

def Argument.starTokens (a : Argument) : List Token :=
  if a.variadic then [.op "*"] else if a.keywordVariadic then [.op "**"] else []

theorem Argument.IsClear.stars_eq {a : Argument} (h : a.IsClear) :
    a.stars.toList = (if a.variadic then ['*'] else if a.keywordVariadic then ['*', '*'] else []) := by
  have single := h.stars
  rw [Argument.stars]
  cases many : a.variadic with
  | true => simp [single many]
  | false => cases a.keywordVariadic <;> rfl

theorem Argument.IsClear.lexes_stars {a : Argument} (h : a.IsClear) {c : Char}
    (start : isIdentifierStart c = true) (rest : List Char) :
    Lexes [")"] [")"] (c :: rest) a.stars.toList a.starTokens := by
  have other (d : Char) (hd : isIdentifierStart d = false) : c ≠ d := by
    rintro rfl
    rw [hd] at start
    cases start
  rw [h.stars_eq, Argument.starTokens]
  split
  · exact Source.lexes_star ⟨other '*' rfl, other '=' rfl⟩ _ _
  · split
    · exact Source.lexes_stars (other '=' rfl) _ _
    · exact .nil _ _

theorem Printer.isLexedAs_argument {p : Printer} {a : Argument} (clear : a.IsClear)
    (name : IsName a.displayName) {hint default : Option (List Token)}
    (hh : Option.Rel (fun text ts => IsTermOf text.toList ts) (a.hint.map p.hint) hint)
    (hd : Option.Rel (fun text ts => IsTermOf text.toList ts) (a.default.map p.default) default) :
    IsLexedAs (p.argument a).toList
      (a.starTokens ++ parameterTokens a.displayName hint default) := by
  have text := p.toList_parameter a
  obtain ⟨d, ds, letters, start⟩ := exists_identifier_start name.identifier
  refine ⟨fun c rest hc => ?_, fun l hl depth enough => ?_, ?_⟩
  · have last : Lexes [")"] [")"] (c :: rest) (suffix " = " (a.default.map p.default))
        (marked "=" default) := lexes_suffix hd (lexes_equals _) hc
    -- What follows the hint is the blank before the equals sign, or what follows the parameter.
    obtain ⟨c', rest', behind, hc'⟩ : ∃ c' rest', suffix " = " (a.default.map p.default) ++ c :: rest =
        c' :: rest' ∧ c' ∈ termEnds := by
      cases a.default with
      | none => exact ⟨c, rest, rfl, hc⟩
      | some d => exact ⟨' ', _, rfl, by decide⟩
    have middle : Lexes [")"] [")"] (suffix " = " (a.default.map p.default) ++ c :: rest)
        (suffix ": " (a.hint.map p.hint)) (marked ":" hint) := by
      rw [behind]
      exact lexes_suffix hh (lexes_colon _) hc'
    have ends : EndsWord (suffix ": " (a.hint.map p.hint) ++
        (suffix " = " (a.default.map p.default) ++ c :: rest)) := by
      cases a.hint with
      | none =>
        have marks : ∀ c ∈ termEnds, c ∈ [',', ')', ']', ' ', ':', '.', '['] :=
          forall_of_all (by decide)
        rw [behind]
        exact endsWord_of_mem (marks c' hc') rest'
      | some h => exact endsWord_of_mem (by decide : ':' ∈ _) _
    have word := lexes_word name.identifier (append_assoc _ _ _ ▸ ends) [")"]
    rw [name.token] at word
    have whole := word.append (middle.append last)
    have stars := clear.lexes_stars start
      (ds ++ (suffix ": " (a.hint.map p.hint) ++ suffix " = " (a.default.map p.default)) ++ c :: rest)
    rw [text]
    refine Lexes.append ?_ whole
    rw [letters]
    exact stars
  · have hl : .string l ∈ marked ":" hint ++ marked "=" default := by
      rcases mem_append.mp hl with stars | hl
      · rw [Argument.starTokens] at stars
        split at stars
        · simp at stars
        · split at stars <;> simp at stars
      · simpa [parameterTokens] using hl
    rw [text] at enough
    simp only [length_append] at enough
    rcases mem_append.mp hl with hl | hl
    · have short : (suffix ": " (a.hint.map p.hint)).length ≤ depth := by omega
      exact strings_marked hh hl short
    · have short : (suffix " = " (a.default.map p.default)).length ≤ depth := by omega
      exact strings_marked hd hl short
  · have absent (c : Char) (hc : c = '\r' ∨ c = '\x00') (plain : c ∉ a.stars.toList)
        (other : isNameChar c = false) (marks : c ∉ ": ".toList ∧ c ∉ " = ".toList) :
        c ∉ (p.argument a).toList := by
      rw [text]
      simp only [mem_append, not_or]
      refine ⟨plain, fun hin => ?_, not_mem_suffix hh hc marks.1, not_mem_suffix hd hc marks.2⟩
      rw [nameChars_identifier name.identifier c hin] at other
      cases other
    have stars (c : Char) (hc : c ≠ '*') : c ∉ a.stars.toList := by
      rw [clear.stars_eq]
      split
      · simpa using hc
      · split <;> simp [hc]
    exact ⟨absent _ (.inl rfl) (stars _ (by decide)) (by decide) (by decide),
      absent _ (.inr rfl) (stars _ (by decide)) (by decide) (by decide)⟩

/-! Reading the printed parameters. -/

/-- The parameter as it is read, with a slash for nothing. -/
def Parameter.asRead (x : Parameter Object) : ReadParameter :=
  ⟨x.name, x.kind.withoutSlash, x.default.isSome⟩

/-- The argument has the name and the flags of the parameter, and a default or hint if it has one. -/
structure Parameter.IsShown (x : Parameter Object) (a : Argument) : Prop where
  name : a.name = some x.name
  position : a.positionOnly = false
  keyword : a.keywordOnly = decide (x.kind = .keywordOnly)
  many : a.variadic = decide (x.kind = .variadic)
  manyByKeyword : a.keywordVariadic = decide (x.kind = .keywordVariadic)
  default : a.default.isSome = x.default.isSome
  hint : a.hint.isSome = x.hint.isSome

/-- A parameter that a signature may have. -/
structure Parameter.IsLegal (x : Parameter Object) : Prop where
  name : IsName x.name
  bare : x.kind = .variadic ∨ x.kind = .keywordVariadic → x.default = none

instance (x : Parameter Object) : Decidable x.IsLegal :=
  decidable_of_iff (IsName x.name ∧ (x.kind = .variadic ∨ x.kind = .keywordVariadic → x.default = none))
    ⟨fun h => ⟨h.1, h.2⟩, fun h => ⟨h.name, h.bare⟩⟩

/-- The hint of a parameter is printed as an expression, and so is a default that is not printed as
dots. -/
structure Printer.WritesTerms (p : Printer) (a : Argument) : Prop where
  hint : ∀ h ∈ a.hint, IsTerm (p.hint h).toList
  default : ∀ d ∈ a.default, p.default d = "..." ∨ IsTerm (p.default d).toList

/-- Where a parameter leads when it is read. -/
inductive Parameter.Leads (x : Parameter Object) : ParameterPlace → ParameterPlace → Prop
  | positional {before : Bool} (any slash : Bool) : x.kind.rank ≤ 1 →
      (before = true → x.default.isSome = true) →
      Leads x (.ordinary any before slash) (.ordinary true (before || x.default.isSome) slash)
  | variadic (any before slash : Bool) : x.kind = .variadic →
      Leads x (.ordinary any before slash) (.keywords false)
  | keywordOnly (needed : Bool) : x.kind = .keywordOnly → Leads x (.keywords needed) (.keywords false)
  | keywordVariadic {place : ParameterPlace} : x.kind = .keywordVariadic →
      place ≠ .done ∧ place ≠ .keywords true → Leads x place .done

section

variable {p : Printer} {x : Parameter Object} {a : Argument}

theorem Parameter.IsShown.displayName (h : x.IsShown a) : a.displayName = x.name := by
  rw [Argument.displayName, h.name]
  rfl

theorem Parameter.IsShown.isClear (h : x.IsShown a) (legal : x.IsLegal) : a.IsClear := by
  refine ⟨?_, fun many => ?_, fun position => ?_⟩
  · rw [h.displayName]
    exact legal.name.identifier
  · have kind : x.kind = .variadic := by simpa [h.many] using many
    simp [h.manyByKeyword, kind]
  · rw [h.position] at position
    cases position

theorem Parameter.IsShown.reads (h : x.IsShown a) (legal : x.IsLegal) (terms : p.WritesTerms a)
    {place place' : ParameterPlace} (leads : x.Leads place place') :
    ∃ ts, IsLexedAs (p.argument a).toList ts ∧ ReadsPart place place' ts (.one x.asRead) := by
  obtain ⟨hint, hh⟩ := exists_tokens terms.hint
  obtain ⟨default, hd⟩ := exists_tokens fun d hd => (terms.default d hd).elim (· ▸ isTerm_ellipsis) id
  have name : IsName a.displayName := h.displayName ▸ legal.name
  have lexed := Printer.isLexedAs_argument (h.isClear legal) name hh hd
  have given : default.isSome = x.default.isSome := by
    rw [isSome_tokens hd, Option.isSome_map, h.default]
  have readHint := readsIfAny_tokens hh
  have readDefault := readsIfAny_tokens hd
  have bare (kind : x.kind = .variadic ∨ x.kind = .keywordVariadic) : default = none := by
    rw [legal.bare kind] at given
    exact Option.not_isSome_iff_eq_none.mp (by simp [given])
  rw [h.displayName] at lexed
  refine ⟨_, lexed, ?_⟩
  rw [Argument.starTokens, h.many, h.manyByKeyword, Parameter.asRead, ← given]
  cases leads with
  | positional any slash early order =>
    have kinds : x.kind = .positionOnly ∨ x.kind = .plain := by
      revert early
      cases x.kind <;> decide
    rw [← given] at order ⊢
    rcases kinds with kind | kind <;> rw [kind] <;> exact readsPart_plain readHint readDefault order
  | variadic any before slash kind =>
    rw [kind, bare (.inl kind)]
    exact readsPart_variadic readHint any before slash
  | keywordOnly needed kind =>
    rw [kind]
    exact readsPart_keyword readHint readDefault needed
  | keywordVariadic kind open? =>
    rw [kind, bare (.inr kind)]
    exact readsPart_keywordVariadic readHint open?

end

/-- From a place on, the texts are read as these parameters. -/
def ReadAs (place : ParameterPlace) (texts : List String) (ps : List ReadParameter) : Prop :=
  ∃ (parts : List (List Char × List Token)) (read : List ParameterPart) (final : ParameterPlace),
    parts.map Prod.fst = texts.map String.toList ∧ (∀ x ∈ parts, IsLexedAs x.1 x.2) ∧
    ReadsParts place (parts.map Prod.snd) read final ∧ final ≠ .keywords true ∧
    ∀ before, read.foldl ParameterPart.addTo before = before ++ ps

namespace ReadAs

variable {place place' : ParameterPlace} {texts : List String} {ps : List ReadParameter}

protected theorem nil (h : place ≠ .keywords true) : ReadAs place [] [] :=
  ⟨[], [], place, rfl, forall_mem_nil _, .nil place, h, fun before => by simp⟩

protected theorem cons {text : String} {ts : List Token} {q : ReadParameter}
    (lexed : IsLexedAs text.toList ts) (read : ReadsPart place place' ts (.one q))
    (h : ReadAs place' texts ps) : ReadAs place (text :: texts) (q :: ps) := by
  obtain ⟨parts, others, final, same, all, reads, ends, added⟩ := h
  refine ⟨(text.toList, ts) :: parts, .one q :: others, final, by simp [same],
    forall_mem_cons.mpr ⟨lexed, all⟩, .cons read reads, ends, fun before => ?_⟩
  rw [foldl_cons, added, ParameterPart.addTo, append_assoc, singleton_append]

theorem isLexedAs_star : IsLexedAs "*".toList [.op "*"] := by
  have others : ∀ c ∈ termEnds, c ≠ '*' ∧ c ≠ '=' := forall_of_all (by decide)
  refine ⟨fun c rest hc => lexes_star (others c hc) _ _, fun l hl => ?_, by decide⟩
  simp at hl

protected theorem star (any before slash : Bool) (hne : texts ≠ [])
    (h : ReadAs (.keywords true) texts ps) : ReadAs (.ordinary any before slash) ("*" :: texts) ps := by
  obtain ⟨parts, others, final, same, all, reads, ends, added⟩ := h
  have some : parts.map Prod.snd ≠ [] := by
    intro none
    rw [map_eq_nil_iff.mp none] at same
    exact hne (map_eq_nil_iff.mp same.symm)
  exact ⟨("*".toList, [.op "*"]) :: parts, .star :: others, final, by simp [same],
    forall_mem_cons.mpr ⟨isLexedAs_star, all⟩, .star any before slash some reads, ends, added⟩

theorem signature? (h : ReadAs (.ordinary false false false) texts ps) :
    Source.signature? (joinWith ", " texts).toList = some ps := by
  obtain ⟨parts, read, final, same, all, reads, ends, added⟩ := h
  rw [joinWith, String.toList_intercalate, ← same, signature?_parts all reads ends, added]
  rfl

end ReadAs

/-- Two parameters that may follow each other: no kind of star comes twice, and positional parameters
without defaults do not come behind others with defaults. -/
structure Parameter.MayPrecede (x y : Parameter Object) : Prop where
  order : x.kind.rank ≤ y.kind.rank
  once : x.kind = y.kind → x.kind ≠ .variadic ∧ x.kind ≠ .keywordVariadic
  default : y.kind.rank ≤ 1 → x.default.isSome = true → y.default.isSome = true

instance (x y : Parameter Object) : Decidable (x.MayPrecede y) :=
  decidable_of_iff (x.kind.rank ≤ y.kind.rank ∧
      (x.kind = y.kind → x.kind ≠ .variadic ∧ x.kind ≠ .keywordVariadic) ∧
      (y.kind.rank ≤ 1 → x.default.isSome = true → y.default.isSome = true))
    ⟨fun h => ⟨h.1, h.2.1, h.2.2⟩, fun h => ⟨h.order, h.once, h.default⟩⟩

section

variable {p : Printer} {xs : List (Parameter Object)} {as : List Argument}

theorem eq_nil_of_last {x : Parameter Object} (kind : x.kind = .keywordVariadic)
    (pairs : ∀ y ∈ xs, x.MayPrecede y) : xs = [] := by
  refine eq_nil_iff_forall_not_mem.mpr fun y hy => ?_
  have pair := pairs y hy
  have order := pair.order
  have once := pair.once
  rw [kind] at order once
  cases other : y.kind <;> rw [other] at order once
  case keywordVariadic => exact (once rfl).2 rfl
  all_goals exact absurd order (by decide)

section

variable (shown : Forall₂ Parameter.IsShown xs as) (legal : ∀ x ∈ xs, x.IsLegal)
  (terms : ∀ a ∈ as, p.WritesTerms a) (pairs : xs.Pairwise Parameter.MayPrecede)
include shown legal terms pairs

theorem reads_keywords (late : ∀ x ∈ xs, 3 ≤ x.kind.rank) {needed : Bool}
    (first : needed = true → ∃ x ∈ xs.head?, x.kind = .keywordOnly) :
    ReadAs (.keywords needed) (as.map p.argument) (xs.map Parameter.asRead) := by
  induction shown generalizing needed with
  | nil =>
    refine .nil fun same => ?_
    cases same
    obtain ⟨x, hx, -⟩ := first rfl
    cases hx
  | @cons x a xs as h shown ih =>
    obtain ⟨legal, others⟩ := forall_mem_cons.mp legal
    obtain ⟨term, terms⟩ := forall_mem_cons.mp terms
    obtain ⟨pair, pairs⟩ := pairwise_cons.mp pairs
    obtain ⟨early, late⟩ := forall_mem_cons.mp late
    cases kind : x.kind with
    | keywordOnly =>
      obtain ⟨ts, lexed, read⟩ := h.reads legal term (.keywordOnly needed kind)
      exact .cons lexed read (ih others terms pairs late fun no => by cases no)
    | keywordVariadic =>
      have plain : needed = false := by
        cases needed with
        | false => rfl
        | true =>
          obtain ⟨y, hy, keyword⟩ := first rfl
          cases hy
          rw [kind] at keyword
          cases keyword
      subst plain
      have leads : x.Leads (.keywords false) .done := .keywordVariadic kind (by decide)
      obtain ⟨ts, lexed, read⟩ := h.reads legal term leads
      cases eq_nil_of_last kind pair
      cases shown
      exact .cons lexed read (.nil (by decide))
    | positionOnly | plain | variadic =>
      rw [kind] at early
      exact absurd early (by decide)

theorem reads_marked {any before : Bool}
    (order : before = true → ∀ x ∈ xs, x.kind.rank ≤ 1 → x.default.isSome = true) :
    ReadAs (.ordinary any before false) (p.markedArguments true false as)
      (xs.map Parameter.asRead) := by
  induction shown generalizing any before with
  | nil => exact .nil (by simp)
  | @cons x a xs as h shown ih =>
    have whole : Forall₂ Parameter.IsShown (x :: xs) (a :: as) := .cons h shown
    obtain ⟨legal₁, others⟩ := forall_mem_cons.mp legal
    obtain ⟨term, terms'⟩ := forall_mem_cons.mp terms
    obtain ⟨pair, pairs'⟩ := pairwise_cons.mp pairs
    have keyword := h.keyword
    have many := h.many
    -- Behind a parameter with this kind come only those that a star comes before.
    have later (kind : 2 ≤ x.kind.rank) : ∀ y ∈ xs, 3 ≤ y.kind.rank := by
      intro y hy
      have order := (pair y hy).order
      have once := (pair y hy).once
      revert kind order once
      cases x.kind <;> cases y.kind <;> simp [ParameterKind.rank]
    cases kind : x.kind with
    | positionOnly | plain =>
      rw [kind] at keyword many
      have early : x.kind.rank ≤ 1 := by rw [kind]; decide
      obtain ⟨ts, lexed, read⟩ := h.reads legal₁ term
        (.positional any false early fun hb => order hb x mem_cons_self early)
      have rest : p.markedArguments true false (a :: as) =
          p.argument a :: p.markedArguments true false as := by
        simp [Printer.markedArguments, keyword, many]
      rw [rest]
      refine .cons lexed read (ih others terms' pairs' fun hb y hy hk => ?_)
      rcases Bool.or_eq_true_iff.mp hb with hb | given
      · exact order hb y (.tail _ hy) hk
      · exact (pair y hy).default hk given
    | variadic =>
      rw [kind] at keyword many
      obtain ⟨ts, lexed, read⟩ := h.reads legal₁ term (.variadic any before false kind)
      have rest : p.markedArguments true false (a :: as) = p.argument a :: as.map p.argument := by
        simp [Printer.markedArguments, keyword, many, Printer.markedArguments_done]
      rw [rest]
      refine .cons lexed read (reads_keywords shown others terms' pairs' ?_ fun no => by cases no)
      exact later (by rw [kind]; decide)
    | keywordOnly =>
      rw [kind] at keyword many
      have rest : p.markedArguments true false (a :: as) = "*" :: (a :: as).map p.argument := by
        simp [Printer.markedArguments, keyword, many, Printer.markedArguments_done]
      rw [rest]
      refine .star any before false (by simp) (reads_keywords whole legal terms pairs ?_ fun _ => ?_)
      · refine forall_mem_cons.mpr ⟨by rw [kind]; decide, later (by rw [kind]; decide)⟩
      · exact ⟨x, rfl, kind⟩
    | keywordVariadic =>
      rw [kind] at keyword many
      have leads : x.Leads (.ordinary any before false) .done :=
        .keywordVariadic kind ⟨by simp, by simp⟩
      obtain ⟨ts, lexed, read⟩ := h.reads legal₁ term leads
      cases eq_nil_of_last kind pair
      cases shown
      have rest : p.markedArguments true false [a] = [p.argument a] := by
        simp [Printer.markedArguments, keyword, many]
      rw [rest]
      exact .cons lexed read (.nil (by decide))

theorem Printer.signature?_parameters : Source.signature? (joinWith ", " (p.parameters as)).toList =
      some (xs.map Parameter.asRead) := by
  have each : ∀ a ∈ as, a.IsClear ∧ a.positionOnly = false := by
    clear terms pairs
    induction shown with
    | nil => exact forall_mem_nil _
    | cons h _ ih =>
      obtain ⟨first, others⟩ := forall_mem_cons.mp legal
      exact forall_mem_cons.mpr ⟨⟨h.isClear first, h.position⟩, ih others⟩
  have marks := p.parameters_positions (fun a ha => (each a ha).1 : ∀ a ∈ [] ++ as, a.IsClear)
    (forall_mem_nil _) fun a ha => (each a (mem_of_mem_head? ha)).2
  simp only [nil_append, map_nil, isEmpty_nil, Bool.true_or, if_true] at marks
  rw [marks]
  exact (reads_marked shown legal terms pairs fun no => by cases no).signature?

end

end

end TypeStubs
