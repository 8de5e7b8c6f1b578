import TypeStubs.Object
import TypeStubs.Proofs.Nestings
import TypeStubs.Stub.Printer

/-! The kinds of parameters in a printed signature. A slash makes everything before it position-only,
and a star everything after it keyword-only. Read like this, all parameters have the kinds that they
had, unless the slash is missing: it is only printed before a parameter, and not before one that
takes many values. -/

namespace TypeStubs

open List

variable {text : String}

/-! The kinds that parameters have. -/

/-- The kind of a parameter. After one that takes many values, the others are keyword-only. -/
def Argument.kind (after : Bool) (a : Argument) : ParameterKind :=
  if a.variadic then .variadic
  else if a.keywordVariadic then .keywordVariadic
  else if after || a.keywordOnly then .keywordOnly
  else if a.positionOnly then .positionOnly
  else .plain

def kindsFrom (after : Bool) : List Argument → List ParameterKind
  | [] => []
  | a :: as => a.kind after :: kindsFrom (after || a.variadic) as

def Function.kinds (f : Function) : List ParameterKind := kindsFrom false f.arguments

/-- The parameter has a name, and no two kinds at once. What takes many values by keyword may also be
marked as keyword-only. -/
structure Argument.IsClear (a : Argument) : Prop where
  name : isIdentifier a.displayName = true
  stars : a.variadic = true → a.keywordVariadic = false
  position : a.positionOnly = true →
    a.keywordOnly = false ∧ a.variadic = false ∧ a.keywordVariadic = false

instance (a : Argument) : Decidable a.IsClear :=
  decidable_of_iff (isIdentifier a.displayName = true ∧
      (a.variadic = true → a.keywordVariadic = false) ∧ (a.positionOnly = true →
        a.keywordOnly = false ∧ a.variadic = false ∧ a.keywordVariadic = false))
    ⟨fun h => ⟨h.1, h.2.1, h.2.2⟩, fun h => ⟨h.name, h.stars, h.position⟩⟩

/-- The parameters stand in the order of their kinds. -/
structure Function.InOrder (f : Function) : Prop where
  clear : ∀ a ∈ f.arguments, a.IsClear
  sorted : f.kinds.Pairwise fun k l => k.rank ≤ l.rank

instance (f : Function) : Decidable f.InOrder :=
  decidable_of_iff ((∀ a ∈ f.arguments, a.IsClear) ∧ f.kinds.Pairwise fun k l => k.rank ≤ l.rank)
    ⟨fun h => ⟨h.1, h.2⟩, fun h => ⟨h.clear, h.sorted⟩⟩

/-- The position-only parameters end the list, or one that takes many values follows. -/
def losesSlash (kinds : List ParameterKind) : Bool :=
  kinds.contains .positionOnly && (kinds.find? (· != .positionOnly)).all (· == .variadic)

def ParameterKind.withoutSlash : ParameterKind → ParameterKind
  | .positionOnly => .plain
  | k => k

def Function.printedKinds (f : Function) : List ParameterKind :=
  if losesSlash f.kinds then f.kinds.map ParameterKind.withoutSlash else f.kinds

/-! Reading a signature. -/

/-- What stands between two commas of a signature. -/
inductive Mark where
  | slash
  | star
  | many
  | manyByKeyword
  | one

def Mark.ofText (text : String) : Mark :=
  match text.toList with
  | ['/'] => .slash
  | ['*'] => .star
  | '*' :: '*' :: _ => .manyByKeyword
  | '*' :: _ => .many
  | _ => .one

/-- Reads the rest of a signature after some parameters. A slash makes all of them position-only. A
star or a parameter that takes many values makes those after it keyword-only. -/
def readParameters (before : List (String × ParameterKind)) (starred : Bool) :
    List String → List (String × ParameterKind)
  | [] => before
  | text :: texts =>
    match Mark.ofText text with
    | .slash => readParameters (before.map fun x => (x.1, .positionOnly)) starred texts
    | .star => readParameters before true texts
    | .many => readParameters (before ++ [(text, .variadic)]) true texts
    | .manyByKeyword => readParameters (before ++ [(text, .keywordVariadic)]) starred texts
    | .one => readParameters (before ++ [(text, if starred then .keywordOnly else .plain)]) starred
        texts

/-- Reads the text between the parentheses of a signature, if all brackets and quotes are closed. -/
def readSignature (text : String) : Option (List (String × ParameterKind)) :=
  if text = "" then some []
  else (pieces? ',' text.toList).map fun pieces =>
    readParameters [] false (pieces.map fun piece => String.ofList (piece.dropWhile (· = ' ')))

def Argument.readKind (starred : Bool) (a : Argument) : ParameterKind :=
  if a.variadic then .variadic
  else if a.keywordVariadic then .keywordVariadic
  else if starred then .keywordOnly else .plain

theorem Argument.kind_of_rank (a : Argument) (h : 3 ≤ (a.kind false).rank) :
    a.variadic = false ∧ a.kind true = a.kind false := by
  rw [kind] at h
  split at h
  · exact absurd h (by decide)
  rename_i one
  rw [Bool.not_eq_true] at one
  refine ⟨one, ?_⟩
  split at h
  · rename_i byKeyword
    simp [kind, one, byKeyword]
  split at h
  · rename_i keyword
    rw [Bool.false_or] at keyword
    simp [kind, one, keyword]
  split at h
  · exact absurd h (by decide)
  · exact absurd h (by decide)

theorem read_star (before : List (String × ParameterKind)) (starred : Bool) (texts : List String) :
    readParameters before starred ("*" :: texts) = readParameters before true texts := rfl

theorem read_slash (before : List (String × ParameterKind)) (starred : Bool) (texts : List String) :
    readParameters before starred ("/" :: texts) =
      readParameters (before.map fun x => (x.1, .positionOnly)) starred texts := rfl

namespace Printer

variable {p : Printer} {a : Argument} {as : List Argument}

theorem toList_argument (h : a.IsClear) : ∃ c rest,
    (p.argument a).toList = a.stars.toList ++ c :: rest ∧ isIdentifierStart c = true := by
  obtain ⟨c, rest, name, start⟩ := exists_identifier_start h.name
  obtain ⟨more, text⟩ : ∃ more, p.argument a = a.stars ++ (a.displayName ++ more) :=
    ⟨_, by rw [argument, String.append_assoc, String.append_assoc]⟩
  refine ⟨c, rest ++ more.toList, ?_, start⟩
  rw [text, String.toList_append, String.toList_append, name, cons_append]

theorem mark_argument (h : a.IsClear) : Mark.ofText (p.argument a) =
    if a.variadic then .many else if a.keywordVariadic then .manyByKeyword else .one := by
  obtain ⟨c, rest, text, start⟩ := toList_argument (p := p) h
  have notStar : c ≠ '*' := by
    rintro rfl
    cases start
  have notSlash : c ≠ '/' := by
    rintro rfl
    cases start
  rw [Mark.ofText, text, Argument.stars]
  cases many : a.variadic with
  | true =>
    rw [h.stars many]
    simp [notStar]
  | false =>
    cases byKeyword : a.keywordVariadic with
    | true => simp
    | false =>
      have one : Mark.ofText (String.ofList (c :: rest)) = .one := by
        rw [Mark.ofText, String.toList_ofList]
        split
        · rename_i slash
          exact absurd (List.cons.inj slash).1 notSlash
        · rename_i star
          exact absurd (List.cons.inj star).1 notStar
        · rename_i star
          exact absurd (List.cons.inj star).1 notStar
        · rename_i star
          exact absurd (List.cons.inj star).1 notStar
        · rfl
      simpa [Mark.ofText] using one

/-! Reading printed parameters. -/

theorem read_argument (h : a.IsClear) (before : List (String × ParameterKind)) (starred : Bool)
    (texts : List String) :
    readParameters before starred (p.argument a :: texts) = readParameters
      (before ++ [(p.argument a, a.readKind starred)]) (starred || a.variadic) texts := by
  rw [readParameters, mark_argument h, Argument.readKind]
  cases a.variadic with
  | true => simp
  | false =>
    cases a.keywordVariadic with
    | true => simp
    | false => simp

theorem markedArguments_done (as : List Argument) :
    p.markedArguments true true as = as.map p.argument := by
  induction as with
  | nil => rfl
  | cons a as ih =>
    rw [markedArguments]
    simpa using ih

theorem read_starred (clear : ∀ a ∈ as, a.IsClear) (before : List (String × ParameterKind)) :
    readParameters before true (as.map p.argument) =
      before ++ (as.map p.argument).zip (kindsFrom true as) := by
  induction as generalizing before with
  | nil => exact (append_nil before).symm
  | cons a as ih =>
    obtain ⟨first, rest⟩ := forall_mem_cons.mp clear
    have same : a.readKind true = a.kind true := rfl
    rw [map_cons, read_argument first, Bool.true_or, ih rest, same, append_assoc]
    rfl

theorem kindsFrom_of_rank (late : ∀ k ∈ kindsFrom false as, 3 ≤ k.rank) :
    kindsFrom true as = kindsFrom false as := by
  induction as with
  | nil => rfl
  | cons a as ih =>
    obtain ⟨first, rest⟩ := forall_mem_cons.mp late
    obtain ⟨one, same⟩ := a.kind_of_rank first
    rw [one] at rest
    rw [kindsFrom, kindsFrom, same, one, Bool.true_or, Bool.or_false, ih rest]

theorem read_rest (clear : ∀ a ∈ as, a.IsClear)
    (sorted : (kindsFrom false as).Pairwise fun k l => k.rank ≤ l.rank)
    (behind : .positionOnly ∉ kindsFrom false as) (before : List (String × ParameterKind)) :
    readParameters before false (p.markedArguments true false as) =
      before ++ (as.map p.argument).zip (kindsFrom false as) := by
  induction as generalizing before with
  | nil => exact (append_nil before).symm
  | cons a as ih =>
    obtain ⟨first, rest⟩ := forall_mem_cons.mp clear
    rw [kindsFrom, pairwise_cons] at sorted
    rw [kindsFrom, mem_cons, not_or] at behind
    rw [markedArguments, kindsFrom, map_cons, zip_cons_cons]
    -- A parameter that takes many values and a star both end the part without keywords.
    cases many : a.variadic with
    | true =>
      have read : a.readKind false = a.kind false := by simp [Argument.readKind, Argument.kind, many]
      simp only [Bool.or_true, Bool.true_or, Bool.not_true, Bool.false_and, Bool.false_eq_true,
        reduceIte, nil_append]
      rw [read_argument first, many, Bool.or_true, markedArguments_done, read_starred rest, read,
        append_assoc, singleton_append]
    | false =>
      rw [many] at sorted behind
      cases keyword : a.keywordOnly with
      | true =>
        have read : a.readKind true = a.kind false := by
          simp [Argument.readKind, Argument.kind, many, keyword]
        have late : 3 ≤ (a.kind false).rank := by
          rw [← read, Argument.readKind, many]
          cases a.keywordVariadic <;> decide
        have starred : kindsFrom true as = kindsFrom false as :=
          kindsFrom_of_rank fun k hk => Nat.le_trans late (sorted.1 k hk)
        simp only [Bool.or_false, Bool.not_true, Bool.not_false, Bool.false_and, Bool.true_and,
          Bool.false_eq_true, reduceIte, nil_append, singleton_append, Bool.or_true]
        rw [read_star, read_argument first, Bool.true_or, markedArguments_done, read_starred rest,
          read, starred, append_assoc, singleton_append]
      | false =>
        have read : a.readKind false = a.kind false := by
          simp only [Argument.readKind, Argument.kind, many, keyword, Bool.or_false] at behind ⊢
          grind
        simp only [Bool.or_false, Bool.not_true, Bool.and_false, Bool.false_and,
          Bool.false_eq_true, reduceIte, nil_append]
        rw [read_argument first, many, Bool.or_false, ih rest sorted.2 behind.2, read,
          append_assoc, singleton_append]

/-! The position-only parameters. -/

theorem argument_ne_slash (h : a.IsClear) : p.argument a ≠ "/" := by
  intro same
  have mark := mark_argument (p := p) h
  rw [same] at mark
  split at mark
  · cases mark
  · split at mark
    · cases mark
    · cases mark

theorem keep_front (h : text ≠ "/") (texts : List String) : (match text :: texts with
      | "/" :: rest => rest
      | texts => texts) = text :: texts := by
  split
  · rename_i rest same
    exact absurd (List.cons.inj same).1 h
  · rfl

section

variable {positions : List Argument}

section

variable (clear : ∀ a ∈ positions, a.IsClear) (all : ∀ a ∈ positions, a.positionOnly = true)
include clear all

theorem markedArguments_positions (as : List Argument) :
    p.markedArguments false false (positions ++ as) =
      positions.map p.argument ++ p.markedArguments false false as := by
  induction positions with
  | nil => rfl
  | cons a positions ih =>
    obtain ⟨first, rest⟩ := forall_mem_cons.mp clear
    obtain ⟨position, others⟩ := forall_mem_cons.mp all
    obtain ⟨keyword, many, -⟩ := first.position position
    rw [cons_append, markedArguments, position, keyword, many]
    simpa using ih rest others

theorem kindsFrom_positions (as : List Argument) :
    kindsFrom false (positions ++ as) =
      positions.map (fun _ => .positionOnly) ++ kindsFrom false as := by
  induction positions with
  | nil => rfl
  | cons a positions ih =>
    obtain ⟨first, rest⟩ := forall_mem_cons.mp clear
    obtain ⟨position, others⟩ := forall_mem_cons.mp all
    obtain ⟨keyword, many, byKeyword⟩ := first.position position
    rw [cons_append, kindsFrom, Argument.kind, position, keyword, many, byKeyword]
    simpa using ih rest others

theorem read_positions (before : List (String × ParameterKind))
    (texts : List String) : readParameters before false (positions.map p.argument ++ texts) =
      readParameters (before ++ positions.map fun a => (p.argument a, .plain)) false texts := by
  induction positions generalizing before with
  | nil => rw [map_nil, map_nil, append_nil, nil_append]
  | cons a positions ih =>
    obtain ⟨first, rest⟩ := forall_mem_cons.mp clear
    obtain ⟨position, others⟩ := forall_mem_cons.mp all
    obtain ⟨-, many, byKeyword⟩ := first.position position
    have later := ih rest others (before ++ [(p.argument a, .plain)])
    rw [append_assoc, singleton_append] at later
    rw [map_cons, cons_append, read_argument first, Argument.readKind, many, byKeyword]
    exact later

end

/-- A slash is due before the first other parameter, unless that one takes many values. -/
theorem markedArguments_slash (first : ∀ a ∈ as.head?, a.positionOnly = false) :
    p.markedArguments false false as =
      (if as.head?.all (·.variadic) then [] else ["/"]) ++ p.markedArguments true false as := by
  cases as with
  | nil => rfl
  | cons a as =>
    have other : a.positionOnly = false := first a rfl
    cases many : a.variadic with
    | true => simp [markedArguments, many]
    | false => simp [markedArguments, many, other]

/-- The slash stands between the position-only parameters and the others, if there are any of the
former and the latter do not start with one that takes many values. -/
theorem parameters_positions (clear : ∀ a ∈ positions ++ as, a.IsClear)
    (all : ∀ a ∈ positions, a.positionOnly = true)
    (first : ∀ a ∈ as.head?, a.positionOnly = false) :
    p.parameters (positions ++ as) = positions.map p.argument ++
      ((if positions.isEmpty || as.head?.all (·.variadic) then [] else ["/"]) ++
        p.markedArguments true false as) := by
  obtain ⟨clear, others⟩ := forall_mem_append.mp clear
  rw [parameters, markedArguments_positions clear all, markedArguments_slash first]
  cases positions with
  | cons a positions => exact keep_front (argument_ne_slash (clear a mem_cons_self)) _
  | nil =>
    cases as with
    | nil => rfl
    | cons a as =>
      cases many : a.variadic with
      | true =>
        rw [markedArguments]
        simp only [head?_cons, Option.all_some, many]
        exact keep_front (argument_ne_slash (others a mem_cons_self)) _
      | false =>
        simp only [head?_cons, Option.all_some, many]
        rfl

/-- The slash is missing if there are position-only parameters and nothing or a parameter that takes
many values comes after them. -/
theorem losesSlash_positions (behind : .positionOnly ∉ kindsFrom false as) :
    losesSlash (positions.map (fun _ => .positionOnly) ++ kindsFrom false as) =
      (!positions.isEmpty && as.head?.all (·.variadic)) := by
  have skipped : (positions.map fun _ => ParameterKind.positionOnly).find? (· != .positionOnly) =
      none := by simp
  have next : ((kindsFrom false as).find? (· != .positionOnly)).all (· == .variadic) =
      as.head?.all (·.variadic) := by
    cases as with
    | nil => rfl
    | cons a as =>
      rw [kindsFrom, mem_cons, not_or] at behind
      rw [kindsFrom, find?_cons_of_pos (by simpa using Ne.symm behind.1)]
      simp only [Option.all_some, head?_cons, Argument.kind]
      cases a.variadic <;> grind
  rw [losesSlash, find?_append, skipped, Option.none_or, next]
  cases positions with
  | nil => simp [behind]
  | cons a positions => simp

end

end Printer

theorem exists_positions (as : List Argument) : ∃ positions others, as = positions ++ others ∧
    (∀ a ∈ positions, a.positionOnly = true) ∧ ∀ a ∈ others.head?, a.positionOnly = false := by
  induction as with
  | nil => exact ⟨[], [], rfl, forall_mem_nil _, by simp⟩
  | cons a as ih =>
    cases position : a.positionOnly with
    | false =>
      refine ⟨[], a :: as, rfl, forall_mem_nil _, ?_⟩
      rintro _ ⟨⟩
      exact position
    | true =>
      obtain ⟨positions, others, rfl, all, first⟩ := ih
      exact ⟨a :: positions, others, rfl, forall_mem_cons.mpr ⟨position, all⟩, first⟩

theorem not_mem_kindsFrom {as : List Argument}
    (sorted : (kindsFrom false as).Pairwise fun k l => k.rank ≤ l.rank)
    (first : ∀ a ∈ as.head?, a.positionOnly = false) : .positionOnly ∉ kindsFrom false as := by
  cases as with
  | nil => exact not_mem_nil
  | cons a as =>
    have other : a.positionOnly = false := first a rfl
    have late : 0 < (a.kind false).rank := by
      rw [Argument.kind, other]
      cases a.variadic <;> cases a.keywordVariadic <;> cases a.keywordOnly <;> decide
    rw [kindsFrom, pairwise_cons] at sorted
    rw [kindsFrom, mem_cons]
    rintro (same | later)
    · rw [← same] at late
      cases late
    · exact absurd (sorted.1 _ later) (Nat.not_le_of_lt late)

/-- A parameter that is printed before a slash is position-only, and one that is not is plain. -/
theorem Function.InOrder.printedKinds_eq {f : Function} (h : f.InOrder) {positions as : List Argument}
    (split : f.arguments = positions ++ as) (all : ∀ a ∈ positions, a.positionOnly = true)
    (behind : .positionOnly ∉ kindsFrom false as) :
    f.printedKinds = positions.map (fun _ =>
      if positions.isEmpty || as.head?.all (·.variadic) then .plain else .positionOnly) ++
        kindsFrom false as := by
  have clear : ∀ a ∈ positions, a.IsClear := fun a ha =>
    h.clear a (split ▸ mem_append_left _ ha)
  have same : (kindsFrom false as).map ParameterKind.withoutSlash = kindsFrom false as := by
    refine (map_congr_left fun k hk => ?_).trans (map_id _)
    cases k with
    | positionOnly => exact absurd hk behind
    | _ => rfl
  rw [printedKinds, kinds, split, Printer.kindsFrom_positions clear all,
    Printer.losesSlash_positions behind, map_append, same, map_map]
  cases positions with
  | nil => simp
  | cons a positions =>
    cases as.head?.all (·.variadic) with
    | true => rfl
    | false => rfl

/-- Reading the printed parameters gives back each of them, in order, with its printed kind. -/
theorem Printer.read_parameters (p : Printer) {f : Function} (h : f.InOrder) :
    readParameters [] false (p.parameters f.arguments) =
      (f.arguments.map p.argument).zip f.printedKinds := by
  obtain ⟨positions, as, split, all, first⟩ := exists_positions f.arguments
  have clear : ∀ a ∈ positions ++ as, a.IsClear := split ▸ h.clear
  obtain ⟨clear₁, clear₂⟩ := forall_mem_append.mp clear
  have sorted : (kindsFrom false as).Pairwise fun k l => k.rank ≤ l.rank := by
    have whole := h.sorted
    rw [Function.kinds, split, kindsFrom_positions clear₁ all] at whole
    exact (pairwise_append.mp whole).2.1
  have behind := not_mem_kindsFrom sorted first
  rw [h.printedKinds_eq split all behind, split, parameters_positions clear all first,
    read_positions clear₁ all, map_append, zip_append (by simp), zip_map']
  cases printed : positions.isEmpty || as.head?.all (·.variadic) with
  | true => exact read_rest clear₂ sorted behind _
  | false =>
    simp only [Bool.false_eq_true, reduceIte, singleton_append, nil_append]
    rw [read_slash, read_rest clear₂ sorted behind, map_map]
    rfl

theorem Function.printedKinds_eq_iff (f : Function) :
    f.printedKinds = f.kinds ↔ losesSlash f.kinds = false := by
  rw [printedKinds]
  cases lost : losesSlash f.kinds with
  | false => simp
  | true =>
    simp only [reduceIte, Bool.true_eq_false, iff_false]
    intro same
    have held : .positionOnly ∈ f.kinds := by
      rw [losesSlash, Bool.and_eq_true] at lost
      exact contains_iff_mem.mp lost.1
    rw [← same] at held
    obtain ⟨k, -, hk⟩ := mem_map.mp held
    cases k <;> cases hk

/-! Signatures as texts. -/

theorem readSignature_joinWith {texts : List String}
    (closed : ∀ text ∈ texts, Closed [','] text.toList)
    (front : ∀ text ∈ texts, ∃ c rest, text.toList = c :: rest ∧ c ≠ ' ') :
    readSignature (joinWith ", " texts) = some (readParameters [] false texts) := by
  cases texts with
  | nil => rfl
  | cons text texts =>
    have joined : (joinWith ", " (text :: texts)).toList =
        intercalate ", ".toList ((text :: texts).map String.toList) := by
      rw [joinWith, String.toList_intercalate]
    have nonempty : joinWith ", " (text :: texts) ≠ "" := by
      intro empty
      obtain ⟨c, rest, chars, -⟩ := front text mem_cons_self
      rw [empty] at joined
      cases texts <;> simp [chars] at joined
    have space : Closed [','] [' '] := .of_plain (forall_of_all (by decide))
    have all : ∀ x ∈ text.toList :: texts.map String.toList, Closed [','] x :=
      forall_mem_map.mpr closed
    have pieces := pieces?_intercalate (d := ',') rfl rfl (.nil _) space (.nil _) all
    have same : (padded [] [' '] [] ((text :: texts).map String.toList)).map
        (fun piece => String.ofList (piece.dropWhile (· = ' '))) = text :: texts := by
      rw [map_padded, map_map]
      · refine (map_congr_left fun t ht => ?_).trans (map_id _)
        obtain ⟨c, rest, chars, solid⟩ := front t ht
        have kept : t.toList.dropWhile (· = ' ') = t.toList := by
          rw [chars, dropWhile_cons_of_neg (by simpa using solid)]
        rw [Function.comp_apply, kept, String.ofList_toList]
        rfl
      · intro x _ l hl r hr
        simp only [mem_cons, not_mem_nil, or_false, or_self] at hl hr
        rcases hl with rfl | rfl
        · simp [hr]
        · simp [hr]
    rw [readSignature, if_neg nonempty, joined]
    exact (congrArg (Option.map _) pieces).trans (congrArg (some ∘ readParameters [] false) same)

theorem Printer.mem_markedArguments {p : Printer} {slashDone starDone : Bool} {as : List Argument} (h : text ∈ p.markedArguments slashDone starDone as) :
    text = "/" ∨ text = "*" ∨ ∃ a ∈ as, text = p.argument a := by
  induction as generalizing slashDone starDone with
  | nil => cases h
  | cons a as ih =>
    rw [markedArguments] at h
    simp only [mem_append, mem_ite_nil_right, mem_cons, not_mem_nil, or_false] at h
    rcases h with (⟨-, slash⟩ | ⟨-, star⟩) | own | later
    · exact .inl slash
    · exact .inr (.inl star)
    · exact .inr (.inr ⟨a, mem_cons_self, own⟩)
    · rcases ih later with slash | star | ⟨b, hb, other⟩
      · exact .inl slash
      · exact .inr (.inl star)
      · exact .inr (.inr ⟨b, .tail _ hb, other⟩)

theorem Printer.mem_parameters {p : Printer} {as : List Argument}
    (h : text ∈ p.parameters as) : text = "/" ∨ text = "*" ∨ ∃ a ∈ as, text = p.argument a := by
  rw [parameters] at h
  split at h
  · rename_i rest marked
    exact mem_markedArguments (marked ▸ mem_cons_of_mem _ h)
  · exact mem_markedArguments h

theorem Printer.readSignature_parameters {p : Printer} {as : List Argument}
    (clear : ∀ a ∈ as, a.IsClear) (closed : ∀ a ∈ as, Closed [','] (p.argument a).toList) :
    readSignature (joinWith ", " (p.parameters as)) =
      some (readParameters [] false (p.parameters as)) := by
  apply readSignature_joinWith
  · intro text ht
    rcases mem_parameters ht with rfl | rfl | ⟨a, ha, rfl⟩
    · exact .of_plain (forall_of_all (by decide))
    · exact .of_plain (forall_of_all (by decide))
    · exact closed a ha
  · intro text ht
    rcases mem_parameters ht with rfl | rfl | ⟨a, ha, rfl⟩
    · exact ⟨'/', [], rfl, by decide⟩
    · exact ⟨'*', [], rfl, by decide⟩
    · obtain ⟨c, rest, chars, start⟩ := toList_argument (p := p) (clear a ha)
      have solid : c ≠ ' ' := by
        rintro rfl
        cases start
      rw [chars, Argument.stars]
      cases a.variadic <;> cases a.keywordVariadic <;> simp [solid]

theorem Printer.mem_functionLines (p : Printer) (f : Function) : ∃ returns,
    "def " ++ f.name ++ "(" ++ joinWith ", " (p.parameters f.arguments) ++ ")" ++ returns ++ ":" ∈
      p.functionLines f :=
  ⟨_, mem_append_left _ (mem_append_right _ (mem_singleton_self _))⟩

/-- A printed signature gives every parameter the kind that it has, with one exception: the slash
after the position-only parameters is missing if nothing comes after them or one that takes many
values, and then they are read as plain ones. This holds for what stands between the commas, and, if
the hints and defaults have all their brackets and quotes closed, for the text in the line. -/
theorem printed_parameter_kinds (p : Printer) (f : Function) (h : f.InOrder) :
    readParameters [] false (p.parameters f.arguments) =
        (f.arguments.map p.argument).zip f.printedKinds ∧
      (f.printedKinds = f.kinds ↔ losesSlash f.kinds = false) ∧
      (∃ returns, "def " ++ f.name ++ "(" ++ joinWith ", " (p.parameters f.arguments) ++ ")" ++
        returns ++ ":" ∈ p.functionLines f) ∧
      ((∀ a ∈ f.arguments, Closed [','] (p.argument a).toList) →
        readSignature (joinWith ", " (p.parameters f.arguments)) =
          some ((f.arguments.map p.argument).zip f.printedKinds)) := by
  have read := p.read_parameters h
  refine ⟨read, f.printedKinds_eq_iff, p.mem_functionLines f, fun closed => ?_⟩
  rw [Printer.readSignature_parameters h.clear closed, read]

def named (name : String) : Argument := { name := some name }

def manyKinds : Function :=
  { name := "f"
    arguments := [{ named "a" with positionOnly := true }, named "b",
      { named "rest" with variadic := true }, named "c",
      { named "more" with keywordVariadic := true }] }

/-- All kinds can be read in one signature. -/
theorem manyKinds_read : manyKinds.InOrder ∧ losesSlash manyKinds.kinds = false ∧
    ({} : Printer).parameters manyKinds.arguments = ["a", "/", "b", "*rest", "c", "**more"] ∧
    readSignature "a, /, b, *rest, c, **more" = some [("a", .positionOnly), ("b", .plain),
      ("*rest", .variadic), ("c", .keywordOnly), ("**more", .keywordVariadic)] := by
  have order : manyKinds.InOrder := by decide
  obtain ⟨-, -, -, read⟩ := printed_parameter_kinds {} manyKinds order
  have closed : ∀ a ∈ manyKinds.arguments, Closed [','] (({} : Printer).argument a).toList := by
    simp only [closed_iff]
    decide
  exact ⟨order, by decide, by decide, read closed⟩

/-- A function with a position-only parameter before others. -/
def slashless (more : List Argument) : Function :=
  { name := "f", arguments := { named "a" with positionOnly := true } :: more }

/-- The slash is missing at the end and before a parameter that takes many values. -/
theorem slash_missing : (slashless []).InOrder ∧ (slashless []).kinds = [.positionOnly] ∧
    ({} : Printer).parameters (slashless []).arguments = ["a"] ∧
    readSignature "a" = some [("a", .plain)] ∧
    (slashless [{ named "rest" with variadic := true }]).InOrder ∧
    (slashless [{ named "rest" with variadic := true }]).kinds = [.positionOnly, .variadic] ∧
    ({} : Printer).parameters (slashless [{ named "rest" with variadic := true }]).arguments =
      ["a", "*rest"] ∧
    readSignature "a, *rest" = some [("a", .plain), ("*rest", .variadic)] := by
  decide

end TypeStubs
