import TypeStubs.Proofs.LiteralValues
import TypeStubs.Proofs.ParameterKinds
import TypeStubs.Proofs.SourceTerms

/-! Lists of parameters in source text. The reader keeps what the grammar reads: the names of the
parameters, their kinds and whether they have defaults. A list is read part by part. -/

namespace TypeStubs.Source

open TokenReader List

variable {place place' final : ParameterPlace} {ts : List Token} {part : ParameterPart}

structure ReadParameter where
  name : String
  kind : ParameterKind
  hasDefault : Bool
deriving DecidableEq

/-- What stands between two commas of a list of parameters. -/
inductive ParameterPart where
  | slash
  | star
  | one (p : ReadParameter)

/-- Adds a part behind the parameters that were read. A slash makes all of them position-only. -/
def ParameterPart.addTo (before : List ReadParameter) : ParameterPart → List ReadParameter
  | slash => before.map fun p => { p with kind := .positionOnly }
  | star => before
  | one p => before ++ [p]

def namedPart (place : ParameterPlace) (n : String) (d : Bool) :
    TokenReader (ParameterPlace × ParameterPart) :=
  match place with
  | .ordinary _ before slash =>
    if before && !d then failure
    else return (.ordinary true (before || d) slash, .one ⟨n, .plain, d⟩)
  | .keywords _ => return (.keywords false, .one ⟨n, .keywordOnly, d⟩)
  | .done => failure

def parameterPart (rec : Rec) (hint starHint : TokenReader Unit) (place : ParameterPlace) :
    TokenReader (ParameterPlace × ParameterPart) := do
  let defaulted : TokenReader Bool := do
    if ← op "=" then let _ ← rec .expression; return true else return false
  if ← op "/" then
    match place with
    | .ordinary true d false => return (.ordinary true d true, .slash)
    | _ => failure
  if ← op "**" then
    let n ← name
    hint
    match place with
    | .ordinary .. => return (.done, .one ⟨n, .keywordVariadic, false⟩)
    | .keywords false => return (.done, .one ⟨n, .keywordVariadic, false⟩)
    | _ => failure
  if ← op "*" then
    match place with
    | .ordinary .. =>
      match ← get with
      | .name n :: rest =>
        set rest
        starHint
        return (.keywords false, .one ⟨n, .variadic, false⟩)
      | ts => if ts.head? = some (.op ",") then return (.keywords true, .star) else failure
    | _ => failure
  let n ← name
  hint
  namedPart place n (← defaulted)

/-- Reads parameters behind others as `parametersFrom` does, and keeps them. -/
def parametersRead (rec : Rec) (hint starHint : TokenReader Unit) (stop : Token) :
    (fuel : Nat) → ParameterPlace → List ReadParameter → TokenReader (List ReadParameter)
  | 0, _, _ => failure
  | fuel + 1, place, before => do
    if ← comes [stop] then
      if place = .keywords true then failure else return before
    let (place, part) ← parameterPart rec hint starHint place
    if ← op "," then parametersRead rec hint starHint stop fuel place (part.addTo before)
    else if place = .keywords true then failure
    else return part.addTo before

section

variable {rec : Rec} {hint starHint : TokenReader Unit}

theorem parameterPart_place (place : ParameterPlace) :
    Prod.fst <$> parameterPart rec hint starHint place = parameter rec hint starHint place := by
  unfold parameterPart parameter
  simp only [map_bind]
  refine bind_congr fun slash => ?_
  cases slash with
  | true => rcases place with ⟨_ | _, d, _ | _⟩ | needed | _ <;> rfl
  | false =>
    simp only [Bool.false_eq_true, if_false, map_bind]
    refine bind_congr fun stars => ?_
    cases stars with
    | true =>
      simp only [if_true, map_bind]
      refine bind_congr fun n => bind_congr fun _ => ?_
      rcases place with _ | ⟨_ | _⟩ | _ <;> rfl
    | false =>
      simp only [Bool.false_eq_true, if_false, map_bind]
      refine bind_congr fun star => ?_
      cases star with
      | true =>
        cases place with
        | ordinary =>
          simp only [if_true, map_bind]
          refine bind_congr fun ts => ?_
          split
          · simp only [map_bind]
            rfl
          · split
            · rename_i comma
              obtain ⟨rest, rfl⟩ := head?_eq_some_iff.mp comma
              rfl
            · split <;> simp_all
        | keywords | done => rfl
      | false =>
        simp only [Bool.false_eq_true, if_false, map_bind]
        refine bind_congr fun n => bind_congr fun _ => bind_congr fun d => ?_
        cases place with
        | ordinary =>
          dsimp only [namedPart]
          split <;> rfl
        | keywords | done => rfl

/-- What is read is a list of parameters of the grammar, and nothing else. -/
theorem parametersRead_place (stop : Token) (fuel : Nat) (place : ParameterPlace)
    (before : List ReadParameter) :
    (fun _ => ()) <$> parametersRead rec hint starHint stop fuel place before =
      parametersFrom rec hint starHint stop fuel place := by
  induction fuel generalizing place before with
  | zero => rfl
  | succ fuel ih =>
    simp only [parametersRead, parametersFrom, map_bind, ← parameterPart_place, bind_map_left]
    refine bind_congr fun ended => ?_
    cases ended with
    | true =>
      simp only [if_true]
      split <;> rfl
    | false =>
      simp only [Bool.false_eq_true, if_false, map_bind]
      refine bind_congr fun part => bind_congr fun comma => ?_
      cases comma with
      | true => exact ih _ _
      | false =>
        simp only [Bool.false_eq_true, if_false]
        split <;> rfl

end

/-! Reading the parts of a list of parameters. -/

def EndsPart (ts : List Token) : Prop := ∃ t rest, ts = t :: rest ∧ (t = .op "," ∨ t = .op ")")

theorem EndsPart.ends (h : EndsPart ts) : EndsExpression ts := by
  obtain ⟨t, rest, rfl, rfl | rfl⟩ := h <;> exact ⟨_, _, rfl, by decide⟩

theorem EndsPart.head (h : EndsPart ts) {o : String} (hc : o ≠ ",")
    (hp : o ≠ ")") : ts.head? ≠ some (.op o) := by
  obtain ⟨t, rest, rfl, rfl | rfl⟩ := h
  · simpa using hc.symm
  · simpa using hp.symm

def marked (mark : String) : Option (List Token) → List Token
  | none => []
  | some ts => .op mark :: ts

@[simp] theorem marked_none (mark : String) : marked mark none = [] := rfl

def ReadsIfAny (ts? : Option (List Token)) : Prop :=
  ∀ ts ∈ ts?, ∀ rest, EndsExpression rest →
    ∃ e, (anyPhrase .expression).run (ts ++ rest) = some (e, rest)

section

variable {hint default : Option (List Token)} {rest : List Token} {n : String}

theorem ends_marked (hr : EndsPart rest) : EndsExpression (marked "=" default ++ rest) := by
  cases default with
  | none => exact hr.ends
  | some ts => exact ⟨_, _, rfl, by decide⟩

theorem parameterHint_run (hh : ReadsIfAny hint) (hr : EndsExpression rest) :
    parameterHint.run (marked ":" hint ++ rest) = some ((), rest) := by
  cases hint with
  | none =>
    have colon := accept_other (hr.head (by decide) : rest.head? ≠ some (.op ":"))
    simp [parameterHint, op, marked, colon]
  | some ts =>
    obtain ⟨e, read⟩ := hh ts rfl _ hr
    have colon := accept_self (.op ":") (ts ++ rest)
    simp [parameterHint, op, marked, colon, read]

theorem starParameterHint_run (hh : ReadsIfAny hint) (hr : EndsExpression rest) :
    starParameterHint.run (marked ":" hint ++ rest) = some ((), rest) := by
  cases hint with
  | none =>
    have colon := accept_other (hr.head (by decide) : rest.head? ≠ some (.op ":"))
    simp [starParameterHint, op, marked, colon]
  | some ts =>
    obtain ⟨e, read⟩ := hh ts rfl _ hr
    have colon := accept_self (.op ":") (ts ++ rest)
    have noStar : (ts ++ rest).head? ≠ some (.op "*") := by
      intro star
      obtain ⟨more, same⟩ := head?_eq_some_iff.mp star
      rw [same, expression_star] at read
      cases read
    have star := accept_other noStar
    simp [starParameterHint, starredOr, op, marked, colon, star, read]

def defaultPart : TokenReader Bool := do
  if ← op "=" then let _ ← anyPhrase .expression; return true else return false

theorem defaultPart_run (hd : ReadsIfAny default) (hr : EndsPart rest) :
    defaultPart.run (marked "=" default ++ rest) = some (default.isSome, rest) := by
  cases default with
  | none =>
    have equals := accept_other (hr.head (by decide) (by decide) : rest.head? ≠ some (.op "="))
    simp [defaultPart, op, marked, equals]
  | some ts =>
    obtain ⟨e, read⟩ := hd ts rfl _ hr.ends
    have equals := accept_self (.op "=") (ts ++ rest)
    simp [defaultPart, op, marked, equals, read]

def readPart (place : ParameterPlace) : TokenReader (ParameterPlace × ParameterPart) :=
  parameterPart anyPhrase parameterHint starParameterHint place

theorem accept_op {o o' : String} (ho : o ≠ o') (ts : List Token) :
    (accept (.op o)).run (.op o' :: ts) = some (false, .op o' :: ts) :=
  accept_other (by simpa using ho.symm)

def parameterTokens (n : String) (hint default : Option (List Token)) : List Token :=
  .name n :: (marked ":" hint ++ marked "=" default)

theorem readPart_name (place : ParameterPlace) (ts : List Token) :
    (readPart place).run (.name n :: ts) = (do
      parameterHint
      namedPart place n (← defaultPart) :
        TokenReader (ParameterPlace × ParameterPart)).run ts := by
  have no (o : String) : (accept (.op o)).run (.name n :: ts) = some (false, .name n :: ts) :=
    accept_other (by simp)
  simp [readPart, parameterPart, op, no, name, defaultPart]

/-- A part with these tokens is read like this, whatever part comes behind it. -/
structure ReadsPart (place place' : ParameterPlace) (ts : List Token) (part : ParameterPart) :
    Prop where
  first : ts.head?.any (· != .op ")") = true
  read : ∀ rest, EndsPart rest → (readPart place).run (ts ++ rest) = some ((place', part), rest)

section

variable (hh : ReadsIfAny hint)
include hh

theorem readsPart_plain (hd : ReadsIfAny default) {any before slash : Bool}
    (order : before = true → default.isSome = true) :
    ReadsPart (.ordinary any before slash) (.ordinary true (before || default.isSome) slash)
      (parameterTokens n hint default) (.one ⟨n, .plain, default.isSome⟩) := by
  refine ⟨rfl, fun rest hr => ?_⟩
  have legal : ¬ (before && !default.isSome) = true := by
    intro both
    obtain ⟨hb, none⟩ := Bool.and_eq_true_iff.mp both
    rw [order hb] at none
    cases none
  have placed : namedPart (.ordinary any before slash) n default.isSome =
      pure (.ordinary true (before || default.isSome) slash, .one ⟨n, .plain, default.isSome⟩) := by
    rw [namedPart, if_neg legal]
  rw [parameterTokens, cons_append, append_assoc, readPart_name]
  simp [parameterHint_run hh (ends_marked hr), defaultPart_run hd hr, placed]

theorem readsPart_keyword (hd : ReadsIfAny default) (needed : Bool) :
    ReadsPart (.keywords needed) (.keywords false) (parameterTokens n hint default)
      (.one ⟨n, .keywordOnly, default.isSome⟩) := by
  refine ⟨rfl, fun rest hr => ?_⟩
  rw [parameterTokens, cons_append, append_assoc, readPart_name]
  simp [parameterHint_run hh (ends_marked hr), defaultPart_run hd hr, namedPart]

theorem readsPart_variadic (any before slash : Bool) :
    ReadsPart (.ordinary any before slash) (.keywords false)
      (.op "*" :: parameterTokens n hint none) (.one ⟨n, .variadic, false⟩) := by
  refine ⟨rfl, fun rest hr => ?_⟩
  have hint := starParameterHint_run hh hr.ends
  simp [readPart, parameterPart, parameterTokens, op, accept_op, accept_self, hint]

theorem readsPart_keywordVariadic (open? : place ≠ .done ∧ place ≠ .keywords true) :
    ReadsPart place .done (.op "**" :: parameterTokens n hint none)
      (.one ⟨n, .keywordVariadic, false⟩) := by
  refine ⟨rfl, fun rest hr => ?_⟩
  have hint := parameterHint_run hh hr.ends
  rcases place with ⟨any, before, slash⟩ | ⟨_ | _⟩ | _
  · simp [readPart, parameterPart, parameterTokens, op, accept_op, accept_self, name, hint]
  · simp [readPart, parameterPart, parameterTokens, op, accept_op, accept_self, name, hint]
  · exact absurd rfl open?.2
  · exact absurd rfl open?.1

end

theorem readPart_star (any before slash : Bool) (rest : List Token) :
    (readPart (.ordinary any before slash)).run (.op "*" :: .op "," :: rest) =
      some ((.keywords true, .star), .op "," :: rest) := by
  simp [readPart, parameterPart, op, accept_op, accept_self]

end

/-- Parts in a row lead from one place to another. A bare star needs a part behind it. -/
inductive ReadsParts : ParameterPlace → List (List Token) → List ParameterPart → ParameterPlace → Prop
  | nil (place : ParameterPlace) : ReadsParts place [] [] place
  | cons {place place' final : ParameterPlace} {ts : List Token} {tss : List (List Token)}
      {part : ParameterPart} {parts : List ParameterPart} : ReadsPart place place' ts part →
      ReadsParts place' tss parts final → ReadsParts place (ts :: tss) (part :: parts) final
  | star {final : ParameterPlace} {tss : List (List Token)} {parts : List ParameterPart}
      (any before slash : Bool) : tss ≠ [] → ReadsParts (.keywords true) tss parts final →
      ReadsParts (.ordinary any before slash) ([.op "*"] :: tss) (.star :: parts) final

def declaredParameters (fuel : Nat) (place : ParameterPlace) (before : List ReadParameter) :
    TokenReader (List ReadParameter) :=
  parametersRead anyPhrase parameterHint starParameterHint (.op ")") fuel place before

theorem comes_paren (h : ts.head?.any (· != .op ")") = true) :
    (comes [.op ")"]).run ts = some (false, ts) := by
  cases ts with
  | nil => rfl
  | cons t ts =>
    have other : t ≠ .op ")" := by simpa using h
    simp [comes, peek, other]

theorem declaredParameters_part {rest : List Token} (first : (ts ++ rest).head?.any (· != .op ")") = true)
    (read : (readPart place).run (ts ++ rest) = some ((place', part), rest)) (fuel : Nat)
    (before : List ReadParameter) :
    (declaredParameters (fuel + 1) place before).run (ts ++ rest) = (do
      if ← op "," then declaredParameters fuel place' (part.addTo before)
      else if place' = .keywords true then failure
      else return part.addTo before : TokenReader (List ReadParameter)).run rest := by
  have more := comes_paren first
  rw [readPart] at read
  simp [declaredParameters, parametersRead, more, read]

theorem declaredParameters_comma {more : List Token} (first : ts.head?.any (· != .op ")") = true)
    (read : (readPart place).run (ts ++ .op "," :: more) = some ((place', part), .op "," :: more))
    (fuel : Nat) (before : List ReadParameter) :
    (declaredParameters (fuel + 1) place before).run (ts ++ .op "," :: more) =
      (declaredParameters fuel place' (part.addTo before)).run more := by
  have head : (ts ++ .op "," :: more).head?.any (· != .op ")") = true := by
    cases ts with
    | nil => cases first
    | cons t ts => exact first
  rw [declaredParameters_part head read]
  simp [op, accept_self]

theorem declaredParameters_run {tss : List (List Token)}
    {parts : List ParameterPart} (h : ReadsParts place tss parts final)
    (hf : final ≠ .keywords true) {fuel : Nat} (enough : tss.length < fuel)
    (before : List ReadParameter) (rest : List Token) : (declaredParameters fuel place before).run
        (intercalate [.op ","] tss ++ .op ")" :: rest) =
      some (parts.foldl ParameterPart.addTo before, .op ")" :: rest) := by
  have joined (ts ts' : List Token) (tss : List (List Token)) :
      intercalate [.op ","] (ts :: ts' :: tss) ++ .op ")" :: rest =
        ts ++ .op "," :: (intercalate [.op ","] (ts' :: tss) ++ .op ")" :: rest) := by
    rw [intercalate_cons_cons]
    simp
  induction h generalizing fuel before with
  | nil place =>
    obtain ⟨fuel, rfl⟩ := Nat.exists_eq_add_one_of_ne_zero (Nat.ne_of_gt enough)
    have ended : (comes [.op ")"]).run (.op ")" :: rest) = some (true, .op ")" :: rest) := rfl
    simp [declaredParameters, parametersRead, ended, hf]
  | @cons place place' final ts tss part parts first others ih =>
    obtain ⟨fuel, rfl⟩ := Nat.exists_eq_add_one_of_ne_zero (Nat.ne_of_gt (Nat.zero_lt_of_lt enough))
    have enough := Nat.lt_of_succ_lt_succ enough
    cases tss with
    | nil =>
      cases others
      have last := first.read (.op ")" :: rest) ⟨_, _, rfl, .inr rfl⟩
      have comma : (accept (.op ",")).run (.op ")" :: rest) = some (false, .op ")" :: rest) :=
        accept_other (by simp)
      have head : (ts ++ .op ")" :: rest).head?.any (· != .op ")") = true := by
        have some := first.first
        cases ts with
        | nil => cases some
        | cons t ts => exact some
      rw [intercalate_singleton, declaredParameters_part head last]
      simp [op, comma, hf]
    | cons ts' tss =>
      rw [joined, declaredParameters_comma first.first (first.read _ ⟨_, _, rfl, .inl rfl⟩), ih hf enough]
      rfl
  | @star final tss parts any earlier slash some others ih =>
    obtain ⟨fuel, rfl⟩ := Nat.exists_eq_add_one_of_ne_zero (Nat.ne_of_gt (Nat.zero_lt_of_lt enough))
    have enough := Nat.lt_of_succ_lt_succ enough
    cases tss with
    | nil => exact absurd rfl some
    | cons ts' tss =>
      rw [joined, declaredParameters_comma rfl (readPart_star any earlier slash _), ih hf enough]
      rfl

/-! Whole lists of parameters. -/

/-- The parameters that stand between the parentheses of a definition. -/
def signature? (text : List Char) : Option (List ReadParameter) := do
  let whole := '(' :: (text ++ [')'])
  let ts ← tokens? (whole.length + 1) whole
  let (ps, rest) ← (do
    expect (.op "(")
    let ps ← declaredParameters ((← get).length + 1) (.ordinary false false false) []
    expect (.op ")")
    return ps : TokenReader (List ReadParameter)).run ts
  if rest = [.newline] then some ps else none

theorem length_le_joined {α : Type} (separator : α) (xss : List (List α)) :
    xss.length ≤ (intercalate [separator] xss).length + 1 := by
  induction xss with
  | nil => exact Nat.zero_le _
  | cons xs xss ih =>
    cases xss with
    | nil => exact Nat.le_add_left 1 _
    | cons ys xss =>
      rw [intercalate_cons_cons]
      simp only [length_append, length_cons, length_nil] at ih ⊢
      omega

section

variable {parts : List (List Char × List Token)} (h : ∀ x ∈ parts, IsLexedAs x.1 x.2)

include h

theorem lex?_parts : lex? ('(' :: (intercalate ", ".toList (parts.map Prod.fst) ++ [')'])) =
    some (.op "(" :: (intercalate [.op ","] (parts.map Prod.snd) ++ [.op ")", .newline])) := by
  have plain : ∀ c ∈ ['\r', '\x00'],
      c ∉ '(' :: (intercalate ", ".toList (parts.map Prod.fst) ++ [')']) := by
    have marks : ∀ c ∈ ['\r', '\x00'], c ∉ '(' :: ')' :: ", ".toList := forall_of_all (by decide)
    intro c hc hin
    rcases mem_cons.mp hin with first | hin
    · exact marks c hc (first ▸ mem_cons_self)
    rcases mem_append.mp hin with inner | last
    · rcases mem_intercalate inner with comma | ⟨text, ht, hin⟩
      · exact marks c hc (.tail _ (.tail _ comma))
      · obtain ⟨x, hx, rfl⟩ := mem_map.mp ht
        simp only [mem_cons, not_mem_nil, or_false] at hc
        rcases hc with rfl | rfl
        · exact (h x hx).chars.1 hin
        · exact (h x hx).chars.2 hin
    · exact marks c hc (mem_singleton.mp last ▸ .tail _ mem_cons_self)
  have arguments := lexes_joined (fun x hx c rest hc => (h x hx).lexes c rest (mem_append_left _ hc)) ['\n']
  have opening (rest : List Char) : Lexes [] [")"] rest ['('] [.op "("] :=
    lexes_token (by decide) rfl rfl
  have closing : Lexes [")"] [] ['\n'] [')'] [.op ")"] := lexes_token (by decide) rfl rfl
  have last : ')' ∈ ('(' :: (intercalate ", ".toList (parts.map Prod.fst) ++ [')'])).getLast? := by
    rw [← cons_append, getLast?_concat]
    rfl
  refine (lex?_of_lexes ((opening _).append (arguments.append closing)) (by decide) plain
    ⟨_, last, by decide⟩).trans ?_
  simp

theorem tokens?_parts : tokens?
      (('(' :: (intercalate ", ".toList (parts.map Prod.fst) ++ [')'])).length + 1)
      ('(' :: (intercalate ", ".toList (parts.map Prod.fst) ++ [')'])) =
    some (.op "(" :: (intercalate [.op ","] (parts.map Prod.snd) ++ [.op ")", .newline])) := by
  rw [tokens?_succ, lex?_parts h, Option.bind_some]
  refine if_pos (all_eq_true.mpr fun t ht => ?_)
  cases t with
  | string l =>
    simp only [mem_cons, mem_append, reduceCtorEq, not_mem_nil, or_false, false_or] at ht
    rcases mem_intercalate ht with comma | ⟨ts, hts, hl⟩
    · simp at comma
    · obtain ⟨x, hx, rfl⟩ := mem_map.mp hts
      have part : x.1.length ≤ (intercalate ", ".toList (parts.map Prod.fst)).length :=
        length_le_intercalate (mem_map_of_mem hx)
      refine (h x hx).strings l hl _ ?_
      simp only [length_cons, length_append, length_nil]
      omega
  | _ => rfl

theorem signature?_parts {read : List ParameterPart}
    (reads : ReadsParts (.ordinary false false false) (parts.map Prod.snd) read final)
    (hf : final ≠ .keywords true) :
    signature? (intercalate ", ".toList (parts.map Prod.fst)) =
      some (read.foldl ParameterPart.addTo []) := by
  have enough : (parts.map Prod.snd).length <
      (intercalate [.op ","] (parts.map Prod.snd) ++ [Token.op ")", .newline]).length + 1 := by
    have short := length_le_joined (Token.op ",") (parts.map Prod.snd)
    simp only [length_append, length_cons, length_nil]
    omega
  have run := declaredParameters_run reads hf enough [] [.newline]
  rw [signature?, tokens?_parts h]
  generalize intercalate [.op ","] (parts.map Prod.snd) ++ [Token.op ")", .newline] = inner at run ⊢
  have opening : (expect (.op "(")).run (.op "(" :: inner) = some ((), inner) := by
    simp [expect, accept_self]
  have closing : (expect (.op ")")).run [.op ")", .newline] = some ((), [.newline]) := by
    simp [expect, accept_self]
  simp [opening, run, closing]

end

end TypeStubs.Source
