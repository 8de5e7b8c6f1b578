import TypeStubs.Proofs.SourceCalls

/-! Expressions as parts of longer texts: texts whose tokens do not depend on what comes behind them,
and are read as one expression. -/

namespace TypeStubs.Source

open TokenReader List

variable {c : Char} {n : String} {cs rest : List Char} {operand : TokenReader Expr}

theorem lexes_colon (b : List String) (rest : List Char) :
    Lexes b b rest ": ".toList [.op ":"] := by
  have colon : Lexes b b (' ' :: rest) [':'] [.op ":"] := lexes_token (by decide) rfl rfl
  exact colon.append (lexes_space b rest)

theorem lexes_equals (b : List String) (rest : List Char) :
    Lexes b b rest " = ".toList [.op "="] := by
  have equals : Lexes b b (' ' :: rest) ['='] [.op "="] := lexes_token (by decide) rfl rfl
  exact (lexes_space b ('=' :: ' ' :: rest)).append (equals.append (lexes_space b rest))

/-! Names. -/

theorem isNameChar_of_continue (h : isIdentifierContinue c = true) : isNameChar c = true := by
  unfold isIdentifierContinue at h
  unfold isNameChar
  split at h
  · rw [h]
    rfl
  · rename_i large
    have : 128 ≤ c.toNat := Nat.not_lt.mp large
    simp [this]

theorem isNameStart_of_start (h : isIdentifierStart c = true) : isNameStart c = true := by
  unfold isIdentifierStart at h
  unfold isNameStart
  split at h
  · rw [h]
    rfl
  · rename_i large
    have : 128 ≤ c.toNat := Nat.not_lt.mp large
    simp [this]

theorem isNameChar_of_nameStart (h : isNameStart c = true) : isNameChar c = true := by
  simp only [isNameStart, isNameChar, Bool.or_eq_true] at h ⊢
  rcases h with (alpha | underscore) | large
  · exact .inl (.inl (by simp [Char.isAlphanum, alpha]))
  · exact .inl (.inr underscore)
  · exact .inr large

/-- A word that may be a name: an identifier, and no keyword. -/
structure IsName (n : String) : Prop where
  identifier : isIdentifier n = true
  free : n ∉ keywords

instance (n : String) : Decidable (IsName n) :=
  decidable_of_iff (isIdentifier n = true ∧ n ∉ keywords)
    ⟨fun h => ⟨h.1, h.2⟩, fun h => ⟨h.identifier, h.free⟩⟩

def EndsWord (rest : List Char) : Prop :=
  ∀ c ∈ rest.head?, isNameChar c = false ∧ c ≠ '\'' ∧ c ≠ '"'

theorem nameChars_identifier (h : isIdentifier n = true) : ∀ c ∈ n.toList, isNameChar c = true := by
  unfold isIdentifier at h
  cases hn : n.toList with
  | nil => exact forall_mem_nil _
  | cons c cs =>
    rw [hn] at h
    simp only [isIdentifierChars, Bool.and_eq_true, all_eq_true] at h
    refine forall_mem_cons.mpr ⟨?_, fun d hd => isNameChar_of_continue (h.2 d hd)⟩
    exact isNameChar_of_nameStart (isNameStart_of_start h.1)

theorem takeWhile_word {p : Char → Bool} (h : ∀ c ∈ cs, p c = true)
    (hr : ∀ c ∈ rest.head?, p c = false) : (cs ++ rest).takeWhile p = cs := by
  rw [takeWhile_append_of_pos h]
  cases rest with
  | nil => simp
  | cons c rest => simp [hr c rfl]

theorem drop_takeWhile (p : Char → Bool) (cs : List Char) :
    cs.drop (cs.takeWhile p).length = cs.dropWhile p := by
  have whole := takeWhile_append_dropWhile (p := p) (l := cs)
  calc cs.drop (cs.takeWhile p).length
      = (cs.takeWhile p ++ cs.dropWhile p).drop (cs.takeWhile p).length := by rw [whole]
    _ = cs.dropWhile p := drop_left

theorem notQuote_of_nameChar (h : isNameChar c = true) : c ≠ '\'' ∧ c ≠ '"' := by
  constructor
  · rintro rfl
    exact absurd h (by decide)
  · rintro rfl
    exact absurd h (by decide)

theorem stringToken?_word (h : ∀ c ∈ cs, isNameChar c = true)
    (hr : EndsWord rest) : stringToken? (cs ++ rest) = none := by
  have next : ∀ q ∈ ((cs ++ rest).dropWhile Char.isAlpha).head?, q ≠ '\'' ∧ q ≠ '"' := by
    induction cs with
    | nil =>
      intro q hq
      cases rest with
      | nil => cases hq
      | cons c rest =>
        obtain ⟨other, noQuote⟩ := hr c rfl
        have letter : c.isAlpha = false := by
          cases alpha : c.isAlpha with
          | false => rfl
          | true => simp [isNameChar, Char.isAlphanum, alpha] at other
        rw [nil_append, dropWhile_cons_of_neg (by simp [letter])] at hq
        cases hq
        exact noQuote
    | cons c cs ih =>
      obtain ⟨first, others⟩ := forall_mem_cons.mp h
      intro q hq
      rw [cons_append] at hq
      cases alpha : c.isAlpha with
      | true =>
        rw [dropWhile_cons_of_pos alpha] at hq
        exact ih others q hq
      | false =>
        rw [dropWhile_cons_of_neg (by simp [alpha])] at hq
        cases hq
        exact notQuote_of_nameChar first
  simp only [stringToken?, drop_takeWhile]
  cases hd : (cs ++ rest).dropWhile Char.isAlpha with
  | nil => rfl
  | cons q more =>
    rw [hd] at next
    obtain ⟨single, double⟩ := next q rfl
    simp [single, double]

def wordToken (n : String) : Token := if n ∈ keywords then .keyword n else .name n

theorem token_word (h : isIdentifier n = true) (hr : EndsWord rest) :
    token (n.toList ++ rest) = some (wordToken n, rest) := by
  obtain ⟨c, cs, hn, start⟩ := exists_identifier_start h
  have chars := nameChars_identifier h
  have word : (n.toList ++ rest).takeWhile isNameChar = n.toList :=
    takeWhile_word chars fun c hc => (hr c hc).1
  have first : isNameStart c = true := isNameStart_of_start start
  have behind : (n.toList ++ rest).drop n.toList.length = rest := drop_left
  have valid : isIdentifierChars n.toList = true := h
  unfold token
  rw [stringToken?_word chars hr]
  rw [hn] at word behind valid chars ⊢
  rw [cons_append] at word behind ⊢
  dsimp only
  rw [if_pos first, word, behind, ← hn, String.ofList_toList]
  by_cases keyword : n ∈ keywords
  · rw [if_pos (contains_iff_mem.mpr keyword), wordToken, if_pos keyword]
  · rw [if_neg (fun hk => keyword (contains_iff_mem.mp hk)), if_pos (by rw [hn]; exact valid),
      wordToken, if_neg keyword]

theorem notBlank_of_start (h : isIdentifierStart c = true) :
    c ∉ [' ', '\t', '\x0c', '#', '\n', '\\'] := by
  intro hc
  have blanks : ∀ d ∈ [' ', '\t', '\x0c', '#', '\n', '\\'], isIdentifierStart d = false :=
    forall_of_all (by decide)
  rw [blanks c hc] at h
  cases h

theorem trackBrackets_word (b : List String) (n : String) :
    trackBrackets b (wordToken n) = some b := by
  unfold wordToken
  split <;> rfl

theorem lexes_word (h : isIdentifier n = true) (hr : EndsWord rest)
    (b : List String) : Lexes b b rest n.toList [wordToken n] := by
  have read := token_word h hr
  obtain ⟨c, cs, hn, start⟩ := exists_identifier_start h
  rw [hn] at read ⊢
  exact lexes_token (notBlank_of_start start) read (trackBrackets_word b n)

theorem IsName.token (h : IsName n) : wordToken n = .name n := if_neg h.free

theorem token_operator {o : String} (plain : c ∈ ['*', '.', '-', '(', ')', '[', ']'])
    (digit : c = '.' → cs.head?.any Char.isDigit = false)
    (ho : operators.find? (fun o => o.toList.isPrefixOf (c :: cs)) = some o) :
    token (c :: cs) = some (.op o, (c :: cs).drop o.length) := by
  have word : stringToken? (c :: cs) = none := by
    simp only [mem_cons, not_mem_nil, or_false] at plain
    rcases plain with rfl | rfl | rfl | rfl | rfl | rfl | rfl <;> rfl
  have starts : ∀ c ∈ ['*', '.', '-', '(', ')', '[', ']'],
      isNameStart c = false ∧ c.isDigit = false := forall_of_all (by decide)
  have start := starts c plain
  have number : ¬ (c.isDigit || (c == '.' && cs.head?.any Char.isDigit)) = true := by
    rw [start.2]
    by_cases point : c = '.'
    · simp [digit point]
    · simp [point]
  unfold token
  rw [word]
  dsimp only
  rw [if_neg (by simp [start.1]), if_neg number, ho]
  rfl

theorem lexes_star (hc : c ≠ '*' ∧ c ≠ '=') (b : List String) (rest : List Char) :
    Lexes b b (c :: rest) ['*'] [.op "*"] := by
  have found : operators.find? (fun o => o.toList.isPrefixOf ('*' :: c :: rest)) = some "*" := by
    simp [operators, hc.1.symm, hc.2.symm]
  have read := token_operator (by decide) (fun dot => absurd dot (by decide)) found
  exact lexes_token (by decide) read rfl

theorem lexes_stars (hc : c ≠ '=') (b : List String) (rest : List Char) :
    Lexes b b (c :: rest) ['*', '*'] [.op "**"] := by
  have found : operators.find? (fun o => o.toList.isPrefixOf ('*' :: '*' :: c :: rest)) =
      some "**" := by
    simp [operators, hc.symm]
  have read := token_operator (by decide) (fun dot => absurd dot (by decide)) found
  exact lexes_token (by decide) read rfl

/-! Terms: texts that are expressions wherever they stand between parentheses. -/

/-- Characters that may follow an expression in a list of parameters, or in brackets inside of it. -/
def termEnds : List Char := [',', ')', ']', ' ']

/-- The text is one expression or several, if `depth` bounds how deep formatted strings are nested. -/
def areExpressions (depth : Nat) (text : List Char) : Bool :=
  match tokens? depth text with
  | some ts => (((do
      let _ ← starExpressions anyPhrase expressionsEnd
      TokenReader.expect .newline) : TokenReader Unit).run ts).isSome
  | none => false

/-- Between parentheses the text has these tokens, whatever comes behind it. -/
structure IsLexedAs (text : List Char) (ts : List Token) : Prop where
  lexes : ∀ c rest, c ∈ termEnds → Lexes [")"] [")"] (c :: rest) text ts
  strings : ∀ l, .string l ∈ ts → ∀ depth ≥ text.length, l.valid (areExpressions depth) = true
  chars : '\r' ∉ text ∧ '\x00' ∉ text

/-- The tokens of the text are read as one expression, whatever comes behind them. -/
structure IsTermOf (text : List Char) (ts : List Token) : Prop extends IsLexedAs text ts where
  reads : ∀ rest, EndsExpression rest →
    ∃ e, (anyPhrase .expression).run (ts ++ rest) = some (e, rest)

/-- The text is an expression wherever it stands in a list of parameters. -/
def IsTerm (text : List Char) : Prop := ∃ ts, IsTermOf text ts

theorem tokens?_succ (depth : Nat) (text : List Char) : tokens? (depth + 1) text =
    (lex? text).bind fun ts => if (ts.all fun
      | .string s => s.valid (areExpressions depth)
      | _ => true) then some ts else none := rfl

theorem level_none {ops : List String} {ts : List Token}
    (h : operand.run ts = none) : (level ops operand).run ts = none := by
  simp [level, h]

theorem joined_none {joint : TokenReader Bool} {ts : List Token}
    (h : operand.run ts = none) : (joined operand joint).run ts = none := by
  simp [joined, h]

theorem expression_star (ts : List Token) : (anyPhrase .expression).run (.op "*" :: ts) = none := by
  have no (t : Token) (ht : t ≠ .op "*") :
      (accept t).run (.op "*" :: ts) = some (false, .op "*" :: ts) :=
    accept_other (by simpa using ht.symm)
  have start : (anyPhrase .expression).run (.op "*" :: ts) =
      (expression (phrase (ts.length + 1))).run (.op "*" :: ts) := rfl
  rw [start]
  generalize phrase (ts.length + 1) = rec
  have factors : (factor rec).run (.op "*" :: ts) = none := by
    have atoms : (atom rec).run (.op "*" :: ts) = none := rfl
    rw [factor_run (by simp)]
    simp [power, primary, atoms, word, no]
  have bits : (bitOr rec).run (.op "*" :: ts) = none :=
    level_none (level_none (level_none (level_none (level_none (level_none factors)))))
  have inverse : (inversion rec).run (.op "*" :: ts) = none := by
    have compared : (joined (bitOr rec) comparisonOperator).run (.op "*" :: ts) = none :=
      joined_none bits
    simp [inversion, word, no, compared]
  have whole : (disjunction rec).run (.op "*" :: ts) = none := joined_none (joined_none inverse)
  simp [expression, word, no, whole]

end TypeStubs.Source
