import TypeStubs.Proofs.ClosedPieces
import TypeStubs.Proofs.DocstringLiterals
import TypeStubs.Proofs.SourceCalls

/-! The texts that the literals of docstrings denote. Backslashes are written as they are, so that a
docstring is denoted by its literal exactly if they start no escapes. -/

namespace TypeStubs

open List Option Source

namespace Source

variable {text : List Char}

/-! What a literal denotes, in code points: an escape may denote a surrogate, which is no character. -/

/-- The characters that stand for one code point behind a backslash. -/
def escapeSigns : List (Char × Nat) :=
  [('\\', 92), ('\'', 39), ('"', 34), ('a', 7), ('b', 8), ('f', 12), ('n', 10), ('r', 13), ('t', 9),
    ('v', 11)]

/-- A digit below eight. -/
def isOctalDigit (c : Char) : Bool := '0' ≤ c && c ≤ '7'

def octalNumber (cs : List Char) : Nat := cs.foldl (fun n c => n * 8 + (c.toNat - 48)) 0

/-- A code point by its hexadecimal digits, and how many characters they take with the letter before
them. -/
def codeEscape? (width : Nat) (cs : List Char) : Option (List Nat × Nat) :=
  if hexPrefix width cs && hexNumber (cs.take width) ≤ 0x10FFFF then
    some ([hexNumber (cs.take width)], width + 1)
  else none

/-- A code point by its name in braces, and how many characters they take with the letter before
them. -/
def nameEscape? (names : List Char → Option Nat) : List Char → Option (List Nat × Nat)
  | '\x7b' :: cs =>
    let name := cs.takeWhile (· != '\x7d')
    if name.isEmpty || cs.length ≤ name.length then none
    else (names name).map fun point => ([point], name.length + 3)
  | _ => none

/-- What the text behind a backslash denotes, and how many characters of it. A line end is left out,
and a character without a meaning stands there with the backslash. -/
def escaped? (names : List Char → Option Nat) : List Char → Option (List Nat × Nat)
  | [] => none
  | c :: cs =>
    if c = '\n' then some ([], 1)
    else if c = 'x' then codeEscape? 2 cs
    else if c = 'u' then codeEscape? 4 cs
    else if c = 'U' then codeEscape? 8 cs
    else if c = 'N' then nameEscape? names cs
    else if isOctalDigit c then
      let digits := (c :: cs.take 2).takeWhile isOctalDigit
      some ([octalNumber digits], digits.length)
    else match escapeSigns.lookup c with
      | some point => some ([point], 1)
      | none => some (['\\'.toNat, c.toNat], 1)

/-- The code points that the characters between quotes denote. The first `skip` characters belong to
the escape that was read last. -/
def pointsFrom? (names : List Char → Option Nat) : (skip : Nat) → List Char → Option (List Nat)
  | _, [] => some []
  | skip + 1, _ :: cs => pointsFrom? names skip cs
  | 0, c :: cs =>
    if c = '\\' then
      (escaped? names cs).bind fun e => (pointsFrom? names e.2 cs).map (e.1 ++ ·)
    else (pointsFrom? names 0 cs).map (c.toNat :: ·)

/-- The code points that a text denotes if it is one plain string literal. `names` gives the code
points that have names. -/
def literalPoints? (names : List Char → Option Nat) (text : List Char) : Option (List Nat) :=
  match lex? text with
  | some [.string ⟨false, false, false, body⟩, .newline] => pointsFrom? names 0 body
  | _ => none

def startsEscape (c : Char) : Bool :=
  c == '\n' || ['x', 'u', 'U', 'N'].contains c || isOctalDigit c || (escapeSigns.lookup c).isSome

/-- The backslashes of a line denote themselves between quotes: none starts an escape, but that one
may stand before three quotes, where it takes the backslash of the first. -/
def keepsBackslashes : List Char → Bool
  | [] => true
  | '\\' :: '"' :: '"' :: '"' :: cs => keepsBackslashes cs
  | ['\\'] => false
  | '\\' :: c :: cs => !startsEscape c && keepsBackslashes cs
  | _ :: cs => keepsBackslashes cs

variable {names : List Char → Option Nat}

theorem pointsFrom?_skip (skipped cs : List Char) :
    pointsFrom? names skipped.length (skipped ++ cs) = pointsFrom? names 0 cs := by
  induction skipped with
  | nil => rfl
  | cons c skipped ih => exact ih

theorem pointsFrom?_plain {c : Char} (h : c ≠ '\\') (cs : List Char) :
    pointsFrom? names 0 (c :: cs) = (pointsFrom? names 0 cs).map (c.toNat :: ·) := by
  rw [pointsFrom?, if_neg h]

theorem pointsFrom?_escape (cs : List Char) : pointsFrom? names 0 ('\\' :: cs) =
    (escaped? names cs).bind fun e => (pointsFrom? names e.2 cs).map (e.1 ++ ·) := by
  rw [pointsFrom?, if_pos rfl]

theorem pointsFrom?_sign {c : Char} (h : c ∈ ['\\', '"']) (cs : List Char) :
    pointsFrom? names 0 ('\\' :: c :: cs) = (pointsFrom? names 0 cs).map (c.toNat :: ·) := by
  rw [pointsFrom?_escape]
  simp only [mem_cons, not_mem_nil, or_false] at h
  rcases h with rfl | rfl <;> rfl

theorem escaped?_plain {c : Char} (h : startsEscape c = false) (cs : List Char) :
    escaped? names (c :: cs) = some (['\\'.toNat, c.toNat], 1) := by
  simp only [startsEscape, Bool.or_eq_false_iff, beq_eq_false_iff_ne, contains_cons,
    contains_nil, isSome_eq_false_iff, isNone_iff_eq_none] at h
  obtain ⟨⟨⟨line, x, u, U, N, -⟩, octal⟩, sign⟩ := h
  simp [escaped?, line, x, u, U, N, octal, sign]

theorem exists_of_append_eq {α : Type} {xs ys front rest : List α} {d : α} (hd : d ∉ xs)
    (h : xs ++ ys = front ++ d :: rest) : ∃ middle, ys = middle ++ d :: rest := by
  rcases append_eq_append_iff.mp h with ⟨middle, -, shape⟩ | ⟨middle, inside, shape⟩
  · exact ⟨middle, shape⟩
  · cases middle with
    | nil => exact ⟨[], shape.symm⟩
    | cons x middle =>
      obtain ⟨rfl, -⟩ := List.cons.inj shape
      exact absurd (inside ▸ mem_append_right _ mem_cons_self) hd

theorem escapeTripleQuotes_behind {cs front rest : List Char} {d : Char} (hd : d ∉ ['"', '\\'])
    (h : escapeTripleQuotes cs = front ++ d :: rest) :
    ∃ ds, ds.length ≤ cs.length ∧ rest = escapeTripleQuotes ds := by
  induction cs using escapeTripleQuotes.induct generalizing front with
  | case1 cs ih =>
    have outside : d ∉ ['\\', '"', '\\', '"', '\\', '"'] := by simp_all
    obtain ⟨middle, shape⟩ := exists_of_append_eq outside h
    obtain ⟨ds, short, same⟩ := ih shape
    exact ⟨ds, Nat.le_trans short (by simp only [length_cons]; omega), same⟩
  | case2 c cs other ih =>
    rw [escapeTripleQuotes_cons (not_isPrefix_of_ne other)] at h
    cases front with
    | nil =>
      cases h
      exact ⟨cs, Nat.le_succ _, rfl⟩
    | cons x front =>
      obtain ⟨ds, short, same⟩ := ih (List.cons.inj h).2
      exact ⟨ds, Nat.le_succ_of_le short, same⟩
  | case3 => cases front <;> cases h

theorem not_mem_of_test {test : Char → Bool} (quote : test '"' = false) (backslash : test '\\' = false)
    {d : Char} (h : test d = true) : d ∉ ['"', '\\'] := by
  intro hd
  simp only [mem_cons, not_mem_nil, or_false] at hd
  rcases hd with rfl | rfl
  · exact Bool.false_ne_true (quote.symm.trans h)
  · exact Bool.false_ne_true (backslash.symm.trans h)

variable (names) in
/-- An escape of an escaped text denotes one code point at most. The text goes on behind it as what was
left before the quotes were escaped. -/
structure Takes (c : Char) (cs : List Char) (e : List Nat × Nat) : Prop where
  points : e.1.length ≤ 1
  rest : ∃ ds, ds.length ≤ cs.length ∧
    pointsFrom? names e.2 (c :: escapeTripleQuotes cs) = pointsFrom? names 0 (escapeTripleQuotes ds)

variable {c : Char} {cs : List Char} {e : List Nat × Nat}

theorem takes_front (front : List Char) {rest : List Char} {points : List Nat} (short : points.length ≤ 1)
    (shape : escapeTripleQuotes cs = front ++ rest)
    (last : ∀ d ∈ front.getLast?, d ∉ ['"', '\\']) : Takes names c cs (points, front.length + 1) := by
  obtain ⟨ds, fits, same⟩ : ∃ ds, ds.length ≤ cs.length ∧ rest = escapeTripleQuotes ds := by
    rcases eq_nil_or_concat front with rfl | ⟨before, d, rfl⟩
    · exact ⟨cs, Nat.le_refl _, shape.symm⟩
    · rw [concat_eq_append, append_assoc] at shape
      exact escapeTripleQuotes_behind (last d (by simp)) shape
  refine ⟨short, ds, fits, ?_⟩
  rw [shape, ← same]
  exact pointsFrom?_skip (c :: front) rest

theorem takes_codeEscape {width : Nat} (h : codeEscape? width (escapeTripleQuotes cs) = some e) :
    Takes names c cs e := by
  unfold codeEscape? at h
  split at h
  · rename_i valid
    cases h
    obtain ⟨length, digits⟩ := Bool.and_eq_true_iff.mp (Bool.and_eq_true_iff.mp valid).1
    have plain : ∀ d ∈ ((escapeTripleQuotes cs).take width).getLast?, d ∉ ['"', '\\'] := fun d hd =>
      not_mem_of_test (by decide) (by decide)
        (all_eq_true.mp digits d (mem_of_getLast? hd))
    have taken : Takes names c cs ([hexNumber ((escapeTripleQuotes cs).take width)],
        ((escapeTripleQuotes cs).take width).length + 1) :=
      takes_front _ (Nat.le_refl 1) (take_append_drop width _).symm plain
    rwa [eq_of_beq length] at taken
  · cases h

theorem takes_nameEscape (h : nameEscape? names (escapeTripleQuotes cs) = some e) :
    Takes names c cs e := by
  unfold nameEscape? at h
  split at h
  · rename_i xs shape
    simp only at h
    split at h
    · cases h
    · rename_i closed
      obtain ⟨point, -, rfl⟩ := map_eq_some_iff.mp h
      rcases first_where (· == '\x7d') xs with none | ⟨name, d, rest, rfl, brace, inside⟩
      · have whole : xs.takeWhile (· != '\x7d') = xs := by
          rw [← append_nil xs,
            takeWhile_append_of_pos fun x hx => by simpa using none x hx, takeWhile_nil]
        simp [whole] at closed
      · obtain rfl := eq_of_beq brace
        have cut : (name ++ '\x7d' :: rest).takeWhile (· != '\x7d') = name := by
          rw [takeWhile_append_of_pos fun x hx => by simpa using inside x hx]
          simp
        have shape' : escapeTripleQuotes cs = ('\x7b' :: name ++ ['\x7d']) ++ rest := by simp [shape]
        have taken : Takes names c cs ([point], ('\x7b' :: name ++ ['\x7d']).length + 1) :=
          takes_front _ (Nat.le_refl 1) shape' fun d hd => by
            rw [getLast?_concat] at hd
            cases hd
            decide
        rw [cut]
        simpa using taken
  · cases h

theorem takes_octal (octal : isOctalDigit c = true) : Takes names c cs
    ([octalNumber ((c :: (escapeTripleQuotes cs).take 2).takeWhile isOctalDigit)],
      ((c :: (escapeTripleQuotes cs).take 2).takeWhile isOctalDigit).length) := by
  obtain ⟨rest, shape⟩ : ((escapeTripleQuotes cs).take 2).takeWhile isOctalDigit <+:
      escapeTripleQuotes cs := (List.takeWhile_prefix _).trans (List.take_prefix _ _)
  rw [takeWhile_cons_of_pos octal, length_cons]
  exact takes_front _ (Nat.le_refl 1) shape.symm fun d hd => not_mem_of_test (by decide) (by decide)
    (all_eq_true.mp all_takeWhile d (mem_of_getLast? hd))

theorem takes_escaped (starts : startsEscape c = true)
    (h : escaped? names (c :: escapeTripleQuotes cs) = some e) : Takes names c cs e := by
  have alone {points : List Nat} (short : points.length ≤ 1) : Takes names c cs (points, 1) :=
    takes_front [] short rfl (by simp)
  rw [escaped?] at h
  split at h
  · cases h
    exact alone (Nat.zero_le 1)
  split at h
  · exact takes_codeEscape h
  split at h
  · exact takes_codeEscape h
  split at h
  · exact takes_codeEscape h
  split at h
  · exact takes_nameEscape h
  split at h
  · rename_i octal
    cases h
    exact takes_octal octal
  split at h
  · cases h
    exact alone (Nat.le_refl 1)
  · simp_all [startsEscape]

theorem keepsBackslashes_plain (h : c ≠ '\\') (cs : List Char) :
    keepsBackslashes (c :: cs) = keepsBackslashes cs := by
  rw [keepsBackslashes]
  · simp [h]
  · simp [h]
  · simp [h]

theorem keepsBackslashes_before (h : ¬ tripleQuote <+: c :: cs) :
    keepsBackslashes ('\\' :: c :: cs) = (!startsEscape c && keepsBackslashes cs) := by
  rw [keepsBackslashes]
  rintro rest rfl rfl
  exact h (prefix_append _ _)

theorem pointsFrom?_of_keeps (h : keepsBackslashes text = true) :
    pointsFrom? names 0 (escapeTripleQuotes text) = some (text.map Char.toNat) := by
  induction length : text.length using Nat.strongRecOn generalizing text with
  | ind n ih =>
    subst length
    cases docstringStep text with
    | done => rfl
    | quotes cs =>
      simp only [keepsBackslashes_plain (c := '"') (by decide)] at h
      have rest := ih cs.length (by simp only [length_cons]; omega) h rfl
      simp [escapeTripleQuotes, pointsFrom?_sign, rest]
    | beforeQuotes cs =>
      rw [keepsBackslashes] at h
      have rest := ih cs.length (by simp only [length_cons]; omega) h rfl
      rw [escapeTripleQuotes_plain (by decide)]
      simp [escapeTripleQuotes, pointsFrom?_sign, pointsFrom?_plain, rest]
    | final => cases h
    | @before c cs other =>
      rw [keepsBackslashes_before other, Bool.and_eq_true_iff, Bool.not_eq_true'] at h
      have rest := ih cs.length (by simp only [length_cons]; omega) h.2 rfl
      rw [escapeTripleQuotes_plain (by decide), escapeTripleQuotes_cons other, pointsFrom?_escape,
        escaped?_plain h.1, bind_some]
      change (pointsFrom? names 0 (escapeTripleQuotes cs)).map _ = _
      rw [rest]
      rfl
    | @plain c cs backslash other =>
      rw [keepsBackslashes_plain backslash] at h
      have rest := ih cs.length (by simp only [length_cons]; omega) h rfl
      rw [escapeTripleQuotes_cons other, pointsFrom?_plain backslash, rest]
      rfl

/-- An escaped text denotes no more than the text has characters, and less if one of its backslashes
starts an escape. -/
theorem length_pointsFrom? {points : List Nat}
    (h : pointsFrom? names 0 (escapeTripleQuotes text) = some points) :
    points.length ≤ text.length ∧ (keepsBackslashes text = false → points.length < text.length) := by
  induction length : text.length using Nat.strongRecOn generalizing text points with
  | ind n ih =>
    subst length
    cases docstringStep text with
    | done =>
      cases h
      exact ⟨Nat.le_refl 0, fun lost => absurd lost Bool.noConfusion⟩
    | quotes cs =>
      simp only [escapeTripleQuotes, pointsFrom?_sign (c := '"') (by simp), Option.map_map] at h
      obtain ⟨rest, read, rfl⟩ := map_eq_some_iff.mp h
      obtain ⟨most, less⟩ := ih cs.length (by simp only [length_cons]; omega) read rfl
      simp only [keepsBackslashes_plain (c := '"') (by decide)]
      exact ⟨Nat.add_le_add_right most 3, fun lost => Nat.add_lt_add_right (less lost) 3⟩
    | beforeQuotes cs =>
      rw [escapeTripleQuotes_plain (by decide)] at h
      simp only [escapeTripleQuotes, pointsFrom?_sign (c := '\\') (by simp),
        pointsFrom?_plain (c := '"') (by decide), pointsFrom?_sign (c := '"') (by simp),
        Option.map_map] at h
      obtain ⟨rest, read, rfl⟩ := map_eq_some_iff.mp h
      obtain ⟨most, less⟩ := ih cs.length (by simp only [length_cons]; omega) read rfl
      rw [keepsBackslashes]
      exact ⟨Nat.add_le_add_right most 4, fun lost => Nat.add_lt_add_right (less lost) 4⟩
    | final => cases h
    | @before c cs other =>
      rw [escapeTripleQuotes_plain (by decide), escapeTripleQuotes_cons other, pointsFrom?_escape] at h
      obtain ⟨e, read, h⟩ := bind_eq_some_iff.mp h
      obtain ⟨rest, read', rfl⟩ := map_eq_some_iff.mp h
      rw [keepsBackslashes_before other]
      cases starts : startsEscape c with
      | true =>
        obtain ⟨single, ds, short, same⟩ := takes_escaped starts read
        rw [same] at read'
        obtain ⟨most, -⟩ := ih ds.length (by simp only [length_cons]; omega) read' rfl
        simp only [length_append, length_cons]
        omega
      | false =>
        rw [escaped?_plain starts] at read
        cases read
        obtain ⟨most, less⟩ := ih cs.length (by simp only [length_cons]; omega) read' rfl
        exact ⟨Nat.add_le_add_right most 2, fun lost => Nat.add_lt_add_right (less lost) 2⟩
    | @plain c cs backslash other =>
      rw [escapeTripleQuotes_cons other, pointsFrom?_plain backslash] at h
      obtain ⟨rest, read, rfl⟩ := map_eq_some_iff.mp h
      obtain ⟨most, less⟩ := ih cs.length (Nat.lt_succ_self _) read rfl
      rw [keepsBackslashes_plain backslash]
      exact ⟨Nat.succ_le_succ most, fun lost => Nat.succ_lt_succ (less lost)⟩

theorem pointsFrom?_eq_iff :
    pointsFrom? names 0 (escapeTripleQuotes text) = some (text.map Char.toNat) ↔
      keepsBackslashes text = true := by
  refine ⟨fun h => ?_, pointsFrom?_of_keeps⟩
  cases kept : keepsBackslashes text with
  | true => rfl
  | false =>
    have less := (length_pointsFrom? h).2 kept
    rw [length_map] at less
    exact absurd less (Nat.lt_irrefl _)

theorem keepsBackslashes_line (line rest : List Char) :
    keepsBackslashes (line ++ '\n' :: rest) = (keepsBackslashes line && keepsBackslashes rest) := by
  induction length : line.length using Nat.strongRecOn generalizing line with
  | ind n ih =>
    subst length
    cases docstringStep line with
    | done => exact keepsBackslashes_plain (by decide) rest
    | quotes cs =>
      simp only [cons_append, keepsBackslashes_plain (c := '"') (by decide)]
      exact ih cs.length (by simp only [length_cons]; omega) cs rfl
    | beforeQuotes cs => exact ih cs.length (by simp only [length_cons]; omega) cs rfl
    | final => exact keepsBackslashes_before (by simp [tripleQuote])
    | @before c cs other =>
      have apart : ¬ tripleQuote <+: c :: (cs ++ '\n' :: rest) :=
        fun quotes => other (tripleQuote_isPrefix_line quotes)
      simp only [cons_append, keepsBackslashes_before other, keepsBackslashes_before apart,
        ih cs.length (by simp only [length_cons]; omega) cs rfl, Bool.and_assoc]
    | @plain c cs backslash other =>
      simp only [cons_append, keepsBackslashes_plain backslash]
      exact ih cs.length (Nat.lt_succ_self _) cs rfl

theorem keepsBackslashes_lines (lines : List (List Char)) :
    keepsBackslashes (lines.flatMap (· ++ ['\n'])) = lines.all keepsBackslashes := by
  induction lines with
  | nil => rfl
  | cons line lines ih =>
    rw [flatMap_cons, append_assoc, singleton_append, keepsBackslashes_line, ih, all_cons]

end Source

theorem mem_escapeTripleQuotes {c : Char} (h : c ≠ '\\') {cs : List Char} :
    c ∈ escapeTripleQuotes cs ↔ c ∈ cs := by
  induction cs using escapeTripleQuotes.induct with
  | case1 cs ih => simp [escapeTripleQuotes, ih, h]
  | case2 d cs other ih => rw [escapeTripleQuotes_cons (not_isPrefix_of_ne other)]; simp [ih]
  | case3 => rfl

theorem flatten_splitLines (cs : List Char) :
    (splitLines cs).flatten = cs.filter fun c => !isLineEnd c := by
  induction cs using splitLines.induct with
  | case1 => rfl
  | case2 cs ih => rw [splitLines, flatten_cons, ih]; rfl
  | case3 c cs other ends ih =>
    rw [splitLines, if_pos ends, flatten_cons, ih, filter_cons_of_neg (by simp [ends])]
    · rfl
    · exact other
  | case4 c cs other ends empty ih =>
    rw [empty] at ih
    rw [splitLines, if_neg ends, empty, filter_cons_of_pos (by simp [ends]), ← ih]
    · rfl
    · exact other
  | case5 c cs other ends line lines shape ih =>
    rw [shape] at ih
    rw [splitLines, if_neg ends, shape, filter_cons_of_pos (by simp [ends]), ← ih]
    · rfl
    · exact other

/-- The text that is to stand between the quotes of a docstring: its lines on lines of their own. -/
def docstringText (doc : String) : List Char :=
  '\n' :: (joinWith "\n" (textLines doc)).toList ++ if (textLines doc).isEmpty then [] else ['\n']

theorem intercalate_append_separator (separator x : List Char) (xs : List (List Char)) :
    intercalate separator (x :: xs) ++ separator = (x :: xs).flatMap (· ++ separator) := by
  induction xs generalizing x with
  | nil => simp
  | cons y xs ih => rw [intercalate_cons_cons, append_assoc, ih y]; simp

theorem docstringText_eq (doc : String) :
    docstringText doc = '\n' :: (splitLines doc.toList).flatMap (· ++ ['\n']) := by
  have lines : (textLines doc).map String.toList = splitLines doc.toList := by
    simp [textLines, Function.comp_def]
  rw [docstringText, joinWith, String.toList_intercalate, lines]
  cases h : splitLines doc.toList with
  | nil => simp [textLines, h]
  | cons line lines =>
    have ended := intercalate_append_separator ['\n'] line lines
    rw [← ended]
    simp [textLines, h]

theorem docstringBody_nil (doc : String) :
    docstringBody [] doc = escapeTripleQuotes (docstringText doc) := by
  have lines (ls : List (List Char)) : ls.flatMap (fun line => escapeTripleQuotes line ++ ['\n']) =
      escapeTripleQuotes (ls.flatMap (· ++ ['\n'])) := by
    induction ls with
    | nil => rfl
    | cons line ls ih =>
      rw [flatMap_cons, flatMap_cons, ih, append_assoc, append_assoc,
        singleton_append, singleton_append, escapeTripleQuotes_line]
  rw [docstringText_eq, escapeTripleQuotes_plain (by decide), docstringBody, ← lines, append_nil]
  rfl

/-- Of line ends only the line feed stands in a docstring, and of other characters those that stood
there before. -/
theorem mem_docstringBody {c : Char} (h : c ∉ ['\\', '\n']) (doc : String) :
    c ∈ docstringBody [] doc ↔ c ∈ doc.toList ∧ isLineEnd c = false := by
  simp only [mem_cons, not_mem_nil, or_false, not_or] at h
  have lines := flatten_splitLines doc.toList
  have mem : c ∈ (splitLines doc.toList).flatten ↔ c ∈ docstringText doc := by
    simp [docstringText_eq, h.2]
  rw [docstringBody_nil, mem_escapeTripleQuotes h.1, ← mem, lines]
  simp

theorem token_docstring (doc : String) (rest : List Char) :
    token (tripleQuote ++ docstringBody [] doc ++ tripleQuote ++ rest) =
      some (.string ⟨false, false, false, docstringBody [] doc⟩, rest) := by
  have closed : blockString '"' (docstringBody [] doc ++ (tripleQuote ++ rest)) =
      some (docstringBody [] doc, rest) := by
    have passed := blockString_docstringBody 0 doc (tripleQuote ++ rest)
    rw [blockString_tripleQuote] at passed
    simpa [inFront] using passed
  have scanned : stringToken? (tripleQuote ++ docstringBody [] doc ++ tripleQuote ++ rest) =
      some (some (.string ⟨false, false, false, docstringBody [] doc⟩, rest)) := by
    rw [append_assoc, append_assoc]
    generalize docstringBody [] doc ++ (tripleQuote ++ rest) = tail at closed ⊢
    simp [stringToken?, stringMarks, tripleQuote, closed]
  rw [token.eq_def, scanned]

/-- A docstring is one string literal, unless it holds a null character. -/
theorem lex?_docstring (doc : String) : lex? (tripleQuote ++ docstringBody [] doc ++ tripleQuote) =
    if '\x00' ∈ doc.toList then none
    else some [.string ⟨false, false, false, docstringBody [] doc⟩, .newline] := by
  have outside {c : Char} (hc : c ∉ tripleQuote) :
      c ∈ tripleQuote ++ docstringBody [] doc ++ tripleQuote ↔ c ∈ docstringBody [] doc := by
    simp [hc]
  have noReturn : '\r' ∉ tripleQuote ++ docstringBody [] doc ++ tripleQuote := by
    rw [outside (by decide), mem_docstringBody (by decide)]
    exact fun h => absurd h.2 (by decide)
  have null : '\x00' ∈ tripleQuote ++ docstringBody [] doc ++ tripleQuote ↔ '\x00' ∈ doc.toList := by
    rw [outside (by decide), mem_docstringBody (by decide)]
    simp [show isLineEnd '\x00' = false by decide]
  have last : '"' ∈ (tripleQuote ++ docstringBody [] doc ++ tripleQuote).getLast? := by
    rw [getLast?_append]
    rfl
  have token := token_docstring doc ['\n']
  simp only [lex?_line noReturn ⟨_, last, by decide⟩, null]
  split
  · rfl
  · generalize 2 * (tripleQuote ++ docstringBody [] doc ++ tripleQuote).length = fuel
    rw [tripleQuote, cons_append, cons_append, cons_append] at token ⊢
    rw [lexFrom_start (by decide), lexFrom_token (by decide) token rfl]
    rfl

/-- A docstring is denoted by its literal if and only if it holds no null character and its backslashes
start no escapes. -/
theorem docstring_kept_iff (names : List Char → Option Nat) (p : Printer) (doc : String) :
    Source.literalPoints? names (joinWith "\n" (p.docstringLines doc)).toList =
        some ((docstringText doc).map Char.toNat) ↔
      '\x00' ∉ doc.toList ∧ ∀ line ∈ textLines doc, Source.keepsBackslashes line.toList = true := by
  have text := toList_docstringLines p doc 0
  have lines : (∀ line ∈ textLines doc, Source.keepsBackslashes line.toList = true) ↔
      Source.keepsBackslashes (docstringText doc) = true := by
    rw [docstringText_eq, Source.keepsBackslashes_plain (by decide), Source.keepsBackslashes_lines]
    simp [textLines]
  rw [Function.iterate_zero, id, List.replicate_zero, List.nil_append] at text
  rw [text, Source.literalPoints?, lex?_docstring, lines]
  by_cases null : '\x00' ∈ doc.toList
  · simp [null]
  · rw [docstringBody_nil]
    simp [null, Source.pointsFrom?_eq_iff]

/-- A backslash is written as it is. The literal of `\theta` has a tabulator in place of its first two
characters, and what is written for `\x` is no literal. -/
theorem backslashes_not_kept :
    Source.literalPoints? (fun _ => none)
        (joinWith "\n" (({} : Printer).docstringLines "\\theta")).toList =
      some ("\n\theta\n".toList.map Char.toNat) ∧
    "\n\theta\n".toList ≠ docstringText "\\theta" ∧
    Source.literalPoints? (fun _ => none) (joinWith "\n" (({} : Printer).docstringLines "\\x")).toList =
      none := by
  refine ⟨?_, ?_, ?_⟩ <;> decide

end TypeStubs
