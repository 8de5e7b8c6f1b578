import Mathlib.Logic.Function.Iterate
import TypeStubs.Source.Lexer
import TypeStubs.Stub.Printer

/-! Docstrings between triple quotes, and where their literals end. -/

namespace TypeStubs

open List

variable {c : Char} {cs : List Char}

/-- The quotes around a docstring. -/
def tripleQuote : List Char := ['"', '"', '"']

/-- How a text goes on, for the quotes that are escaped in it and the backslashes that are not. -/
inductive DocstringStep : List Char → Prop
  | done : DocstringStep []
  /-- Three quotes, each of which gets a backslash. -/
  | quotes (cs : List Char) : DocstringStep ('"' :: '"' :: '"' :: cs)
  /-- A backslash, which takes the one that the first of three quotes gets. -/
  | beforeQuotes (cs : List Char) : DocstringStep ('\\' :: '"' :: '"' :: '"' :: cs)
  | final : DocstringStep ['\\']
  /-- A backslash before another character, which is written as it is. -/
  | before {c : Char} {cs : List Char} (other : ¬ tripleQuote <+: c :: cs) :
    DocstringStep ('\\' :: c :: cs)
  | plain {c : Char} {cs : List Char} (noBackslash : c ≠ '\\') (other : ¬ tripleQuote <+: c :: cs) :
    DocstringStep (c :: cs)

theorem docstringStep (cs : List Char) : DocstringStep cs := by
  have start {xs : List Char} (h : tripleQuote <+: xs) : ∃ rest, xs = '"' :: '"' :: '"' :: rest := by
    obtain ⟨rest, rfl⟩ := h
    exact ⟨rest, rfl⟩
  cases cs with
  | nil => exact .done
  | cons c cs =>
    by_cases quotes : tripleQuote <+: c :: cs
    · obtain ⟨rest, shape⟩ := start quotes
      rw [shape]
      exact .quotes rest
    by_cases backslash : c = '\\'
    · subst backslash
      cases cs with
      | nil => exact .final
      | cons d ds =>
        by_cases behind : tripleQuote <+: d :: ds
        · obtain ⟨rest, shape⟩ := start behind
          rw [shape]
          exact .beforeQuotes rest
        · exact .before behind
    · exact .plain backslash quotes

theorem not_isPrefix_of_ne (h : ∀ rest, c = '"' → cs = '"' :: '"' :: rest → False) :
    ¬ tripleQuote <+: c :: cs := by
  rintro ⟨rest, shape⟩
  obtain ⟨first, others⟩ := List.cons.inj shape
  exact h rest first.symm others.symm

theorem escapeTripleQuotes_cons (h : ¬ tripleQuote <+: c :: cs) :
    escapeTripleQuotes (c :: cs) = c :: escapeTripleQuotes cs := by
  rw [escapeTripleQuotes]
  rintro rest rfl rfl
  exact h (prefix_append _ _)

theorem escapeTripleQuotes_plain (h : c ≠ '"') (cs : List Char) :
    escapeTripleQuotes (c :: cs) = c :: escapeTripleQuotes cs :=
  escapeTripleQuotes_cons fun quotes => h (cons_prefix_cons.mp quotes).1.symm

theorem escapeTripleQuotes_append {front : List Char} (h : '"' ∉ front) (cs : List Char) :
    escapeTripleQuotes (front ++ cs) = front ++ escapeTripleQuotes cs := by
  induction front with
  | nil => rfl
  | cons c front ih =>
    have first : c ≠ '"' := fun hc => h (hc ▸ mem_cons_self)
    rw [cons_append, escapeTripleQuotes_plain first, ih fun hin => h (.tail _ hin), cons_append]

theorem tripleQuote_isPrefix_line {line rest : List Char} (h : tripleQuote <+: line ++ '\n' :: rest) :
    tripleQuote <+: line := by
  rcases line with _ | ⟨a, _ | ⟨b, _ | ⟨c, line⟩⟩⟩
  · simp [tripleQuote] at h
  · simp [tripleQuote] at h
  · simp [tripleQuote] at h
  · simpa [tripleQuote] using h

theorem escapeTripleQuotes_line (line rest : List Char) :
    escapeTripleQuotes (line ++ '\n' :: rest) =
      escapeTripleQuotes line ++ '\n' :: escapeTripleQuotes rest := by
  induction line using escapeTripleQuotes.induct with
  | case1 cs ih => simp only [cons_append, escapeTripleQuotes, ih]
  | case2 c cs other ih =>
    have apart := not_isPrefix_of_ne other
    have apart' : ¬ tripleQuote <+: c :: (cs ++ '\n' :: rest) :=
      fun quotes => apart (tripleQuote_isPrefix_line quotes)
    rw [cons_append, escapeTripleQuotes_cons apart', ih, escapeTripleQuotes_cons apart, cons_append]
  | case3 => exact escapeTripleQuotes_plain (by decide) rest

theorem escapeTripleQuotes_eq_quote {rest : List Char} (h : escapeTripleQuotes cs = '"' :: rest) :
    ∃ ds, cs = '"' :: ds ∧ escapeTripleQuotes ds = rest := by
  cases docstringStep cs with
  | done => cases h
  | quotes cs => cases h
  | beforeQuotes cs => cases h
  | final => cases h
  | before other => cases h
  | plain _ other =>
    rw [escapeTripleQuotes_cons other] at h
    cases h
    exact ⟨_, rfl, rfl⟩

theorem not_isPrefix_escapeTripleQuotes (h : ¬ tripleQuote <+: c :: cs) (rest : List Char) :
    ¬ tripleQuote <+: c :: (escapeTripleQuotes cs ++ '\n' :: rest) := by
  intro quotes
  obtain ⟨after, shape⟩ : tripleQuote <+: c :: escapeTripleQuotes cs := tripleQuote_isPrefix_line quotes
  obtain ⟨rfl, second⟩ := List.cons.inj shape
  obtain ⟨ds, rfl, third⟩ := escapeTripleQuotes_eq_quote second.symm
  obtain ⟨es, rfl, -⟩ := escapeTripleQuotes_eq_quote third
  exact h (by simp [tripleQuote])

namespace Source

def inFront (front : List Char) (scanned : Option (List Char × List Char)) :
    Option (List Char × List Char) := scanned.map fun r => (front ++ r.1, r.2)

theorem inFront_nil (scanned : Option (List Char × List Char)) : inFront [] scanned = scanned := by
  cases scanned <;> rfl

theorem inFront_append (a b : List Char) (scanned : Option (List Char × List Char)) :
    inFront (a ++ b) scanned = inFront a (inFront b scanned) := by
  cases scanned with
  | none => rfl
  | some r => simp [inFront]

theorem blockString_escape (quote c : Char) (cs : List Char) :
    blockString quote ('\\' :: c :: cs) = inFront ['\\', c] (blockString quote cs) := by
  rw [blockString]
  cases blockString quote cs <;> rfl

theorem blockString_plain (backslash : c ≠ '\\') (quotes : ¬ tripleQuote <+: c :: cs) :
    blockString '"' (c :: cs) = inFront [c] (blockString '"' cs) := by
  have apart : ['"', '"', '"'].isPrefixOf (c :: cs) = false :=
    Bool.eq_false_iff.mpr fun h => quotes (List.isPrefixOf_iff_prefix.mp h)
  rw [blockString]
  · rw [if_neg (Bool.eq_false_iff.mp apart)]
    cases blockString '"' cs <;> rfl
  · simp [backslash]
  · simp [backslash]

theorem blockString_tripleQuote (rest : List Char) :
    blockString '"' (tripleQuote ++ rest) = some ([], rest) := by
  rw [tripleQuote, cons_append, blockString]
  · simp
  · simp
  · simp

/-- A literal is not closed in a line of a docstring. A backslash before quotes and one at the end of
the line keep their next character from closing, too. -/
theorem blockString_line (line rest : List Char) :
    blockString '"' (escapeTripleQuotes line ++ '\n' :: rest) =
      inFront (escapeTripleQuotes line ++ ['\n']) (blockString '"' rest) := by
  induction h : line.length using Nat.strongRecOn generalizing line with
  | ind n ih =>
    subst h
    cases docstringStep line with
    | done => exact blockString_plain (by decide) (by simp [tripleQuote])
    | quotes cs =>
      have others := ih cs.length (by simp only [length_cons]; omega) cs rfl
      simp only [escapeTripleQuotes, cons_append, blockString_escape, others, ← inFront_append]
      rfl
    | beforeQuotes cs =>
      have others := ih cs.length (by simp only [length_cons]; omega) cs rfl
      rw [escapeTripleQuotes_plain (by decide)]
      simp only [escapeTripleQuotes, cons_append, blockString_escape]
      rw [blockString_plain (by decide) (by simp [tripleQuote])]
      simp only [blockString_escape, others, ← inFront_append]
      rfl
    | final => exact blockString_escape '"' '\n' rest
    | @before c cs other =>
      have others := ih cs.length (by simp only [length_cons]; omega) cs rfl
      rw [escapeTripleQuotes_plain (by decide), escapeTripleQuotes_cons other]
      simp only [cons_append, blockString_escape, others, ← inFront_append]
      rfl
    | @plain c cs backslash other =>
      have others := ih cs.length (by simp only [length_cons]; omega) cs rfl
      rw [escapeTripleQuotes_cons other, cons_append,
        blockString_plain backslash (not_isPrefix_escapeTripleQuotes other rest), others,
        ← inFront_append]
      rfl

theorem blockString_spaces (n : Nat) (rest : List Char) :
    blockString '"' (replicate n ' ' ++ rest) =
      inFront (replicate n ' ') (blockString '"' rest) := by
  induction n with
  | zero => exact (inFront_nil _).symm
  | succ n ih =>
    rw [replicate_succ, cons_append, blockString_plain (by decide) (by simp [tripleQuote]),
      ih, ← inFront_append]
    rfl

theorem blockString_lines (lines : List (List Char)) (rest : List Char) :
    blockString '"' (lines.flatMap (fun line => escapeTripleQuotes line ++ ['\n']) ++ rest) =
      inFront (lines.flatMap fun line => escapeTripleQuotes line ++ ['\n']) (blockString '"' rest) := by
  induction lines with
  | nil => exact (inFront_nil _).symm
  | cons line lines ih =>
    have first := blockString_line line
      (lines.flatMap (fun line => escapeTripleQuotes line ++ ['\n']) ++ rest)
    rw [ih, ← inFront_append] at first
    simpa using first

end Source

/-- What stands between the quotes of a docstring whose lines are moved to the right by some blanks. -/
def docstringBody (indent : List Char) (doc : String) : List Char :=
  '\n' :: (splitLines doc.toList).flatMap (fun line => escapeTripleQuotes (indent ++ line) ++ ['\n']) ++
    indent

theorem toList_indentLines (n : Nat) (lines : List String) : (indentLines^[n] lines).map String.toList =
    lines.map fun line => replicate (4 * n) ' ' ++ line.toList := by
  induction n with
  | zero => simp
  | succ n ih =>
    have blanks : "    ".toList = replicate 4 ' ' := by decide
    rw [Function.iterate_succ_apply', indentLines, map_map]
    have inner : (indentLines^[n] lines).map (String.toList ∘ ("    " ++ ·)) =
        ((indentLines^[n] lines).map String.toList).map (replicate 4 ' ' ++ ·) := by
      simp only [map_map, Function.comp_def, String.toList_append, blanks]
    rw [inner, ih, map_map]
    refine map_congr_left fun line _ => ?_
    rw [Function.comp_apply, ← append_assoc, replicate_append_replicate]
    congr 2
    omega

theorem intercalate_between (separator first last : List Char) (xs : List (List Char)) :
    intercalate separator (first :: xs ++ [last]) =
      first ++ separator ++ xs.flatMap (· ++ separator) ++ last := by
  induction xs generalizing first with
  | nil => simp [intercalate_cons_cons]
  | cons x xs ih =>
    have rest := ih x
    simp only [cons_append] at rest ⊢
    rw [intercalate_cons_cons, rest]
    simp

theorem toList_docstringLines (p : Printer) (doc : String) (n : Nat) :
    (joinWith "\n" (indentLines^[n] (p.docstringLines doc))).toList =
      replicate (4 * n) ' ' ++ tripleQuote ++
        docstringBody (replicate (4 * n) ' ') doc ++ tripleQuote := by
  have quotes : "\"\"\"".toList = tripleQuote := by decide
  have escaped (line : List Char) : replicate (4 * n) ' ' ++ escapeTripleQuotes line =
      escapeTripleQuotes (replicate (4 * n) ' ' ++ line) :=
    (escapeTripleQuotes_append (by simp) line).symm
  rw [joinWith, String.toList_intercalate, toList_indentLines, Printer.docstringLines,
    map_append, map_cons, map_singleton, intercalate_between, quotes, docstringBody]
  simp [flatMap_map, escaped]

theorem Source.blockString_docstringBody (n : Nat) (doc : String) (rest : List Char) :
    blockString '"' (docstringBody (replicate n ' ') doc ++ rest) =
      inFront (docstringBody (replicate n ' ') doc) (blockString '"' rest) := by
  have lines := blockString_lines ([] :: (splitLines doc.toList).map (replicate n ' ' ++ ·))
    (replicate n ' ' ++ rest)
  rw [blockString_spaces, ← inFront_append] at lines
  simpa [docstringBody, flatMap_map, escapeTripleQuotes] using lines

/-- No docstring ends its own literal, however far it is moved to the right: a literal that starts at
the quotes of the first line ends at those of the last, whatever follows. -/
theorem docstring_closed_by_last_line (p : Printer) (doc : String) (n : Nat) (rest : List Char) :
    ∃ body, (joinWith "\n" (indentLines^[n] (p.docstringLines doc))).toList =
        List.replicate (4 * n) ' ' ++ tripleQuote ++ body ++ tripleQuote ∧
      ((indentLines^[n] (p.docstringLines doc)).map String.toList).getLast? =
        some (List.replicate (4 * n) ' ' ++ tripleQuote) ∧
      Source.blockString '"' (body ++ tripleQuote ++ rest) = some (body, rest) := by
  refine ⟨_, toList_docstringLines p doc n, ?_, ?_⟩
  · rw [toList_indentLines, Printer.docstringLines, map_append, map_singleton, getLast?_concat]
    rfl
  · rw [append_assoc, Source.blockString_docstringBody, Source.blockString_tripleQuote]
    simp [Source.inFront]

end TypeStubs
