import TypeStubs.Proofs.SourceCalls

/-! Quoted texts are string literals: the quote at their end closes them, their escapes are complete,
and the characters that they denote are those of the text. -/

namespace TypeStubs

open List Source

variable {n width : Nat} {c quote : Char} {cs : List Char}

namespace Quoted

/-! Hexadecimal digits. -/

theorem mem_toDigits_hex (h : c ∈ Nat.toDigits 16 n) : ∃ d < 16, c = Nat.digitChar d := by
  induction n using Nat.strongRecOn with
  | ind n ih =>
    by_cases hn : n < 16
    · rw [Nat.toDigits_of_lt_base hn, mem_singleton] at h
      exact ⟨n, hn, h⟩
    · rw [Nat.toDigits_of_base_le (by decide) (Nat.le_of_not_lt hn), mem_append] at h
      rcases h with h | h
      · exact ih (n / 16) (by omega) h
      · exact ⟨n % 16, Nat.mod_lt _ (by decide), mem_singleton.mp h⟩

theorem of_mem_hexDigits (h : c ∈ hexDigits width n) :
    isHexDigit c = true ∧ c ∉ ['\\', '\n', '\'', '"'] ∧ isPrintable c = true := by
  have digits : ∀ d < 16, isHexDigit (Nat.digitChar d) = true ∧
      Nat.digitChar d ∉ ['\\', '\n', '\'', '"'] ∧ isPrintable (Nat.digitChar d) = true := by decide
  rcases mem_append.mp h with zero | digit
  · rw [eq_of_mem_replicate zero]
    exact digits 0 (by decide)
  · obtain ⟨d, hd, rfl⟩ := mem_toDigits_hex digit
    exact digits d hd

theorem length_hexDigits (hw : 0 < width) (h : n < Nat.pow 16 width) :
    (hexDigits width n).length = width := by
  have short := (Nat.length_toDigits_le_iff (b := 16) (by decide) hw).mpr h
  simp only [hexDigits, length_append, length_replicate]
  omega

theorem hexNumber_append (cs : List Char) (c : Char) : hexNumber (cs ++ [c]) =
    hexNumber cs * 16 +
      (if c.isDigit then c.toNat - 48 else if c ≤ 'F' then c.toNat - 55 else c.toNat - 87) := by
  rw [hexNumber, foldl_append]
  rfl

theorem hexNumber_toDigits (n : Nat) : hexNumber (Nat.toDigits 16 n) = n := by
  have digits : ∀ d < 16, hexNumber [Nat.digitChar d] = d := by decide
  induction n using Nat.strongRecOn with
  | ind n ih =>
    by_cases hn : n < 16
    · rw [Nat.toDigits_of_lt_base hn, digits n hn]
    · have last := digits (n % 16) (Nat.mod_lt _ (by decide))
      rw [← nil_append [_], hexNumber_append] at last
      rw [Nat.toDigits_of_base_le (by decide) (Nat.le_of_not_lt hn), hexNumber_append,
        ih (n / 16) (by omega)]
      have zero : hexNumber [] = 0 := rfl
      omega

theorem hexNumber_hexDigits (width n : Nat) : hexNumber (hexDigits width n) = n := by
  have zeros (k : Nat) : (replicate k '0' ++ Nat.toDigits 16 n).foldl (fun n c => n * 16 +
      (if c.isDigit then c.toNat - 48 else if c ≤ 'F' then c.toNat - 55 else c.toNat - 87)) 0 =
        hexNumber (Nat.toDigits 16 n) := by
    induction k with
    | zero => rfl
    | succ k ih => rw [replicate_succ, cons_append, foldl_cons]; exact ih
  rw [hexDigits, hexNumber, zeros, hexNumber_toDigits]

/-! Characters between quotes. -/

/-- What stands for a character between quotes. -/
inductive Stands (quote : Char) : Char → List Char → Prop
  | plain {c : Char} : c ∉ ['\\', quote] → isPrintable c = true → Stands quote c [c]
  | escape {c d : Char} : (c, d) ∈
      [(quote, quote), ('\\', '\\'), ('\t', 't'), ('\n', 'n'), ('\r', 'r')] → Stands quote c ['\\', d]
  | code {c letter : Char} {width : Nat} : (letter, width) ∈ [('x', 2), ('u', 4), ('U', 8)] →
      c.toNat < Nat.pow 16 width → Stands quote c ('\\' :: letter :: hexDigits width c.toNat)

theorem stands_encodeChar (quote c : Char) : Stands quote c (encodeChar quote c) := by
  have bound : c.toNat < Nat.pow 16 8 := by
    rcases c.valid with h | h
    · exact Nat.lt_trans h (by decide)
    · exact Nat.lt_trans h.2 (by decide)
  unfold encodeChar
  split
  · rename_i special
    rcases Bool.or_eq_true_iff.mp special with h | h
    · rw [of_decide_eq_true h]
      exact .escape mem_cons_self
    · rw [of_decide_eq_true h]
      exact .escape (by simp)
  · rename_i ordinary
    repeat' split
    · subst c
      exact .escape (by simp)
    · subst c
      exact .escape (by simp)
    · subst c
      exact .escape (by simp)
    · rename_i printable
      refine .plain (fun h => ordinary ?_) printable
      simpa [or_comm] using h
    · rename_i small
      exact .code (by simp) (by simpa using small)
    · rename_i small
      exact .code (by simp) (by simpa using small)
    · exact .code (by simp) bound

def body (quote : Char) (cs : List Char) : List Char := cs.flatMap (encodeChar quote)

theorem encode_eq (cs : List Char) : encode cs = mark cs :: (body (mark cs) cs ++ [mark cs]) := rfl

theorem body_cons (quote c : Char) (cs : List Char) :
    body quote (c :: cs) = encodeChar quote c ++ body quote cs := rfl

theorem isQuote_mark (cs : List Char) : mark cs = '"' ∨ mark cs = '\'' := by
  unfold mark
  split
  · exact .inl rfl
  · exact .inr rfl

theorem isPrintable_of_mem_body (hq : quote = '"' ∨ quote = '\'') (h : c ∈ body quote cs) :
    isPrintable c = true := by
  obtain ⟨d, -, hc⟩ := mem_flatMap.mp h
  have stands := stands_encodeChar quote d
  generalize encodeChar quote d = text at hc stands
  cases stands with
  | plain _ printable =>
    cases mem_singleton.mp hc
    exact printable
  | escape known =>
    simp only [mem_cons, not_mem_nil, or_false, Prod.mk.injEq] at known hc
    rcases hq with rfl | rfl
    · rcases hc with rfl | rfl
      · decide
      · rcases known with ⟨-, rfl⟩ | ⟨-, rfl⟩ | ⟨-, rfl⟩ | ⟨-, rfl⟩ | ⟨-, rfl⟩ <;> decide
    · rcases hc with rfl | rfl
      · decide
      · rcases known with ⟨-, rfl⟩ | ⟨-, rfl⟩ | ⟨-, rfl⟩ | ⟨-, rfl⟩ | ⟨-, rfl⟩ <;> decide
  | code known _ =>
    simp only [mem_cons, not_mem_nil, or_false, Prod.mk.injEq] at known hc
    rcases hc with rfl | rfl | hc
    · decide
    · rcases known with ⟨rfl, -⟩ | ⟨rfl, -⟩ | ⟨rfl, -⟩ <;> decide
    · exact (of_mem_hexDigits hc).2.2

/-! The end of a literal. -/

theorem lineString_plain (h : c ∉ ['\n', '\\', quote]) (cs : List Char) :
    lineString quote (c :: cs) = (lineString quote cs).map fun r => (c :: r.1, r.2) := by
  simp only [mem_cons, not_mem_nil, or_false, not_or] at h
  rw [lineString]
  · rw [if_neg h.2.2]
    cases lineString quote cs with
    | none => rfl
    | some r => rfl
  all_goals simp_all

theorem lineString_escape (quote c : Char) (cs : List Char) : lineString quote ('\\' :: c :: cs) =
    (lineString quote cs).map fun r => ('\\' :: c :: r.1, r.2) := by
  rw [lineString]
  cases lineString quote cs with
  | none => rfl
  | some r => rfl

theorem lineString_append (h : ∀ c ∈ cs, c ∉ ['\n', '\\', quote]) (rest : List Char) :
    lineString quote (cs ++ rest) = (lineString quote rest).map fun r => (cs ++ r.1, r.2) := by
  induction cs with
  | nil => simp
  | cons c cs ih =>
    rw [cons_append, lineString_plain (h c mem_cons_self), ih fun d hd => h d (.tail _ hd),
      Option.map_map]
    rfl

theorem lineString_encodeChar (hq : quote = '"' ∨ quote = '\'') (c : Char) (rest : List Char) :
    lineString quote (encodeChar quote c ++ rest) =
      (lineString quote rest).map fun r => (encodeChar quote c ++ r.1, r.2) := by
  have stands := stands_encodeChar quote c
  generalize encodeChar quote c = text at stands
  cases stands with
  | plain other printable =>
    refine lineString_append (fun d hd => ?_) rest
    cases mem_singleton.mp hd
    refine fun special => (mem_cons.mp special).elim (fun h => ?_) other
    rw [h] at printable
    revert printable
    decide
  | escape known => exact lineString_escape quote _ rest
  | @code letter width known _ =>
    have digits : ∀ d ∈ hexDigits width c.toNat, d ∉ ['\n', '\\', quote] := by
      intro d hd
      have plain := (of_mem_hexDigits hd).2.1
      rcases hq with rfl | rfl <;> simp_all
    rw [cons_append, cons_append, lineString_escape, lineString_append digits, Option.map_map]
    rfl

theorem lineString_body (hq : quote = '"' ∨ quote = '\'') (cs rest : List Char) :
    lineString quote (body quote cs ++ quote :: rest) = some (body quote cs, rest) := by
  induction cs with
  | nil =>
    rcases hq with rfl | rfl
    · rfl
    · rfl
  | cons c cs ih =>
    rw [body_cons, append_assoc, lineString_encodeChar hq, ih, Option.map_some]

/-! Escapes. -/

theorem escapesValid_plain (h : c ≠ '\\') (cs : List Char) :
    escapesValid (c :: cs) = escapesValid cs := by
  rw [escapesValid]
  all_goals simp_all

theorem escapesValid_append (h : ∀ c ∈ cs, c ≠ '\\') (rest : List Char) :
    escapesValid (cs ++ rest) = escapesValid rest := by
  induction cs with
  | nil => rfl
  | cons c cs ih =>
    rw [cons_append, escapesValid_plain (h c mem_cons_self), ih fun d hd => h d (.tail _ hd)]

theorem hexPrefix_hexDigits (hw : 0 < width) (h : n < Nat.pow 16 width) (rest : List Char) :
    hexPrefix width (hexDigits width n ++ rest) = true := by
  have length := length_hexDigits hw h
  have front : (hexDigits width n ++ rest).take width = hexDigits width n := by
    rw [take_append_of_le_length (by omega), take_of_length_le (by omega)]
  rw [hexPrefix, front, length, beq_self_eq_true, Bool.true_and, all_eq_true]
  exact fun c hc => (of_mem_hexDigits hc).1

theorem escapesValid_encodeChar (hq : quote = '"' ∨ quote = '\'') (c : Char) (rest : List Char) :
    escapesValid (encodeChar quote c ++ rest) = escapesValid rest := by
  have stands := stands_encodeChar quote c
  generalize encodeChar quote c = text at stands
  cases stands with
  | plain other _ =>
    exact escapesValid_plain (fun h => other (h ▸ mem_cons_self)) rest
  | escape known =>
    simp only [mem_cons, not_mem_nil, or_false, Prod.mk.injEq] at known
    rcases hq with rfl | rfl <;>
      rcases known with ⟨-, rfl⟩ | ⟨-, rfl⟩ | ⟨-, rfl⟩ | ⟨-, rfl⟩ | ⟨-, rfl⟩ <;>
      simp [escapesValid]
  | @code letter width known small =>
    have digits : ∀ d ∈ hexDigits width c.toNat, d ≠ '\\' := fun d hd h =>
      (of_mem_hexDigits hd).2.1 (h ▸ mem_cons_self)
    have valid : c.toNat ≤ 0x10FFFF := by
      rcases c.valid with h | h
      · exact Nat.le_trans (Nat.le_of_lt h) (by decide)
      · exact Nat.le_of_lt_succ h.2
    simp only [mem_cons, not_mem_nil, or_false, Prod.mk.injEq] at known
    rcases known with ⟨rfl, rfl⟩ | ⟨rfl, rfl⟩ | ⟨rfl, rfl⟩
    · rw [cons_append, cons_append, escapesValid, hexPrefix_hexDigits (by decide) small,
        Bool.true_and, escapesValid_append digits]
    · rw [cons_append, cons_append, escapesValid, hexPrefix_hexDigits (by decide) small,
        Bool.true_and, escapesValid_append digits]
    · have length := length_hexDigits (by decide) small
      rw [cons_append, cons_append, escapesValid, hexPrefix_hexDigits (by decide) small,
        take_append_of_le_length (by omega), take_of_length_le (by omega),
        hexNumber_hexDigits, escapesValid_append digits, decide_eq_true valid, Bool.true_and,
        Bool.true_and]

theorem escapesValid_body (hq : quote = '"' ∨ quote = '\'') (cs : List Char) :
    escapesValid (body quote cs) = true := by
  induction cs with
  | nil => rfl
  | cons c cs ih => rw [body_cons, escapesValid_encodeChar hq, ih]

/-! Tokens. -/

theorem head?_body (hq : quote = '"' ∨ quote = '\'') (cs : List Char) :
    (body quote cs).head? ≠ some quote := by
  cases cs with
  | nil => exact nofun
  | cons c cs =>
    have stands := stands_encodeChar quote c
    rw [body_cons]
    generalize encodeChar quote c = text at stands
    cases stands with
    | plain other _ => exact fun h => other (Option.some.inj h ▸ .tail _ mem_cons_self)
    | escape | code => rcases hq with rfl | rfl <;> exact fun h => by cases h

theorem token_encode (cs : List Char) (rest : List Char) (hr : rest.head? ≠ some (mark cs)) :
    token (encode cs ++ rest) =
      some (.string ⟨false, false, false, body (mark cs) cs⟩, rest) := by
  have hq := isQuote_mark cs
  have single : [mark cs, mark cs].isPrefixOf (body (mark cs) cs ++ mark cs :: rest) = false := by
    have head := head?_body hq cs
    cases hb : body (mark cs) cs with
    | nil =>
      cases rest with
      | nil => simp
      | cons c rest =>
        have other : c ≠ mark cs := fun h => hr (by rw [h]; rfl)
        simp [isPrefixOf, other.symm]
    | cons c tail =>
      rw [hb] at head
      have other : c ≠ mark cs := fun h => head (by rw [h]; rfl)
      simp [isPrefixOf, other.symm]
  have scanned : stringToken? (encode cs ++ rest) =
      some (some (.string ⟨false, false, false, body (mark cs) cs⟩, rest)) := by
    have closed := lineString_body hq cs rest
    rw [encode_eq, cons_append, append_assoc, singleton_append]
    generalize body (mark cs) cs = text at single closed ⊢
    generalize mark cs = quote at hq single closed ⊢
    rcases hq with rfl | rfl
    · simp [stringToken?, stringMarks, single, closed]
    · simp [stringToken?, stringMarks, single, closed]
  rw [token.eq_def, scanned]

theorem isPrintable_of_mem_encode (h : c ∈ encode cs) : isPrintable c = true := by
  have hq := isQuote_mark cs
  have quote : isPrintable (mark cs) = true := by rcases hq with h | h <;> rw [h] <;> decide
  rw [encode_eq, mem_cons, mem_append, mem_singleton] at h
  rcases h with rfl | h | rfl
  · exact quote
  · exact isPrintable_of_mem_body hq h
  · exact quote

theorem lex?_encode (cs : List Char) : lex? (encode cs) =
    some [.string ⟨false, false, false, body (mark cs) cs⟩, .newline] := by
  have hq := isQuote_mark cs
  have last : mark cs ∈ (encode cs).getLast? := by
    rw [encode_eq, ← cons_append, getLast?_concat]
    rfl
  have token := token_encode cs ['\n'] (by rcases hq with h | h <;> rw [h] <;> exact nofun)
  have start : mark cs ∉ [' ', '\t', '\x0c', '#', '\n', '\\'] := by
    rcases hq with h | h <;> rw [h] <;> decide
  have hidden : ∀ c ∈ ['\r', '\x00'], isPrintable c = false := forall_of_all (by decide)
  have plain : ∀ c ∈ ['\r', '\x00'], c ∉ encode cs := fun c hc h =>
    Bool.false_ne_true ((hidden c hc).symm.trans (isPrintable_of_mem_encode h))
  rw [encode_eq] at token last plain ⊢
  exact lex?_of_lexes (lexes_token start token rfl) start plain
    ⟨_, last, fun h => start (by rw [h]; decide)⟩

theorem tokens?_encode (cs : List Char) (depth : Nat) : tokens? (depth + 1) (encode cs) =
    some [.string ⟨false, false, false, body (mark cs) cs⟩, .newline] := by
  rw [tokens?, lex?_encode, Option.bind_eq_bind, Option.bind_some]
  refine if_pos (all_eq_true.mpr fun t ht => ?_)
  rcases mem_cons.mp ht with rfl | ht
  · exact escapesValid_body (isQuote_mark cs) cs
  · cases mem_singleton.mp ht
    rfl

theorem isModule_encode (cs : List Char) : isModule (encode cs) = true := by
  rw [isModule, tokens?_encode]
  rfl

theorem isLiteral_encode (cs : List Char) : isLiteral (encode cs) = true := by
  rw [isLiteral, tokens?_encode]
  rfl

end Quoted

end TypeStubs
