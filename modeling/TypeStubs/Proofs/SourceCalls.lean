import TypeStubs.ArraySize
import TypeStubs.Integer
import TypeStubs.Proofs.SourceExpressions
import TypeStubs.Text.Split

/-! Fixed sizes of arrays are source text. -/

namespace TypeStubs.Source

open List Option

variable {n : Nat} {c : Char} {cs : List Char} {ts : List Token}

/-! Reading numbers. -/

/-- The digits of a number that is written without zeros in front and is short enough to be read. -/
structure IsNumeral (ds : List Char) : Prop where
  ne_nil : ds ≠ []
  digits : ∀ c ∈ ds, c.isDigit = true
  first : ds.head? = some '0' → ds = ['0']
  short : ds.length ≤ maxIntegerDigits

theorem head?_toDigits (h : (Nat.toDigits 10 n).head? = some '0') : n = 0 := by
  induction n using Nat.strongRecOn with
  | ind n ih =>
    by_cases hn : n < 10
    · rw [Nat.toDigits_of_lt_base hn] at h
      have small : ∀ n < 10, n.digitChar = '0' → n = 0 := by decide
      exact small n hn (by simpa using h)
    · rw [Nat.toDigits_of_base_le (by decide) (by omega)] at h
      cases hd : Nat.toDigits 10 (n / 10) with
      | nil => exact absurd hd Nat.toDigits_ne_nil
      | cons c cs =>
        rw [hd] at h
        have := ih (n / 10) (by omega) (by rw [hd]; exact h)
        omega

theorem length_toDigits_le {k : Nat} (hk : 0 < k) (h : n < Nat.pow 10 k) :
    (Nat.toDigits 10 n).length ≤ k :=
  (Nat.length_toDigits_le_iff (by decide) hk).mpr h

theorem isNumeral_toDigits (h : n < Nat.pow 10 maxIntegerDigits) :
    IsNumeral (Nat.toDigits 10 n) where
  ne_nil := Nat.toDigits_ne_nil
  digits := fun c hc => Nat.isDigit_of_mem_toDigits (by decide) (by decide) hc
  first := fun hz => by rw [head?_toDigits hz]; rfl
  short := length_toDigits_le (by decide) h

def EndsNumber (rest : List Char) : Prop := ∃ c cs, rest = c :: cs ∧ (c = ',' ∨ c = ')')

theorem digits_append {ds rest : List Char} (hd : ∀ c ∈ ds, c.isDigit = true)
    (hr : ∀ c ∈ rest.head?, c.isDigit = false ∧ c ≠ '_') :
    digits Char.isDigit (ds ++ rest) = some (ds, rest) := by
  induction ds with
  | nil =>
    cases rest with
    | nil => rfl
    | cons c rest =>
      obtain ⟨other, noUnderscore⟩ := hr c rfl
      rw [nil_append, digits]
      · rw [if_neg (by simp [other]), if_neg noUnderscore]
      · exact fun d cs h => absurd h noUnderscore
  | cons d ds ih =>
    have digit := hd d mem_cons_self
    have noUnderscore : d ≠ '_' := by
      rintro rfl
      exact absurd digit (by decide)
    rw [cons_append, digits]
    · rw [if_pos digit, ih fun c hc => hd c (.tail _ hc)]
      rfl
    · intro d' cs h
      exact absurd h noUnderscore

/-- The letters that make numbers in other bases. -/
def radixMarks : List Char := ['x', 'X', 'o', 'O', 'b', 'B']

/-- Digits are followed by another mark or no mark, so they are those of a decimal number. -/
structure EndsDigits (rest : List Char) : Prop where
  plain : ∀ c ∈ rest.head?, c.isDigit = false ∧ c ≠ '_'
  radix : ∀ c ∈ rest.head?, c ∉ radixMarks

section

variable {ds rest : List Char} (hne : ds ≠ []) (hd : ∀ c ∈ ds, c.isDigit = true)

include hne hd

theorem not_point (after : List Char) : ds ++ rest ≠ '.' :: after := by
  obtain ⟨d, ds, rfl⟩ := exists_cons_of_ne_nil hne
  intro h
  have digit := hd d mem_cons_self
  rw [(List.cons.inj h).1] at digit
  exact absurd digit (by decide)

theorem not_radix (hr : EndsDigits rest) {m : Char} (hm : m ∈ radixMarks) (after : List Char) :
    ds ++ rest ≠ '0' :: m :: after := by
  obtain ⟨d, ds, rfl⟩ := exists_cons_of_ne_nil hne
  intro h
  have tail : ds ++ rest = m :: after := (List.cons.inj h).2
  cases ds with
  | nil => exact hr.radix m (by rw [← nil_append rest, tail]; rfl) hm
  | cons d' ds =>
    have digit := hd d' (.tail _ mem_cons_self)
    have other : ∀ m ∈ radixMarks, m.isDigit = false := forall_of_all (by decide)
    rw [(List.cons.inj tail).1, other m hm] at digit
    cases digit

theorem number_point (after : List Char) : number (ds ++ '.' :: after) = fractionPart after := by
  have ends : EndsDigits ('.' :: after) :=
    ⟨fun c hc => by cases hc; decide, fun c hc => by cases hc; decide⟩
  rw [number]
  · rw [digits_append hd ends.plain]
    rfl
  case x_7 => exact not_point hne hd
  all_goals exact not_radix hne hd ends (by decide)

theorem number_whole (hr : EndsDigits rest) (point : rest.head? ≠ some '.') : number (ds ++ rest) =
    (exponentPart .integer rest).bind fun read =>
      if read.1 = .integer && ((ds.head? == some '0' && ds.any (· != '0')) ||
        (ds.head? != some '0' && ds.length > maxIntegerDigits)) then none else some read := by
  have noPoint : ∀ after, rest ≠ '.' :: after := fun after h => point (by rw [h]; rfl)
  rw [number]
  · simp only [digits_append hd hr.plain, bind_eq_bind, bind_some]
    rfl
  case x_7 => exact not_point hne hd
  all_goals exact not_radix hne hd hr (by decide)

end

theorem IsNumeral.zeros {ds : List Char} (h : IsNumeral ds) :
    ((ds.head? == some '0' && ds.any (· != '0')) ||
      (ds.head? != some '0' && decide (ds.length > maxIntegerDigits))) = false := by
  have short : ¬ ds.length > maxIntegerDigits := Nat.not_lt.mpr h.short
  by_cases hz : ds.head? = some '0'
  · rw [h.first hz]
    rfl
  · simp [hz, short]

theorem number_numeral {ds rest : List Char} (hd : IsNumeral ds) (hr : EndsNumber rest) :
    number (ds ++ rest) = some (.integer, rest) := by
  have ends : EndsDigits rest := by
    obtain ⟨c, cs, rfl, rfl | rfl⟩ := hr <;>
      exact ⟨fun c hc => by cases hc; decide, fun c hc => by cases hc; decide⟩
  have noPoint : rest.head? ≠ some '.' := by
    obtain ⟨c, cs, rfl, rfl | rfl⟩ := hr <;> simp
  have exponent : exponentPart .integer rest = some (.integer, rest) := by
    obtain ⟨c, cs, rfl, rfl | rfl⟩ := hr <;> rfl
  rw [number_whole hd.ne_nil hd.digits ends noPoint, exponent, bind_some, hd.zeros]
  rfl

theorem mem_digits (h : c.isDigit = true) :
    c ∈ ['0', '1', '2', '3', '4', '5', '6', '7', '8', '9'] := by
  have codes : ∀ n < 10, Char.ofNat (48 + n) ∈ ['0', '1', '2', '3', '4', '5', '6', '7', '8', '9'] := by
    decide
  simp only [Char.isDigit, Bool.and_eq_true, decide_eq_true_eq, UInt32.le_iff_toNat_le] at h
  have bounds : 48 ≤ c.toNat ∧ c.toNat ≤ 57 := h
  have same : Char.ofNat (48 + (c.toNat - 48)) = c := by
    rw [Nat.add_sub_cancel' bounds.1, Char.ofNat_toNat]
  rw [← same]
  exact codes _ (by omega)

theorem token_digits {ds : List Char} (hne : ds ≠ []) (hd : ∀ c ∈ ds, c.isDigit = true)
    (rest : List Char) : token (ds ++ rest) = (number (ds ++ rest)).map fun read => (.number read.1, read.2) := by
  obtain ⟨d, ds, rfl⟩ := exists_cons_of_ne_nil hne
  have digit := mem_digits (hd d mem_cons_self)
  simp only [mem_cons, not_mem_nil, or_false] at digit
  rcases digit with rfl | rfl | rfl | rfl | rfl | rfl | rfl | rfl | rfl | rfl <;> rfl

theorem token_numeral {ds rest : List Char} (hd : IsNumeral ds) (hr : EndsNumber rest) :
    token (ds ++ rest) = some (.number .integer, rest) := by
  rw [token_digits hd.ne_nil hd.digits, number_numeral hd hr]
  rfl

/-! Reading tokens. -/

theorem lexFrom_token {fuel : Nat} {brackets brackets' : List String} {rest : List Char}
    {t : Token} (hc : c ∉ [' ', '\t', '\x0c', '#', '\n', '\\'])
    (ht : token (c :: cs) = some (t, rest)) (hb : trackBrackets brackets t = some brackets') :
    lexFrom (fuel + 1) ⟨brackets, [], false⟩ (c :: cs) =
      (lexFrom fuel ⟨brackets', [], false⟩ rest).map (t :: ·) := by
  rw [lexFrom]
  · rw [if_neg (by simp), ht, bind_eq_bind, bind_some]
    simp only [hb, bind_eq_bind, bind_some]
    cases lexFrom fuel ⟨brackets', [], false⟩ rest <;> rfl
  all_goals simp_all

theorem lexFrom_space (fuel : Nat) (brackets : List String) (cs : List Char) :
    lexFrom (fuel + 1) ⟨brackets, [], false⟩ (' ' :: cs) =
      lexFrom fuel ⟨brackets, [], false⟩ cs := rfl

theorem lexFrom_start (hc : c ∉ [' ', '\t', '\x0c', '#', '\n', '\\']) (fuel : Nat)
    (cs : List Char) :
    lexFrom (fuel + 1) {} (c :: cs) = lexFrom fuel ⟨[], [], false⟩ (c :: cs) := by
  have column : indentation 0 0 0 (c :: cs) = some (0, 0, c :: cs) := by
    rw [indentation]
    all_goals simp_all
  rw [lexFrom]
  · rw [if_pos (by rfl), column]
    split
    · rename_i h
      cases h
    · rename_i h
      cases h
    · rename_i h
      cases h
      simp at hc
    · rename_i h
      cases h
      simp at hc
    · rename_i h
      cases h
      change (lexFrom fuel ⟨[], [], false⟩ (c :: cs)).bind (fun more => some ([] ++ more)) = _
      cases lexFrom fuel ⟨[], [], false⟩ (c :: cs) <;> rfl
  all_goals simp_all

theorem unifyLineEnds_eq_self (h : '\r' ∉ cs) : unifyLineEnds cs = cs := by
  induction cs with
  | nil => rfl
  | cons c cs ih =>
    have first : c ≠ '\r' := fun hc => h (hc ▸ mem_cons_self)
    rw [unifyLineEnds]
    · rw [ih fun hin => h (.tail _ hin)]
    · intro rest hc
      exact absurd hc first
    · intro hc
      exact absurd hc first

theorem lex?_line (noReturn : '\r' ∉ cs) (last : ∃ c ∈ cs.getLast?, c ≠ '\n') :
    lex? cs = if '\x00' ∈ cs then none else lexFrom (2 * cs.length + 4) {} (cs ++ ['\n']) := by
  obtain ⟨c, hc, other⟩ := last
  have ends : (cs.isEmpty || cs.getLast? == some '\n') = false := by
    cases cs with
    | nil => cases hc
    | cons d ds => simpa [mem_def.mp hc] using other
  simp [lex?, unifyLineEnds_eq_self noReturn, ends, Nat.mul_add]

/-- Before the rest, the text has these tokens. They lead from some open brackets to others. -/
def Lexes (brackets brackets' : List String) (rest text : List Char) (ts : List Token) : Prop :=
  ∃ steps ≤ text.length, ∀ fuel, lexFrom (fuel + steps) ⟨brackets, [], false⟩ (text ++ rest) =
    (lexFrom fuel ⟨brackets', [], false⟩ rest).map (ts ++ ·)

section

variable {b b' b'' : List String} {rest text text' : List Char} {ts ts' : List Token}

theorem Lexes.nil (b : List String) (rest : List Char) : Lexes b b rest [] [] :=
  ⟨0, Nat.le_refl 0, fun fuel => by simp⟩

theorem Lexes.append (h : Lexes b b' (text' ++ rest) text ts) (h' : Lexes b' b'' rest text' ts') :
    Lexes b b'' rest (text ++ text') (ts ++ ts') := by
  obtain ⟨k, hk, first⟩ := h
  obtain ⟨k', hk', second⟩ := h'
  refine ⟨k' + k, ?_, fun fuel => ?_⟩
  · rw [length_append, Nat.add_comm]
    exact Nat.add_le_add hk hk'
  · rw [append_assoc, ← Nat.add_assoc, first, second, Option.map_map]
    simp only [Function.comp_def, append_assoc]

theorem lexes_space (b : List String) (rest : List Char) : Lexes b b rest [' '] [] :=
  ⟨1, Nat.le_refl 1, fun fuel => by simp [lexFrom_space]⟩

theorem lexes_token {t : Token} (hc : c ∉ [' ', '\t', '\x0c', '#', '\n', '\\'])
    (ht : token (c :: (text ++ rest)) = some (t, rest)) (hb : trackBrackets b t = some b') :
    Lexes b b' rest (c :: text) [t] :=
  ⟨1, Nat.succ_le_succ (Nat.zero_le _), fun _ => lexFrom_token hc ht hb⟩

theorem lexes_comma (b : List String) (rest : List Char) :
    Lexes b b rest ", ".toList [.op ","] := by
  have comma : Lexes b b (' ' :: rest) [','] [.op ","] := lexes_token (by decide) rfl rfl
  exact comma.append (lexes_space b rest)

theorem lexes_joined {parts : List (List Char × List Token)}
    (h : ∀ x ∈ parts, ∀ c rest, c ∈ [',', ')'] → Lexes b b (c :: rest) x.1 x.2) (rest : List Char) :
    Lexes b b (')' :: rest) (intercalate ", ".toList (parts.map Prod.fst))
      (intercalate [.op ","] (parts.map Prod.snd)) := by
  induction parts with
  | nil => exact .nil _ _
  | cons x parts ih =>
    obtain ⟨first, others⟩ := forall_mem_cons.mp h
    cases parts with
    | nil =>
      simp only [map_cons, map_nil, intercalate_singleton]
      exact first _ _ (by decide)
    | cons y parts =>
      simp only [map_cons, intercalate_cons_cons, append_assoc] at ih ⊢
      exact (first ',' _ (by decide)).append ((lexes_comma _ _).append (ih others))

end

theorem lex?_of_lexes (h : Lexes [] [] ['\n'] (c :: cs) ts)
    (hc : c ∉ [' ', '\t', '\x0c', '#', '\n', '\\']) (plain : ∀ d ∈ ['\r', '\x00'], d ∉ c :: cs)
    (last : ∃ d ∈ (c :: cs).getLast?, d ≠ '\n') : lex? (c :: cs) = some (ts ++ [.newline]) := by
  obtain ⟨steps, short, lexed⟩ := h
  obtain ⟨fuel, enough⟩ : ∃ fuel, 2 * (c :: cs).length + 4 = fuel + 2 + steps + 1 :=
    ⟨2 * (c :: cs).length + 1 - steps, by omega⟩
  rw [lex?_line (plain _ (.head _)) last, if_neg (plain _ (.tail _ (.head _))), enough, cons_append,
    lexFrom_start hc, ← cons_append, lexed]
  rfl

def sizeFront : List Char := "pybind11_stubgen.typing_ext.FixedSize(".toList

def frontTokens : List Token :=
  [.name "pybind11_stubgen", .op ".", .name "typing_ext", .op ".", .name "FixedSize", .op "("]

theorem lexes_front (tail : List Char) : Lexes [] [")"] tail sizeFront frontTokens := by
  have first : token ('p' :: ("ybind11_stubgen.typing_ext.FixedSize(".toList ++ tail)) =
    some (.name "pybind11_stubgen", '.' :: ("typing_ext.FixedSize(".toList ++ tail)) := rfl
  have dot : token ('.' :: ("typing_ext.FixedSize(".toList ++ tail)) =
    some (.op ".", 't' :: ("yping_ext.FixedSize(".toList ++ tail)) := rfl
  have second : token ('t' :: ("yping_ext.FixedSize(".toList ++ tail)) =
    some (.name "typing_ext", '.' :: ("FixedSize(".toList ++ tail)) := rfl
  have dot' : token ('.' :: ("FixedSize(".toList ++ tail)) =
    some (.op ".", 'F' :: ("ixedSize(".toList ++ tail)) := rfl
  have third : token ('F' :: ("ixedSize(".toList ++ tail)) =
    some (.name "FixedSize", '(' :: tail) := rfl
  have opening : token ('(' :: tail) = some (.op "(", tail) := rfl
  have shape : sizeFront ++ tail =
    'p' :: ("ybind11_stubgen.typing_ext.FixedSize(".toList ++ tail) := rfl
  refine ⟨6, by decide, fun fuel => ?_⟩
  rw [shape, lexFrom_token (by decide) first rfl, lexFrom_token (by decide) dot rfl,
    lexFrom_token (by decide) second rfl, lexFrom_token (by decide) dot' rfl,
    lexFrom_token (by decide) third rfl, lexFrom_token (by decide) opening rfl]
  simp only [Option.map_map]
  rfl

/-! Reading the arguments of a call. -/

inductive IsInteger : List Char → List Token → Prop where
  | plain {ds : List Char} : IsNumeral ds → IsInteger ds [.number .integer]
  | negative {ds : List Char} : IsNumeral ds → IsInteger ('-' :: ds) [.op "-", .number .integer]

theorem IsInteger.tokens (h : IsInteger cs ts) : IsIntegerTokens ts := by
  cases h with
  | plain => exact .inl rfl
  | negative => exact .inr rfl

theorem isInteger_toString {n : Int} (h : n.natAbs < Nat.pow 10 maxIntegerDigits) :
    ∃ ts, IsInteger (toString n).toList ts := by
  cases n with
  | ofNat n =>
    have text : (toString (Int.ofNat n)).toList = Nat.toDigits 10 n := by simp [toString, Int.repr]
    rw [text]
    exact ⟨_, .plain (isNumeral_toDigits h)⟩
  | negSucc n =>
    have text : (toString (Int.negSucc n)).toList = '-' :: Nat.toDigits 10 (n + 1) := by
      simp [toString, Int.repr]
    rw [text]
    exact ⟨_, .negative (isNumeral_toDigits h)⟩

theorem IsNumeral.lexes {ds rest : List Char} (hd : IsNumeral ds) (hr : EndsNumber rest)
    (b : List String) : Lexes b b rest ds [.number .integer] := by
  have read := token_numeral hd hr
  cases ds with
  | nil => exact absurd rfl hd.ne_nil
  | cons d ds =>
    have digit := mem_digits (hd.digits d mem_cons_self)
    have plain : d ∉ [' ', '\t', '\x0c', '#', '\n', '\\'] := by
      intro hin
      simp only [mem_cons, not_mem_nil, or_false] at digit hin
      rcases hin with rfl | rfl | rfl | rfl | rfl | rfl <;> simp at digit
    exact lexes_token plain read rfl

theorem token_minus {ds : List Char} (hne : ds ≠ []) (hd : ∀ c ∈ ds, c.isDigit = true)
    (rest : List Char) : token ('-' :: (ds ++ rest)) = some (.op "-", ds ++ rest) := by
  cases ds with
  | nil => exact absurd rfl hne
  | cons d ds =>
    have digit := mem_digits (hd d mem_cons_self)
    simp only [mem_cons, not_mem_nil, or_false] at digit
    rcases digit with rfl | rfl | rfl | rfl | rfl | rfl | rfl | rfl | rfl | rfl <;> rfl

theorem IsInteger.lexes {rest : List Char} (h : IsInteger cs ts) (hr : EndsNumber rest)
    (b : List String) : Lexes b b rest cs ts := by
  cases h with
  | plain hd => exact hd.lexes hr b
  | negative hd =>
    have minus : Lexes b b _ ['-'] [.op "-"] :=
      lexes_token (by decide) (token_minus hd.ne_nil hd.digits rest) rfl
    exact minus.append (hd.lexes hr b)

def sizeText (dims : List (List Char)) : List Char :=
  sizeFront ++ (intercalate ", ".toList dims ++ [')'])

theorem IsInteger.mem (h : IsInteger cs ts) : ∀ c ∈ cs, c ∈ "-0123456789".toList := by
  cases h with
  | plain hd => exact fun c hc => .tail _ (mem_digits (hd.digits c hc))
  | negative hd =>
    exact forall_mem_cons.mpr ⟨.head _, fun c hc => .tail _ (mem_digits (hd.digits c hc))⟩

theorem mem_sizeText {dims : List (List Char)} (h : ∀ d ∈ dims, ∃ ts, IsInteger d ts) :
    ∀ c ∈ sizeText dims, c ∈ sizeFront ++ "), -0123456789".toList := by
  intro c hc
  rw [sizeText, mem_append, mem_append] at hc
  rcases hc with hc | hc | hc
  · exact mem_append_left _ hc
  · refine mem_append_right _ ?_
    rcases mem_intercalate hc with hc | ⟨d, hd, hc⟩
    · have separator : ∀ c ∈ ", ".toList, c ∈ "), -0123456789".toList := forall_of_all (by decide)
      exact separator c hc
    · obtain ⟨ts, integer⟩ := h d hd
      exact .tail _ (.tail _ (.tail _ (integer.mem c hc)))
  · rw [mem_singleton] at hc
    exact mem_append_right _ (hc ▸ .head _)

theorem lex?_sizeText {a : List Char × List Token} {as : List (List Char × List Token)}
    (h : ∀ x ∈ a :: as, IsInteger x.1 x.2) :
    lex? (sizeText ((a :: as).map Prod.fst)) = some (callTokens "pybind11_stubgen" "typing_ext"
      "FixedSize" ((a :: as).map Prod.snd) ++ [.newline]) := by
  have integers : ∀ d ∈ (a :: as).map Prod.fst, ∃ ts, IsInteger d ts := by
    intro d hd
    obtain ⟨x, hx, rfl⟩ := mem_map.mp hd
    exact ⟨x.2, h x hx⟩
  have chars := mem_sizeText integers
  have plain : ∀ c ∈ ['\r', '\x00'], c ∉ sizeText ((a :: as).map Prod.fst) := by
    have front : ∀ c ∈ ['\r', '\x00'], c ∉ sizeFront ++ "), -0123456789".toList :=
      forall_of_all (by decide)
    exact fun c hc hin => front c hc (chars c hin)
  have last : ')' ∈ (sizeText ((a :: as).map Prod.fst)).getLast? := by
    rw [sizeText, ← append_assoc, getLast?_concat]
    rfl
  have arguments := lexes_joined (fun x hx c rest hc => (h x hx).lexes ⟨c, rest, rfl, by simpa using hc⟩ [")"])
    ['\n']
  have closing : Lexes [")"] [] ['\n'] [')'] [.op ")"] := lexes_token (by decide) rfl rfl
  exact lex?_of_lexes ((lexes_front _).append (arguments.append closing)) (by decide) plain
    ⟨_, last, by decide⟩

theorem tokens?_of_lex? {text : List Char} (h : lex? text = some ts)
    (hs : ∀ t ∈ ts, ∀ s, t ≠ .string s) (depth : Nat) : tokens? (depth + 1) text = some ts := by
  rw [tokens?, h, bind_eq_bind, bind_some]
  refine if_pos (all_eq_true.mpr fun t ht => ?_)
  cases t with
  | string s => exact absurd rfl (hs _ ht s)
  | _ => rfl

theorem exists_integers {dims : List Int} (h : ∀ n ∈ dims, n.natAbs < Nat.pow 10 maxIntegerDigits) :
    ∃ as : List (List Char × List Token),
      as.map Prod.fst = dims.map (fun n => (toString n).toList) ∧ ∀ x ∈ as, IsInteger x.1 x.2 := by
  induction dims with
  | nil => exact ⟨[], rfl, nofun⟩
  | cons n dims ih =>
    obtain ⟨as, texts, integers⟩ := ih fun n hn => h n (.tail _ hn)
    obtain ⟨ts, integer⟩ := isInteger_toString (h n mem_cons_self)
    exact ⟨(_, ts) :: as, congrArg (_ :: ·) texts, forall_mem_cons.mpr ⟨integer, integers⟩⟩

theorem isModule_sizeText {dims : List Int} (hne : dims ≠ [])
    (h : ∀ n ∈ dims, n.natAbs < Nat.pow 10 maxIntegerDigits) :
    isModule (sizeText (dims.map fun n => (toString n).toList)) = true := by
  obtain ⟨as, texts, integers⟩ := exists_integers h
  rw [← texts]
  match as, integers with
  | [], _ => exact absurd (map_eq_nil_iff.mp texts.symm) hne
  | a :: as, integers =>
    have tokens := lex?_sizeText integers
    have args : ∀ ts ∈ (a :: as).map Prod.snd, IsIntegerTokens ts := by
      intro ts hts
      obtain ⟨x, hx, rfl⟩ := mem_map.mp hts
      exact (integers x hx).tokens
    have read := statements_expression
      (expression_call "pybind11_stubgen" "typing_ext" "FixedSize" args ⟨_, [], rfl, by decide⟩)
      ⟨_, rfl⟩
    have plain : ∀ t ∈ callTokens "pybind11_stubgen" "typing_ext" "FixedSize"
        ((a :: as).map Prod.snd) ++ [.newline], ∀ s, t ≠ .string s := by
      rintro t ht s rfl
      simp only [callTokens, mem_cons, mem_append, cons_append, reduceCtorEq, false_or,
        not_mem_nil, or_false] at ht
      rcases mem_intercalate ht with hsep | ⟨ts, hts, hs⟩
      · simp at hsep
      · rcases args ts hts with rfl | rfl <;> simp at hs
    rw [isModule, tokens?_of_lex? tokens plain]
    exact congrArg isSome (read _)

end TypeStubs.Source
