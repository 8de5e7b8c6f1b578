import Mathlib.Data.List.TakeDrop
import TypeStubs.Proofs.LiteralValues
import TypeStubs.Proofs.RoundedDecimals
import TypeStubs.Proofs.WrittenNames

/-! Numbers as they are written: the digits, the point and the exponent are read as the number that
they were written for. -/

namespace TypeStubs

open List Option

namespace Binary

/-! Digits. -/

theorem natOfDigits_append (ds es : List Char) :
    natOfDigits (ds ++ es) = natOfDigits ds * Nat.pow 10 es.length + natOfDigits es := by
  induction es using reverseRecOn with
  | nil => simp [natOfDigits]
  | append_singleton es c ih =>
    have last (cs : List Char) : natOfDigits (cs ++ [c]) = natOfDigits cs * 10 + (c.toNat - 48) := by
      simp [natOfDigits]
    rw [← append_assoc, last, last, ih]
    simp [Nat.pow_succ]
    ring

theorem natOfDigits_zeros (k : Nat) : natOfDigits (replicate k '0') = 0 := by
  induction k with
  | zero => rfl
  | succ k ih => exact ih

theorem natOfDigits_toDigits (n : Nat) : natOfDigits (Nat.toDigits 10 n) = n := by
  have digits : ∀ d < 10, natOfDigits [Nat.digitChar d] = d := by decide
  induction n using Nat.strongRecOn with
  | ind n ih =>
    by_cases hn : n < 10
    · rw [Nat.toDigits_of_lt_base hn, digits n hn]
    · rw [Nat.toDigits_of_base_le (by decide) (Nat.le_of_not_lt hn), natOfDigits_append,
        ih (n / 10) (by omega), digits (n % 10) (Nat.mod_lt _ (by decide))]
      simp
      omega

end Binary

theorem readNatural?_digits {ds : List Char} (hne : ds ≠ []) (hd : ∀ c ∈ ds, c.isDigit = true)
    (short : ds.length ≤ maxDigits) : readNatural? ds = some (Binary.natOfDigits ds) := by
  have value {c : Char} (hc : c.isDigit = true) : decimalValue? c = some (c.toNat - 48) := by
    have digit := Source.mem_digits hc
    simp only [mem_cons, not_mem_nil, or_false] at digit
    rcases digit with rfl | rfl | rfl | rfl | rfl | rfl | rfl | rfl | rfl | rfl <;> rfl
  have all (read : Nat) {cs : List Char} (h : ∀ c ∈ cs, c.isDigit = true) :
      digitsValue? read cs = some (cs.foldl (fun n c => n * 10 + (c.toNat - 48)) read) := by
    induction cs generalizing read with
    | nil => rfl
    | cons c cs ih =>
      have first := h c mem_cons_self
      rw [digitsValue?, value first]
      · exact ih _ fun d hd => h d (.tail _ hd)
      · rintro d cs rfl
        exact absurd first (by decide)
  obtain ⟨c, cs, rfl⟩ := exists_cons_of_ne_nil hne
  have count : (c :: cs).countP (· != '_') ≤ maxDigits := Nat.le_trans countP_le_length short
  rw [readNatural?, value (hd c mem_cons_self)]
  simp only [Nat.not_lt.mpr count, if_false]
  rw [all _ fun d h => hd d (.tail _ h)]
  simp [Binary.natOfDigits]

/-- The parts of a decimal number: the digits before the point, perhaps digits behind it, and perhaps
the sign and the digits of an exponent. -/
structure DecimalText where
  whole : List Char
  fraction : Option (List Char)
  exponent : Option (Bool × List Char)

namespace DecimalText

/-- The digits behind the point with the point. -/
def fractionText (t : DecimalText) : List Char := t.fraction.elim [] ('.' :: ·)

/-- The exponent with its mark and sign. -/
def exponentText (t : DecimalText) : List Char :=
  t.exponent.elim [] fun e => 'e' :: (if e.1 then '-' else '+') :: e.2

def text (t : DecimalText) : List Char := t.whole ++ (t.fractionText ++ t.exponentText)

def digits (t : DecimalText) : Nat := Binary.natOfDigits (t.whole ++ t.fraction.getD [])

def power (t : DecimalText) : Int :=
  t.exponent.elim 0 fun e => if e.1 then -(Binary.natOfDigits e.2 : Int) else Binary.natOfDigits e.2

def place (t : DecimalText) : Int := t.power - (t.fraction.getD []).length

/-- Without a point and an exponent, the number is an integer. -/
def kind (t : DecimalText) : Source.NumberKind :=
  if t.fraction.isNone && t.exponent.isNone then .integer else .float

/-- Digits stand where digits have to stand. An integer is no longer than can be read. -/
structure IsWritten (t : DecimalText) : Prop where
  whole : t.whole ≠ [] ∧ ∀ c ∈ t.whole, c.isDigit = true
  fraction : ∀ ds ∈ t.fraction, ds ≠ [] ∧ ∀ c ∈ ds, c.isDigit = true
  exponent : ∀ e ∈ t.exponent, e.2 ≠ [] ∧ ∀ c ∈ e.2, c.isDigit = true
  numeral : t.kind = .integer → Source.IsNumeral t.whole

def EndsRun (rest : List Char) : Prop := ∀ c ∈ rest.head?, c.isDigit = false

theorem digitRun_append {ds rest : List Char} (hd : ∀ c ∈ ds, c.isDigit = true) (hr : EndsRun rest) :
    Binary.digitRun (ds ++ rest) = (ds, rest) := by
  obtain ⟨taken, left⟩ := takeWhile_append_of_head hd hr
  rw [Binary.digitRun, span_eq_takeWhile_dropWhile, taken, left]

section

variable {t : DecimalText} (h : t.IsWritten)

include h

theorem exponent?_exponentText : Binary.exponent? t.exponentText = some t.power := by
  cases he : t.exponent with
  | none => simp [exponentText, power, he, Binary.exponent?]
  | some e =>
    obtain ⟨negative, ds⟩ := e
    obtain ⟨hne, hd⟩ := h.exponent _ he
    have digits : (!ds.isEmpty && ds.all Char.isDigit) = true := by
      simpa [hne] using hd
    cases negative <;> simp [exponentText, power, he, Binary.exponent?, digits]

theorem unsigned?_text (negative : Bool) :
    Binary.unsigned? negative t.text = some (.ofDecimal negative t.digits t.place) := by
  have power := exponent?_exponentText h
  have ends : EndsRun t.exponentText := by
    cases he : t.exponent with
    | none => simp [EndsRun, exponentText, he]
    | some e => simp [EndsRun, exponentText, he, Char.isDigit]
  cases hf : t.fraction with
  | none =>
    have text : t.text = t.whole ++ t.exponentText := by simp [text, fractionText, hf]
    have noPoint : ∀ rest, t.exponentText ≠ '.' :: rest := by
      cases he : t.exponent with
      | none => simp [exponentText, he]
      | some e => simp [exponentText, he]
    rw [Binary.unsigned?, text, digitRun_append h.whole.2 ends]
    simp [power, digits, place, hf, h.whole.1]
  | some ds =>
    obtain ⟨hne, hd⟩ := h.fraction _ hf
    have text : t.text = t.whole ++ '.' :: (ds ++ t.exponentText) := by simp [text, fractionText, hf]
    rw [Binary.unsigned?, text, digitRun_append h.whole.2 (fun c hc => by cases hc; rfl)]
    simp [digitRun_append hd ends, power, digits, place, hf, h.whole.1]

end

/-- What may follow the digits and the exponent of a number. -/
def EndsDecimal (rest : List Char) : Prop :=
  ∀ c ∈ rest.head?, c ∈ [',', ')', ']', '\x7d', ':', '+', '-', 'j']

section

open Source

variable {t : DecimalText} (h : t.IsWritten) {rest : List Char} (hr : EndsDecimal rest)

theorem endsDigits_cons {c : Char} (hc : c ∈ ['.', 'e', ',', ')', ']', '\x7d', ':', '+', '-', 'j'])
    (cs : List Char) : EndsDigits (c :: cs) := by
  have plain : ∀ c ∈ ['.', 'e', ',', ')', ']', '\x7d', ':', '+', '-', 'j'],
      (c.isDigit = false ∧ c ≠ '_') ∧ c ∉ radixMarks := forall_of_all (by decide)
  refine ⟨fun d hd => ?_, fun d hd => ?_⟩
  · cases hd
    exact (plain c hc).1
  · cases hd
    exact (plain c hc).2

theorem imaginaryMark_ne_integer {read : NumberKind × List Char}
    (hm : imaginaryMark .float rest = some read) : read.1 ≠ .integer := by
  have finished {kind : NumberKind} {rest : List Char} (hk : kind ≠ .integer)
      (h : finishNumber kind rest = some read) : read.1 ≠ .integer := by
    unfold finishNumber at h
    split at h
    · cases h
      exact hk
    · cases h
  unfold imaginaryMark at hm
  split at hm
  · exact finished (by decide) hm
  · exact finished (by decide) hm
  · exact finished (by decide) hm

include hr

theorem EndsDecimal.endsDigits : EndsDigits rest := by
  cases rest with
  | nil => exact ⟨fun c hc => (by cases hc), fun c hc => (by cases hc)⟩
  | cons c rest => exact endsDigits_cons (.tail _ (.tail _ (hr c rfl))) rest

theorem exponentPart_none (kind : NumberKind) : exponentPart kind rest = imaginaryMark kind rest := by
  cases rest with
  | nil => rfl
  | cons c rest =>
    have plain : ∀ c ∈ [',', ')', ']', '\x7d', ':', '+', '-', 'j'], (c == 'e' || c == 'E') = false :=
      forall_of_all (by decide)
    rw [exponentPart, plain c (hr c rfl)]
    rfl

include h

theorem exponentPart_text (kind : NumberKind) : exponentPart kind (t.exponentText ++ rest) =
    imaginaryMark (if t.exponent.isNone then kind else .float) rest := by
  cases he : t.exponent with
  | none => simp [exponentText, he, exponentPart_none hr]
  | some e =>
    obtain ⟨negative, ds⟩ := e
    obtain ⟨hne, hd⟩ := h.exponent _ he
    have read := digits_append hd hr.endsDigits.plain
    obtain ⟨d, ds, rfl⟩ := exists_cons_of_ne_nil hne
    have first := hd d mem_cons_self
    rw [cons_append] at read
    cases negative <;> simp [exponentText, he, exponentPart, read, first]

theorem number_text : number (t.text ++ rest) = imaginaryMark t.kind rest := by
  have power := exponentPart_text h hr
  have ends : EndsDigits (t.exponentText ++ rest) := by
    cases he : t.exponent with
    | none => simpa [exponentText, he] using hr.endsDigits
    | some e =>
      simp only [exponentText, he, elim_some]
      exact endsDigits_cons (by decide) _
  cases hf : t.fraction with
  | none =>
    have noPoint : (t.exponentText ++ rest).head? ≠ some '.' := by
      cases he : t.exponent with
      | none =>
        intro point
        have := hr '.' (by simpa [exponentText, he] using point)
        revert this
        decide
      | some e => simp [exponentText, he]
    rw [text, fractionText, hf, elim_none, nil_append, append_assoc,
      number_whole h.whole.1 h.whole.2 ends noPoint, power]
    cases he : t.exponent with
    | none =>
      have integer : t.kind = .integer := by simp [kind, hf, he]
      rw [(h.numeral integer).zeros, integer]
      simp
    | some e =>
      have float : t.kind = .float := by simp [kind, he]
      rw [float]
      cases hm : imaginaryMark .float rest with
      | none => simp [hm]
      | some read => simp [hm, imaginaryMark_ne_integer hm]
  | some ds =>
    obtain ⟨hne, hd⟩ := h.fraction _ hf
    have first : (ds ++ (t.exponentText ++ rest)).head?.any Char.isDigit = true := by
      obtain ⟨d, ds, rfl⟩ := exists_cons_of_ne_nil hne
      exact hd d mem_cons_self
    have whole : t.text ++ rest = t.whole ++ '.' :: (ds ++ (t.exponentText ++ rest)) := by
      simp [text, fractionText, hf]
    rw [whole, number_point h.whole.1 h.whole.2, fractionPart, if_pos first,
      digits_append hd ends.plain]
    simp [power, kind, hf]

end

/-! Numbers without sign. -/

def value (t : DecimalText) : Object :=
  if t.kind = .integer then .int t.digits else .float (.ofDecimal false t.digits t.place)

/-- The value of the number with the imaginary mark behind it. -/
def imaginary (t : DecimalText) : Object := .complex .zero (.ofDecimal false t.digits t.place)

/-- What may follow a number. -/
def EndsValue (rest : List Char) : Prop :=
  ∀ c ∈ rest.head?, c ∈ [',', ')', ']', '\x7d', ':', '+', '-']

section

open Source

variable {t : DecimalText} (h : t.IsWritten) {rest : List Char} (hr : EndsValue rest)

include hr

theorem EndsValue.endsDecimal : EndsDecimal rest := fun c hc => by
  have := hr c hc
  simp only [mem_cons, not_mem_nil, or_false] at this ⊢
  tauto

theorem finishNumber_eq (kind : NumberKind) : finishNumber kind rest = some (kind, rest) := by
  have ends : numberEnds rest = true := by
    cases rest with
    | nil => rfl
    | cons c rest =>
      have plain : ∀ c ∈ [',', ')', ']', '\x7d', ':', '+', '-'], isNameChar c = false :=
        forall_of_all (by decide)
      simp [numberEnds, plain c (hr c rfl)]
  rw [finishNumber, if_pos ends]

theorem imaginaryMark_eq (kind : NumberKind) : imaginaryMark kind rest = some (kind, rest) := by
  rw [imaginaryMark]
  · exact finishNumber_eq hr kind
  all_goals
    rintro after rfl
    have := hr _ rfl
    revert this
    decide

include h

theorem token_text : token (t.text ++ rest) = some (.number t.kind, rest) := by
  have first := token_digits h.whole.1 h.whole.2 (t.fractionText ++ t.exponentText ++ rest)
  rw [← append_assoc] at first
  rw [text, first, ← text, number_text h hr.endsDecimal, imaginaryMark_eq hr]
  rfl

theorem token_imaginary : token (t.text ++ 'j' :: rest) = some (.number .imaginary, rest) := by
  have first := token_digits h.whole.1 h.whole.2 (t.fractionText ++ t.exponentText ++ 'j' :: rest)
  have ends : EndsDecimal ('j' :: rest) := fun c hc => by cases hc; decide
  rw [← append_assoc] at first
  rw [text, first, ← text, number_text h ends, imaginaryMark, finishNumber_eq hr]
  rfl

omit hr in
theorem of_mem_text {c : Char} (hc : c ∈ t.text) : c.isDigit = true ∨ c ∈ ['.', 'e', '+', '-'] := by
  simp only [text, mem_append] at hc
  rcases hc with whole | fraction | exponent
  · exact .inl (h.whole.2 c whole)
  · cases hf : t.fraction with
    | none => simp [fractionText, hf] at fraction
    | some ds =>
      simp only [fractionText, hf, elim_some, mem_cons] at fraction
      rcases fraction with rfl | fraction
      · exact .inr (by decide)
      · exact .inl ((h.fraction _ hf).2 c fraction)
  · cases he : t.exponent with
    | none => simp [exponentText, he] at exponent
    | some e =>
      simp only [exponentText, he, elim_some, mem_cons] at exponent
      rcases exponent with rfl | sign | exponent
      · exact .inr (by decide)
      · rw [sign]
        cases e.1 <;> exact .inr (by decide)
      · exact .inl ((h.exponent _ he).2 c exponent)

omit hr in
theorem not_mem_text {c : Char} (digit : c.isDigit = false) (other : c ∉ ['.', 'e', '+', '-']) :
    c ∉ t.text := by
  intro hc
  rcases of_mem_text h hc with hd | hm
  · rw [digit] at hd
    cases hd
  · exact other hm

omit hr in
theorem filter_text : t.text.filter (· != '_') = t.text := by
  rw [filter_eq_self]
  intro c hc
  rw [bne_iff_ne]
  rintro rfl
  exact not_mem_text h (by decide) (by decide) hc

omit hr in
theorem numberValue?_text : numberValue? t.kind t.text = some t.value := by
  have text := filter_text h
  unfold numberValue? value
  rw [text]
  by_cases integer : t.kind = .integer
  · have numeral := h.numeral integer
    have parts : t.fraction = none ∧ t.exponent = none := by
      simpa [kind] using integer
    have same : t.text = t.whole := by simp [DecimalText.text, fractionText, exponentText, parts]
    rw [integer, if_pos rfl, same]
    simp [readNatural?_digits h.whole.1 h.whole.2 numeral.short, digits, parts]
  · have float : t.kind = .float := by
      unfold kind at integer ⊢
      split <;> simp_all
    rw [float, if_neg (by decide)]
    simp [unsigned?_text h]

omit hr in
theorem numberValue?_imaginary : numberValue? .imaginary (t.text ++ ['j']) = some t.imaginary := by
  simp [numberValue?, filter_text h, unsigned?_text h, imaginary]

theorem readNumber?_imaginary : readNumber? (t.text ++ 'j' :: rest) = some (t.imaginary, rest) := by
  have front : (t.text ++ 'j' :: rest).take ((t.text ++ 'j' :: rest).length - rest.length) =
      t.text ++ ['j'] := by
    have : t.text ++ 'j' :: rest = (t.text ++ ['j']) ++ rest := by simp
    rw [this, length_append, Nat.add_sub_cancel, take_left]
  rw [readNumber?, token_imaginary h hr]
  simp only [front, numberValue?_imaginary h, map_some]

end

/-! Numbers with a sign. -/

def signed (negative : Bool) (text : List Char) : List Char := if negative then '-' :: text else text

def signedValue? (negative : Bool) (o : Object) : Option Object :=
  if negative then Source.negated? o else some o

section

open Source

variable {t : DecimalText} (h : t.IsWritten) {rest : List Char} {negative : Bool}

include h

theorem exists_digit : ∃ d cs, t.text = d :: cs ∧ d.isDigit = true := by
  obtain ⟨d, ds, hw⟩ := exists_cons_of_ne_nil h.whole.1
  exact ⟨d, ds ++ (t.fractionText ++ t.exponentText), by rw [text, hw, cons_append],
    h.whole.2 d (hw ▸ mem_cons_self)⟩

theorem starts_signed (negative : Bool) (rest : List Char) :
    Starts (signed negative t.text ++ rest) := by
  obtain ⟨d, cs, text, digit⟩ := exists_digit h
  cases negative with
  | true => exact ⟨'-', rfl, by decide⟩
  | false =>
    refine ⟨d, by simp [signed, text], fun closing => ?_⟩
    simp only [mem_cons, not_mem_nil, or_false] at closing
    rcases closing with rfl | rfl | rfl | rfl <;> exact absurd digit (by decide)

theorem readValue?_signed (inner : TextReader Object) {kind : NumberKind}
    (mark : List Char) {x o : Object}
    (read : token (t.text ++ mark ++ rest) = some (.number kind, rest))
    (hx : numberValue? kind (t.text ++ mark) = some x) (ho : signedValue? negative x = some o) :
    readValue? inner (signed negative (t.text ++ mark) ++ rest) = readSum? o rest := by
  obtain ⟨d, cs, text, digit⟩ := exists_digit h
  have front : (t.text ++ mark ++ rest).take ((t.text ++ mark ++ rest).length - rest.length) =
      t.text ++ mark := by
    rw [length_append, Nat.add_sub_cancel, take_left]
  have plain : d ∉ [' ', '(', '[', '\x7b', '-'] := by
    intro special
    simp only [mem_cons, not_mem_nil, or_false] at special
    rcases special with rfl | rfl | rfl | rfl | rfl <;> exact absurd digit (by decide)
  cases negative with
  | false =>
    cases ho
    have token : readToken? (t.text ++ mark ++ rest) = readSum? x rest := by
      rw [readToken?, read]
      simp only [front, hx, bind_some]
    rw [text] at token
    simp only [signed, text, cons_append] at token ⊢
    rw [← token]
    exact readValue?_token plain _
  | true =>
    have number : readNumber? (t.text ++ mark ++ rest) = some (x, rest) := by
      rw [readNumber?, read]
      simp only [front, hx, map_some]
    have blanks : withoutBlanks (t.text ++ mark ++ rest) = t.text ++ mark ++ rest := by
      rw [text]
      exact withoutBlanks_cons (fun blank => plain (blank ▸ mem_cons_self)) _
    have sign : signed true (t.text ++ mark) ++ rest = '-' :: (t.text ++ mark ++ rest) := rfl
    have negated : negated? x = some o := ho
    rw [sign, readValue?, withoutBlanks_cons (by decide)]
    simp only [blanks, number, bind_some, negated]

omit h in
theorem endsValue_of_follows (hr : Follows rest) : EndsValue rest := fun c hc => by
  have := hr c hc
  simp only [mem_cons, not_mem_nil, or_false] at this ⊢
  tauto

omit h in
theorem readSum?_follows (x : Object) (hr : Follows rest) :
    readSum? x rest = some (x, rest) := by
  rcases hr.cases with rfl | ⟨c, cs, rfl, hc⟩
  · rfl
  · simp only [mem_cons, not_mem_nil, or_false] at hc
    rcases hc with rfl | rfl | rfl | rfl | rfl <;> rfl

def signBetween (minus : Bool) : Char := if minus then '-' else '+'

theorem readSum?_imaginary (minus : Bool) (x : Object) (hr : EndsValue rest) :
    readSum? x (signBetween minus :: (t.text ++ 'j' :: rest)) =
      (combined? minus x t.imaginary).map (·, rest) := by
  obtain ⟨d, cs, text, digit⟩ := exists_digit h
  have blanks : withoutBlanks (t.text ++ 'j' :: rest) = t.text ++ 'j' :: rest := by
    rw [text]
    refine withoutBlanks_cons ?_ _
    rintro rfl
    exact absurd digit (by decide)
  have number := readNumber?_imaginary h hr
  cases minus <;>
    simp only [signBetween, readSum?, withoutBlanks_cons, ne_eq, Char.reduceEq, not_false_eq_true,
      Bool.false_eq_true, if_false, if_true, blanks, number, bind_some]

theorem denotes_number {o : Object} (ho : signedValue? negative t.value = some o) :
    Denotes (signed negative t.text) o := by
  refine denotes_of_value (by simpa using starts_signed h negative []) fun inner rest hr => ?_
  have read := readValue?_signed h inner []
    (by simpa using token_text h (endsValue_of_follows hr)) (by simpa using numberValue?_text h) ho
  rw [append_nil] at read
  rw [read, readSum?_follows o hr]

theorem denotes_imaginary {o : Object}
    (ho : signedValue? negative t.imaginary = some o) : Denotes (signed negative (t.text ++ ['j'])) o := by
  have text : signed negative (t.text ++ ['j']) = signed negative t.text ++ ['j'] := by
    cases negative <;> rfl
  refine denotes_of_value (text ▸ starts_signed h negative _) fun inner rest hr => ?_
  have token := token_imaginary h (endsValue_of_follows hr)
  rw [readValue?_signed h inner ['j'] (by simpa using token) (numberValue?_imaginary h) ho,
    readSum?_follows o hr]

theorem denotes_complex {u : DecimalText} (hu : u.IsWritten) {minus : Bool} {x o : Object}
    (hx : signedValue? negative t.value = some x) (ho : combined? minus x u.imaginary = some o) :
    Denotes (signed negative t.text ++ signBetween minus :: (u.text ++ ['j'])) o := by
  refine denotes_of_value (starts_signed h negative _) fun inner rest hr => ?_
  have ends : EndsValue (signBetween minus :: (u.text ++ 'j' :: rest)) := fun c hc => by
    cases hc
    cases minus <;> decide
  have read := readValue?_signed h inner []
    (by simpa using token_text h ends) (by simpa using numberValue?_text h) hx
  rw [append_nil] at read
  have sum := readSum?_imaginary hu minus x (endsValue_of_follows hr)
  simp only [append_assoc, cons_append, nil_append]
  rw [read, sum, ho, map_some]

end

end DecimalText

end TypeStubs
