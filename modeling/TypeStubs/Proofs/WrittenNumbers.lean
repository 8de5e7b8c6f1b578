import TypeStubs.Proofs.NumberTexts

/-! Numbers as they are written: integers, floating point numbers and complex numbers denote
themselves. Only the sign of a zero inside of a complex number gets lost. -/

namespace TypeStubs

open List

namespace DecimalText

open Binary

/-- The parts of the text of a number. -/
structure IsTextOf (t : DecimalText) (text : String) (x : ℚ) : Prop where
  written : t.IsWritten
  text_eq : t.text = text.toList
  number : t.digits * 10 ^ t.place = x

section

variable {ds : List Char} (hne : ds ≠ []) (hd : ∀ c ∈ ds, c.isDigit = true)

theorem isDigit_zeros {k : Nat} : ∀ c ∈ replicate k '0', c.isDigit = true := fun c hc => by
  rw [eq_of_mem_replicate hc]
  rfl

theorem natOfDigits_zeros_append (k : Nat) (ds : List Char) :
    natOfDigits (replicate k '0' ++ ds) = natOfDigits ds := by
  rw [natOfDigits_append, natOfDigits_zeros, Nat.zero_mul, Nat.zero_add]

include hne hd

theorem exists_scientific (e : Int) : ∃ t : DecimalText, t.kind = .float ∧
    t.IsTextOf (String.ofList (ds.take 1) ++
        (if ds.length > 1 then "." ++ String.ofList (ds.drop 1) else "") ++ TypeStubs.exponentText e)
      (natOfDigits ds * 10 ^ (e + 1 - ds.length)) := by
  obtain ⟨d, ds, rfl⟩ := exists_cons_of_ne_nil hne
  let power := replicate (2 - (toString e.natAbs).length) '0' ++ Nat.toDigits 10 e.natAbs
  have natural : natOfDigits power = e.natAbs := by
    rw [natOfDigits_zeros_append, natOfDigits_toDigits]
  have whole : [d] ≠ [] ∧ ∀ c ∈ [d], c.isDigit = true :=
    ⟨cons_ne_nil _ _, fun c hc => hd c (by simp_all)⟩
  have exponent : power ≠ [] ∧ ∀ c ∈ power, c.isDigit = true := by
    refine ⟨append_ne_nil_of_right_ne_nil _ Nat.toDigits_ne_nil, fun c hc => ?_⟩
    rcases mem_append.mp hc with zero | digit
    · exact isDigit_zeros c zero
    · exact Nat.isDigit_of_mem_toDigits (by decide) (by decide) digit
  have text : (TypeStubs.exponentText e).toList = 'e' :: (if e < 0 then '-' else '+') :: power := by
    unfold TypeStubs.exponentText
    split <;> simp [zeros, power]
  have value : (if e < 0 then -(natOfDigits power : Int) else natOfDigits power) = e := by
    rw [natural]
    split <;> omega
  refine ⟨⟨[d], if ds = [] then none else some ds, some (decide (e < 0), power)⟩, by simp [kind], ?_⟩
  cases ds with
  | nil =>
    refine ⟨⟨whole, by simp, by simpa using exponent, by simp [kind]⟩, ?_, ?_⟩
    · simp [DecimalText.text, fractionText, exponentText, text]
    · simp [digits, place, DecimalText.power, value]
  | cons d' ds =>
    refine ⟨⟨whole, ?_, by simpa using exponent, by simp [kind]⟩, ?_, ?_⟩
    · rintro ds ⟨rfl⟩
      exact ⟨cons_ne_nil _ _, fun c hc => hd c (.tail _ hc)⟩
    · simp [DecimalText.text, fractionText, exponentText, text]
    · simp [digits, place, DecimalText.power, value]

theorem exists_below (k : Nat) : ∃ t : DecimalText, t.kind = .float ∧
    t.IsTextOf ("0." ++ zeros k ++ String.ofList ds)
      (natOfDigits ds * 10 ^ (-(k : Int) - ds.length)) := by
  have zero : natOfDigits ('0' :: (replicate k '0' ++ ds)) = natOfDigits ds :=
    natOfDigits_zeros_append (k + 1) ds
  refine ⟨⟨['0'], some (replicate k '0' ++ ds), none⟩, rfl, ⟨⟨?_, ?_, ?_, ?_⟩, ?_, ?_⟩⟩
  · exact ⟨cons_ne_nil _ _, isDigit_zeros (k := 1)⟩
  · rintro es ⟨rfl⟩
    refine ⟨append_ne_nil_of_right_ne_nil _ hne, fun c hc => ?_⟩
    exact (mem_append.mp hc).elim (isDigit_zeros c) (hd c)
  · rintro e ⟨⟩
  · rintro ⟨⟩
  · simp [text, fractionText, exponentText, zeros]
  · simp [digits, place, power, zero]
    ring_nf
    simp

theorem exists_between {k : Nat} (positive : 0 < k) (inside : k < ds.length) :
    ∃ t : DecimalText, t.kind = .float ∧
    t.IsTextOf (String.ofList (ds.take k) ++ "." ++ String.ofList (ds.drop k))
      (natOfDigits ds * 10 ^ ((k : Int) - ds.length)) := by
  refine ⟨⟨ds.take k, some (ds.drop k), none⟩, rfl, ⟨⟨?_, ?_, ?_, ?_⟩, ?_, ?_⟩⟩
  · refine ⟨?_, fun c hc => hd c (mem_of_mem_take hc)⟩
    rw [ne_eq, take_eq_nil_iff]
    exact not_or.mpr ⟨positive.ne', hne⟩
  · rintro es ⟨rfl⟩
    refine ⟨?_, fun c hc => hd c (mem_of_mem_drop hc)⟩
    rw [ne_eq, drop_eq_nil_iff]
    omega
  · rintro e ⟨⟩
  · rintro ⟨⟩
  · simp [text, fractionText, exponentText]
  · have place : -((ds.length - k : Nat) : Int) = k - ds.length := by omega
    simp [digits, DecimalText.place, power, place]

theorem exists_above (first : ds.head? ≠ some '0') {k : Nat}
    (short : ds.length + k ≤ Source.maxIntegerDigits) (pointZero : Bool) : ∃ t : DecimalText, (pointZero = true → t.kind = .float) ∧
    t.IsTextOf (String.ofList ds ++ zeros k ++ (if pointZero then ".0" else ""))
      (natOfDigits ds * 10 ^ (k : Int)) := by
  have whole : ds ++ replicate k '0' ≠ [] ∧
      ∀ c ∈ ds ++ replicate k '0', c.isDigit = true := by
    refine ⟨append_ne_nil_of_left_ne_nil hne _, fun c hc => ?_⟩
    exact (mem_append.mp hc).elim (hd c) (isDigit_zeros c)
  have value : natOfDigits (ds ++ replicate k '0') = natOfDigits ds * Nat.pow 10 k := by
    rw [natOfDigits_append, natOfDigits_zeros, length_replicate, Nat.add_zero]
  have numeral : Source.IsNumeral (ds ++ replicate k '0') := by
    refine ⟨whole.1, whole.2, fun zero => absurd ?_ first, by simpa using short⟩
    obtain ⟨d, ds, rfl⟩ := exists_cons_of_ne_nil hne
    exact zero
  refine ⟨⟨ds ++ replicate k '0', if pointZero then some ['0'] else none, none⟩, ?_, ?_⟩
  · rintro rfl
    rfl
  · cases pointZero with
    | false =>
      refine ⟨⟨whole, by simp, by simp, fun _ => numeral⟩, ?_, ?_⟩
      · simp [text, fractionText, exponentText, zeros]
      · simp [digits, place, power, value]
    | true =>
      refine ⟨⟨whole, ?_, by simp, by simp [kind]⟩, ?_, ?_⟩
      · rintro es ⟨rfl⟩
        exact ⟨cons_ne_nil _ _, isDigit_zeros (k := 1)⟩
      · simp [text, fractionText, exponentText, zeros]
      · have zero : natOfDigits (ds ++ (replicate k '0' ++ ['0'])) =
            natOfDigits ds * Nat.pow 10 (k + 1) := by
          rw [← append_assoc, natOfDigits_append, value]
          simp [natOfDigits, Nat.pow_succ, Nat.mul_assoc]
        simp [digits, place, power, zero, pow_succ]
        ring

theorem exists_placed {format : FloatFormat} (most : format.maxPlaces ≤ Source.maxIntegerDigits)
    (first : ds.head? ≠ some '0') (point : Int) :
    ∃ t : DecimalText, (format.pointZero = true → t.kind = .float) ∧
    t.IsTextOf (placedText format ds point) (natOfDigits ds * 10 ^ (point - ds.length)) := by
  unfold placedText
  by_cases outside : (point ≤ format.minPlaces || point > format.maxPlaces) = true
  · obtain ⟨t, float, text⟩ := exists_scientific hne hd (point - 1)
    rw [sub_add_cancel] at text
    rw [if_pos outside]
    exact ⟨t, fun _ => float, text⟩
  · rw [if_neg outside]
    by_cases small : point ≤ 0
    · obtain ⟨k, rfl⟩ : ∃ k : Nat, point = -k := ⟨(-point).toNat, by omega⟩
      obtain ⟨t, float, text⟩ := exists_below hne hd k
      rw [if_pos small]
      exact ⟨t, fun _ => float, by simpa using text⟩
    · obtain ⟨k, rfl⟩ : ∃ k : Nat, point = k := ⟨point.toNat, by omega⟩
      by_cases large : (k : Int) ≥ ds.length
      · obtain ⟨zeros, rfl⟩ : ∃ zeros : Nat, k = ds.length + zeros := ⟨k - ds.length, by omega⟩
        simp only [Bool.or_eq_true, decide_eq_true_eq] at outside
        obtain ⟨t, float, text⟩ := exists_above hne hd first (k := zeros) (by omega) format.pointZero
        rw [if_neg small, if_pos large]
        exact ⟨t, float, by simpa using text⟩
      · obtain ⟨t, float, text⟩ := exists_between hne hd (k := k) (by omega) (by omega)
        rw [if_neg small, if_neg large]
        exact ⟨t, fun _ => float, by simpa using text⟩

end

theorem exists_zero (pointZero : Bool) : ∃ t : DecimalText, (pointZero = true → t.kind = .float) ∧
    t.IsWritten ∧ t.text = (if pointZero then "0.0" else "0").toList ∧
      ∀ sign, ofDecimal sign t.digits t.place = finite sign 0 minExponent := by
  have zero : ['0'] ≠ [] ∧ ∀ c ∈ ['0'], c.isDigit = true :=
    ⟨cons_ne_nil _ _, forall_of_all (by decide)⟩
  have numeral : Source.IsNumeral ['0'] := ⟨zero.1, zero.2, fun _ => rfl, by decide⟩
  refine ⟨⟨['0'], if pointZero then some ['0'] else none, none⟩, ?_,
    ⟨zero, ?_, by simp, fun _ => numeral⟩, ?_, ?_⟩
  · rintro rfl
    rfl
  · intro es hes
    cases pointZero with
    | false => cases hes
    | true =>
      cases hes
      exact zero
  · cases pointZero <;> rfl
  · cases pointZero <;> exact fun sign => rfl

theorem exists_magnitude (format : FloatFormat) (most : format.maxPlaces ≤ Source.maxIntegerDigits)
    {negative : Bool} {m : Nat} {e : Int} (double : isDouble (finite negative m e) = true) :
    ∃ t : DecimalText, (format.pointZero = true → t.kind = .float) ∧ t.IsWritten ∧
      t.text = ((finite negative m e).magnitudeText format).toList ∧
      ∀ sign, ofDecimal sign t.digits t.place = finite sign m e := by
  by_cases hm : m = 0
  · have least : e = minExponent := by
      subst hm
      simp only [isDouble, Bool.and_eq_true, Bool.or_eq_true, decide_eq_true_eq] at double
      exact double.2.resolve_left (by decide)
    subst hm least
    obtain ⟨t, float, written, text, number⟩ := exists_zero format.pointZero
    refine ⟨t, float, written, ?_, number⟩
    rw [text, magnitudeText, if_pos rfl]
  · obtain ⟨positive, rounds⟩ := shortest_roundsTo (Nat.pos_of_ne_zero hm) double
    have digits : ∀ c ∈ Nat.toDigits 10 (shortest m e).1, c.isDigit = true := fun c hc =>
      Nat.isDigit_of_mem_toDigits (by decide) (by decide) hc
    obtain ⟨t, float, text⟩ := exists_placed Nat.toDigits_ne_nil digits most
      (fun zero => positive.ne' (Source.head?_toDigits zero))
      ((Nat.toDigits 10 (shortest m e).1).length + (shortest m e).2)
    have number := text.number
    rw [natOfDigits_toDigits, add_sub_cancel_left] at number
    refine ⟨t, float, text.written, ?_, fun sign => ?_⟩
    · rw [text.text_eq, magnitudeText, if_neg hm]
    · have signed : isDouble (finite sign m e) = true := double
      exact ofDecimal_of_roundsTo (Nat.pos_of_ne_zero hm) signed (number ▸ rounds)

end DecimalText

namespace Source

open DecimalText Binary

theorem toList_toString (n : Int) :
    (toString n).toList = signed (n < 0) (Nat.toDigits 10 n.natAbs) := by
  cases n with
  | ofNat n => simp [toString, Int.repr, signed]
  | negSucc n => simp [toString, Int.repr, signed]

theorem denotes_int {n : Int} (small : n.natAbs < Nat.pow 10 maxIntegerDigits) :
    Denotes (toString n).toList (.int n) := by
  have numeral := isNumeral_toDigits small
  let t : DecimalText := ⟨Nat.toDigits 10 n.natAbs, none, none⟩
  have written : t.IsWritten :=
    ⟨⟨numeral.ne_nil, numeral.digits⟩, by simp [t], by simp [t], fun _ => numeral⟩
  have text : t.text = Nat.toDigits 10 n.natAbs := append_nil _
  have digits : t.digits = n.natAbs := by
    rw [DecimalText.digits, Option.getD_none, append_nil, natOfDigits_toDigits]
  have value : t.value = .int n.natAbs := by
    rw [DecimalText.value, if_pos (show t.kind = .integer from rfl), digits]
  rw [toList_toString, ← text]
  refine denotes_number written ?_
  rw [value, signedValue?]
  by_cases negative : n < 0
  · rw [if_pos (decide_eq_true negative), negated?, Int.ofNat_natAbs_of_nonpos negative.le, neg_neg]
  · rw [if_neg (by simpa using negative), Int.natAbs_of_nonneg (not_lt.mp negative)]

theorem lt_not_mem_toString (n : Int) : '<' ∉ (toString n).toList := by
  have digits : '<' ∉ Nat.toDigits 10 n.natAbs := fun h =>
    absurd (Nat.isDigit_of_mem_toDigits (by decide) (by decide) h) (by decide)
  rw [toList_toString, signed]
  split
  · simpa using digits
  · exact digits

theorem lt_not_mem_formatted (format : FloatFormat) (most : format.maxPlaces ≤ maxIntegerDigits)
    {x : Binary} (double : x.isDouble = true) : '<' ∉ (x.formatted format).toList := by
  cases x with
  | nan => cases double
  | infinite => cases double
  | finite negative m e =>
    obtain ⟨t, -, written, text, -⟩ := exists_magnitude format most double
    have plain := not_mem_text written (show '<'.isDigit = false by decide) (by decide)
    rw [text] at plain
    rw [formatted, isNegative]
    cases negative <;> simpa using plain

theorem denotes_float {x : Binary} (double : x.isDouble = true) : Denotes x.text.toList (.float x) := by
  cases x with
  | nan => cases double
  | infinite => cases double
  | finite negative m e =>
    obtain ⟨t, float, written, text, number⟩ := exists_magnitude .plain (by decide) double
    have whole : (Binary.text (finite negative m e)).toList = signed negative t.text := by
      rw [text, Binary.text, formatted, isNegative]
      cases negative <;> simp [signed]
    rw [whole]
    refine denotes_number written ?_
    rw [DecimalText.value, if_neg (by rw [float rfl]; decide), number]
    cases negative <;> rfl

/-! Complex numbers. -/

theorem ofBinary_zero (negative negative' : Bool) (e e' : Int) :
    NumberKey.ofBinary (finite negative 0 e) = NumberKey.ofBinary (finite negative' 0 e') := by
  cases negative <;> cases negative' <;> rfl

theorem ofBinary_plusZero (x : Binary) : NumberKey.ofBinary x.plusZero = NumberKey.ofBinary x := by
  unfold plusZero
  split
  · exact ofBinary_zero _ _ _ _
  · rfl

theorem exists_real {t : DecimalText} {m : Nat} {e : Int}
    (number : ∀ sign, ofDecimal sign t.digits t.place = finite sign m e) (negative : Bool) :
    ∃ left re, signedValue? negative t.value = some left ∧ real? left = some re ∧
      NumberKey.ofBinary re = NumberKey.ofBinary (finite negative m e) := by
  by_cases integer : t.kind = .integer
  · have place : t.place = 0 := by
      have parts : t.fraction = none ∧ t.exponent = none := by simpa [kind] using integer
      simp [DecimalText.place, DecimalText.power, parts]
    rw [place] at number
    refine ⟨.int (if negative then -t.digits else t.digits), _, ?_, rfl, ?_⟩
    · rw [DecimalText.value, if_pos integer]
      cases negative <;> rfl
    -- An integer has no negative zero: this is where the sign gets lost.
    · by_cases zero : t.digits = 0
      · have none := number false
        rw [zero] at none ⊢
        cases none
        cases negative <;> rfl
      · have sign : (if negative then -t.digits else t.digits : Int) < 0 ↔ negative = true := by
          cases negative
          · simp
          · simp [Nat.pos_of_ne_zero zero]
        have digits : (if negative then -t.digits else t.digits : Int).natAbs = t.digits := by
          cases negative <;> simp
        rw [digits, number]
        simp [sign]
  · refine ⟨.float (finite negative m e), _, ?_, rfl, rfl⟩
    rw [DecimalText.value, if_neg integer, number]
    cases negative <;> rfl

theorem denotes_complexText {re im : Binary} (hre : re.isDouble = true) (him : im.isDouble = true) :
    ∃ re' im', Denotes (complexText re im).toList (.complex re' im') ∧
      NumberKey.ofBinary re' = NumberKey.ofBinary re ∧
      NumberKey.ofBinary im' = NumberKey.ofBinary im := by
  rcases re with _ | _ | ⟨negative, m, e⟩
  · cases hre
  · cases hre
  rcases im with _ | _ | ⟨minus, n, d⟩
  · cases him
  · cases him
  obtain ⟨t, -, left, leftText, leftNumber⟩ := exists_magnitude .part (by decide) hre
  obtain ⟨u, -, right, rightText, rightNumber⟩ := exists_magnitude .part (by decide) him
  have imaginary : u.imaginary = .complex zero (finite false n d) := by
    rw [DecimalText.imaginary, rightNumber]
  by_cases onlyImaginary : negative = false ∧ m = 0
  · obtain ⟨rfl, rfl⟩ := onlyImaginary
    have text : (complexText (finite false 0 e) (finite minus n d)).toList =
        signed minus (u.text ++ ['j']) := by
      rw [complexText, rightText, formatted, isNegative]
      cases minus <;> simp [signed]
    refine ⟨if minus then zero.negated else zero, finite minus n d, ?_, ?_, rfl⟩
    · rw [text]
      refine denotes_imaginary right ?_
      rw [imaginary]
      cases minus <;> rfl
    · cases minus <;> exact ofBinary_zero _ _ _ _
  · have text : (complexText (finite negative m e) (finite minus n d)).toList =
        '(' :: (signed negative t.text ++ signBetween minus :: (u.text ++ ['j']) ++ [')']) := by
      rw [leftText, rightText, complexText]
      · cases negative <;> cases minus <;> simp [formatted, isNegative, signed, signBetween]
      · rintro e ⟨⟩
        exact onlyImaginary ⟨rfl, rfl⟩
    obtain ⟨x, re, value, real, same⟩ := exists_real leftNumber negative
    refine ⟨if minus then re else re.plusZero, (finite minus n d).plusZero, ?_, ?_, ofBinary_plusZero _⟩
    · rw [text]
      refine (denotes_complex left right value ?_).parenthesised
      cases minus <;> simp only [imaginary, combined?, real] <;> rfl
    · rw [← same]
      cases minus
      · exact ofBinary_plusZero re
      · rfl

theorem lt_not_mem_complexText {re im : Binary} (hre : re.isDouble = true) (him : im.isDouble = true) :
    '<' ∉ (complexText re im).toList := by
  have left := lt_not_mem_formatted .part (by decide) hre
  have right := lt_not_mem_formatted .part (by decide) him
  unfold complexText
  split
  · simpa using right
  · split <;> simp [left, right]

end Source

end TypeStubs
