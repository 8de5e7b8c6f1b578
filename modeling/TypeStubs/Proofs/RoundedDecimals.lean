import Mathlib.Algebra.Order.Field.Power
import Mathlib.Tactic.Linarith
import Mathlib.Tactic.Positivity
import Mathlib.Tactic.FieldSimp
import Mathlib.Tactic.Ring
import Mathlib.Tactic.NormNum
import TypeStubs.Decimal.Text

/-! Decimals that round to a given floating point number. They lie between the middles to its
neighbours, and the shortest decimal of a number is one of them, so it is read back as the number. -/

namespace TypeStubs.Binary

variable {f : Fraction} {n : Nat}

/-- A finite number in the one form that it has as a double: the mantissa has 53 bits, or the exponent
is the least one. -/
def isDouble : Binary → Bool
  | finite _ mantissa exponent =>
    mantissa < Nat.pow 2 53 && minExponent ≤ exponent && exponent ≤ maxExponent &&
      (Nat.pow 2 52 ≤ mantissa || exponent = minExponent)
  | _ => false

theorem scale_den_pos {base : Nat} (hb : 0 < base) (e : Int) (num : Nat) {den : Nat} (hd : 0 < den) :
    0 < (scale base e num den).2 := by
  unfold scale
  split
  · exact hd
  · exact Nat.mul_pos hd (Nat.pow_pos hb)

theorem scale_value {base : Nat} (hb : 0 < base) (e : Int) (num den : Nat) :
    ((scale base e num den).1 : ℚ) / (scale base e num den).2 = num / den * (base : ℚ) ^ e := by
  have hb' : (base : ℚ) ≠ 0 := by positivity
  unfold scale
  split
  · rename_i he
    obtain ⟨k, rfl⟩ := Int.eq_ofNat_of_zero_le he
    simp only [Nat.pow_eq, Int.toNat_natCast, Nat.cast_mul, Nat.cast_pow, zpow_natCast]
    ring
  · rename_i he
    obtain ⟨k, hk⟩ := Int.eq_ofNat_of_zero_le (show 0 ≤ -e by omega)
    obtain rfl : e = -(k : Int) := by omega
    simp only [Nat.pow_eq, neg_neg, Int.toNat_natCast, Nat.cast_mul, Nat.cast_pow, zpow_neg,
      zpow_natCast]
    rw [div_mul_eq_div_div, div_eq_mul_inv (_ / _)]

theorem roundQuotient_eq {d m : Nat} (hd : 0 < d) (low : 2 * m * d ≤ 2 * n + d)
    (high : 2 * n ≤ (2 * m + 1) * d)
    (odd : m % 2 = 1 → 2 * m * d < 2 * n + d ∧ 2 * n < (2 * m + 1) * d) : roundQuotient n d = m := by
  have split := Nat.div_add_mod n d
  have rest := Nat.mod_lt n hd
  unfold roundQuotient
  generalize n / d = q at *
  generalize n % d = r at *
  subst split
  have above : q ≤ m := by
    by_contra h
    have : (m + 1) * d ≤ q * d := Nat.mul_le_mul_right d (by omega)
    nlinarith
  have below : m ≤ q + 1 := by
    by_contra h
    have : (q + 2) * d ≤ m * d := Nat.mul_le_mul_right d (by omega)
    nlinarith
  obtain rfl | rfl : m = q ∨ m = q + 1 := by omega
  · have small : 2 * r ≤ d := by nlinarith
    have tie : m % 2 = 1 → 2 * r < d := fun h => by nlinarith [(odd h).2]
    refine if_neg ?_
    simp only [Bool.or_eq_true, Bool.and_eq_true, decide_eq_true_eq, beq_iff_eq]
    omega
  · have large : d ≤ 2 * r := by nlinarith
    have tie : (q + 1) % 2 = 1 → d < 2 * r := fun h => by nlinarith [(odd h).1]
    refine if_pos ?_
    simp only [Bool.or_eq_true, Bool.and_eq_true, decide_eq_true_eq, beq_iff_eq]
    omega

theorem roundQuotient_of_near {d m : Nat} (hd : 0 < d) (low : (m : ℚ) - 1 / 2 ≤ (n : ℚ) / d)
    (high : (n : ℚ) / d ≤ m + 1 / 2)
    (odd : m % 2 = 1 → (m : ℚ) - 1 / 2 < (n : ℚ) / d ∧ (n : ℚ) / d < m + 1 / 2) :
    roundQuotient n d = m := by
  have hd' : (0 : ℚ) < d := by exact_mod_cast hd
  rw [le_div_iff₀ hd'] at low
  rw [div_le_iff₀ hd'] at high
  rw [lt_div_iff₀ hd', div_lt_iff₀ hd'] at odd
  refine roundQuotient_eq hd ?_ ?_ fun h => ⟨?_, ?_⟩
  · have : (2 * m * d : ℚ) ≤ 2 * n + d := by linarith
    exact_mod_cast this
  · have : (2 * n : ℚ) ≤ (2 * m + 1) * d := by linarith
    exact_mod_cast this
  · have : (2 * m * d : ℚ) < 2 * n + d := by linarith [(odd h).1]
    exact_mod_cast this
  · have : (2 * n : ℚ) < (2 * m + 1) * d := by linarith [(odd h).2]
    exact_mod_cast this

/-- The exponent under which the mantissa of a fraction has 53 bits before it is rounded. -/
def exponentOf (num den : Nat) : Int :=
  let estimate : Int := (Nat.log2 num : Int) - Nat.log2 den - 52
  let fits (e : Int) : Bool := (scale 2 (-e) num den).1 / (scale 2 (-e) num den).2 < Nat.pow 2 53
  if fits (estimate - 1) then estimate - 1 else if fits estimate then estimate else estimate + 1

theorem ofFraction_eq (negative : Bool) (num den : Nat) : ofFraction negative num den =
    let e := max (exponentOf num den) minExponent
    let mantissa := roundQuotient (scale 2 (-e) num den).1 (scale 2 (-e) num den).2
    let (mantissa, e) := if mantissa == Nat.pow 2 53 then (Nat.pow 2 52, e + 1) else (mantissa, e)
    if e > maxExponent then infinite negative else finite negative mantissa e := by
  unfold ofFraction exponentOf
  rfl

theorem log2_bounds (hn : 0 < n) :
    (2 : ℚ) ^ (Nat.log2 n : Int) ≤ n ∧ (n : ℚ) < 2 ^ ((Nat.log2 n : Int) + 1) := by
  have low := Nat.log2_self_le (Nat.ne_of_gt hn)
  have high := Nat.lt_log2_self (n := n)
  refine ⟨?_, ?_⟩
  · rw [zpow_natCast]
    exact_mod_cast low
  · rw [← Nat.cast_succ, zpow_natCast]
    exact_mod_cast high

section

variable {num den : Nat} (hn : 0 < num) (hd : 0 < den)

include hn hd

theorem exponentOf_bounds : (2 : ℚ) ^ (exponentOf num den + 52) ≤ (num : ℚ) / den ∧
    (num : ℚ) / den < 2 ^ (exponentOf num den + 53) := by
  have hd' : (0 : ℚ) < den := by exact_mod_cast hd
  obtain ⟨numLow, numHigh⟩ := log2_bounds hn
  obtain ⟨denLow, denHigh⟩ := log2_bounds hd
  have two : (2 : ℚ) ≠ 0 := by norm_num
  -- The sizes of numerator and denominator leave two candidates.
  have above : (num : ℚ) / den < 2 ^ ((Nat.log2 num : Int) - Nat.log2 den + 1) := by
    rw [div_lt_iff₀ hd']
    calc (num : ℚ) < 2 ^ ((Nat.log2 num : Int) + 1) := numHigh
      _ = 2 ^ ((Nat.log2 num : Int) - Nat.log2 den + 1) * 2 ^ (Nat.log2 den : Int) := by
          rw [← zpow_add₀ two]
          congr 1
          ring
      _ ≤ _ := by gcongr
  have below : (2 : ℚ) ^ ((Nat.log2 num : Int) - Nat.log2 den - 1) ≤ (num : ℚ) / den := by
    rw [le_div_iff₀ hd']
    calc (2 : ℚ) ^ ((Nat.log2 num : Int) - Nat.log2 den - 1) * den
        ≤ 2 ^ ((Nat.log2 num : Int) - Nat.log2 den - 1) * 2 ^ ((Nat.log2 den : Int) + 1) := by gcongr
      _ = 2 ^ (Nat.log2 num : Int) := by
          rw [← zpow_add₀ two]
          congr 1
          ring
      _ ≤ num := numLow
  have fits (e : Int) : (scale 2 (-e) num den).1 / (scale 2 (-e) num den).2 < Nat.pow 2 53 ↔
      (num : ℚ) / den < 2 ^ (e + 53) := by
    have pos := scale_den_pos (show 0 < 2 by decide) (-e) num hd
    have pos' : (0 : ℚ) < (scale 2 (-e) num den).2 := by exact_mod_cast pos
    have value := scale_value (show 0 < 2 by decide) (-e) num den
    rw [Nat.div_lt_iff_lt_mul pos, ← Nat.cast_lt (α := ℚ), Nat.cast_mul, ← div_lt_iff₀ pos', value,
      zpow_neg, ← div_eq_mul_inv, div_lt_iff₀ (by positivity), Nat.pow_eq, Nat.cast_pow, add_comm e,
      zpow_add₀ two]
    rfl
  unfold exponentOf
  simp only [fits, decide_eq_true_eq]
  generalize (Nat.log2 num : Int) - Nat.log2 den = k at above below ⊢
  have smaller : k - 52 - 1 + 53 = k ∧ k - 52 - 1 + 52 = k - 1 := by omega
  have larger : k - 52 + 53 = k + 1 ∧ k - 52 + 52 = k := by omega
  rw [smaller.1, larger.1, if_pos above]
  by_cases first : (num : ℚ) / den < 2 ^ k
  · rw [if_pos first, smaller.1, smaller.2]
    exact ⟨below, first⟩
  · rw [if_neg first, larger.1, larger.2]
    exact ⟨not_lt.mp first, above⟩

end

/-- The middle between a number and the next one towards zero. -/
def lowMiddle (m : Nat) (e : Int) : ℚ :=
  if m = Nat.pow 2 52 ∧ minExponent < e then (m - 1 / 4) * 2 ^ e else (m - 1 / 2) * 2 ^ e

/-- The middle between a number and the next one away from zero. -/
def highMiddle (m : Nat) (e : Int) : ℚ := (m + 1 / 2) * 2 ^ e

/-- The number is the nearest one, the even one of two. -/
structure RoundsTo (m : Nat) (e : Int) (x : ℚ) : Prop where
  low : lowMiddle m e ≤ x
  high : x ≤ highMiddle m e
  odd : m % 2 = 1 → lowMiddle m e < x ∧ x < highMiddle m e

theorem lowMiddle_ge (m : Nat) (e : Int) : (m - 1 / 2) * 2 ^ e ≤ lowMiddle m e := by
  unfold lowMiddle
  split
  · have : (0 : ℚ) < 2 ^ e := by positivity
    nlinarith
  · exact le_refl _

section

variable {m : Nat} {e : Int} {num den : Nat} (hn : 0 < num) (hd : 0 < den) {negative : Bool}
  (double : isDouble (finite negative m e) = true) (h : RoundsTo m e ((num : ℚ) / den))

include hn hd double h

/-- The exponent of the nearest number is found, or the one below it if the fraction lies just below a
power of two. -/
theorem exponentOf_cases : max (exponentOf num den) minExponent = e ∨
    m = Nat.pow 2 52 ∧ minExponent < e ∧ max (exponentOf num den) minExponent = e - 1 ∧
      (num : ℚ) / den < m * 2 ^ e := by
  obtain ⟨low, high⟩ := exponentOf_bounds hn hd
  simp only [isDouble, Bool.and_eq_true, Bool.or_eq_true, decide_eq_true_eq] at double
  obtain ⟨⟨⟨small, least⟩, -⟩, normal⟩ := double
  have two : (2 : ℚ) ≠ 0 := by norm_num
  have power (a b : Int) : (2 : ℚ) ^ (a + b) = 2 ^ a * 2 ^ b := zpow_add₀ two a b
  have pos : (0 : ℚ) < 2 ^ e := by positivity
  have small' : (m : ℚ) + 1 ≤ 2 ^ (53 : Int) := by exact_mod_cast small
  have least' := lowMiddle_ge m e
  have notAbove : exponentOf num den ≤ e := by
    by_contra above
    have : (2 : ℚ) ^ (e + 53) ≤ 2 ^ (exponentOf num den + 52) :=
      zpow_le_zpow_right₀ (by norm_num) (by omega)
    have bound := h.high
    rw [highMiddle] at bound
    rw [power] at this
    nlinarith
  by_cases same : max (exponentOf num den) minExponent = e
  · exact .inl same
  · have below : exponentOf num den < e ∧ minExponent < e := by omega
    have large : Nat.pow 2 52 ≤ m := normal.resolve_right (by omega)
    have large' : (2 : ℚ) ^ (52 : Int) ≤ m := by exact_mod_cast large
    have bound : (num : ℚ) / den < 2 ^ (e + 52) :=
      lt_of_lt_of_le high (zpow_le_zpow_right₀ (by norm_num) (by omega))
    have least := h.low
    rw [power] at bound
    have power52 : m = Nat.pow 2 52 := by
      have : (m : ℚ) < 2 ^ (52 : Int) + 1 := by nlinarith
      have : m < Nat.pow 2 52 + 1 := by exact_mod_cast this
      omega
    refine .inr ⟨power52, below.2, ?_, ?_⟩
    · rw [lowMiddle, if_pos ⟨power52, below.2⟩] at least
      have next : e - 1 ≤ exponentOf num den := by
        by_contra lower
        have : (2 : ℚ) ^ (exponentOf num den + 53) ≤ 2 ^ (e + 51) :=
          zpow_le_zpow_right₀ (by norm_num) (by omega)
        rw [power e] at this
        have value : (2 : ℚ) ^ (52 : Int) = 2 * 2 ^ (51 : Int) ∧ (1 : ℚ) ≤ 2 ^ (51 : Int) := by norm_num
        nlinarith
      omega
    · nlinarith

theorem ofFraction_of_roundsTo : ofFraction negative num den = finite negative m e := by
  have two : (2 : ℚ) ≠ 0 := by norm_num
  have pos : (0 : ℚ) < 2 ^ e := by positivity
  have cases := exponentOf_cases hn hd double h
  simp only [isDouble, Bool.and_eq_true, Bool.or_eq_true, decide_eq_true_eq] at double
  obtain ⟨⟨⟨small, least⟩, most⟩, normal⟩ := double
  have near := lowMiddle_ge m e
  have scaled (k : Int) : ((scale 2 (-k) num den).1 : ℚ) / (scale 2 (-k) num den).2 =
      (num : ℚ) / den / 2 ^ k := by
    rw [scale_value (by decide), zpow_neg, div_eq_mul_inv _ ((2 : ℚ) ^ k)]
    rfl
  have denPos (k : Int) := scale_den_pos (show 0 < 2 by decide) (-k) num hd
  rw [ofFraction_eq]
  rcases cases with same | ⟨power52, above, next, less⟩
  · have round : roundQuotient (scale 2 (-e) num den).1 (scale 2 (-e) num den).2 = m := by
      have low := h.low
      have high := h.high
      have odd := h.odd
      rw [highMiddle] at high odd
      refine roundQuotient_of_near (denPos e) ?_ ?_ fun hm => ⟨?_, ?_⟩
      · rw [scaled, le_div_iff₀ pos]
        linarith
      · rw [scaled, div_le_iff₀ pos]
        exact high
      · rw [scaled, lt_div_iff₀ pos]
        linarith [(odd hm).1]
      · rw [scaled, div_lt_iff₀ pos]
        exact (odd hm).2
    have whole : (m == Nat.pow 2 53) = false := beq_false_of_ne (Nat.ne_of_lt small)
    simp only [same, round, whole, Bool.false_eq_true, if_false]
    exact if_neg (Int.not_lt.mpr most)
  · have round : roundQuotient (scale 2 (-(e - 1)) num den).1 (scale 2 (-(e - 1)) num den).2 =
        Nat.pow 2 53 := by
      have low := h.low
      rw [lowMiddle, if_pos ⟨power52, above⟩] at low
      have half : (2 : ℚ) ^ e = 2 * 2 ^ (e - 1) := by
        rw [← zpow_one_add₀ two]
        congr 1
        omega
      have pos' : (0 : ℚ) < 2 ^ (e - 1) := by positivity
      have value : (m : ℚ) = 2 ^ 52 := by rw [power52]; norm_num
      have value' : ((Nat.pow 2 53 : Nat) : ℚ) = 2 ^ 53 := by norm_num
      rw [half, value] at low less
      refine roundQuotient_of_near (denPos _) ?_ ?_ fun hm => absurd hm (by decide)
      · rw [scaled, le_div_iff₀ pos', value']
        nlinarith
      · rw [scaled, div_le_iff₀ pos', value']
        nlinarith
    simp only [next, round, beq_self_eq_true, if_true, Int.sub_add_cancel, power52]
    exact if_neg (Int.not_lt.mpr most)

end

theorem length_toDigits_bounds (hn : 0 < n) :
    (10 : ℚ) ^ ((Nat.toDigits 10 n).length - 1 : Int) ≤ n ∧
      (n : ℚ) < 10 ^ ((Nat.toDigits 10 n).length : Int) := by
  have pos : 0 < (Nat.toDigits 10 n).length := List.length_pos_iff.mpr Nat.toDigits_ne_nil
  generalize hl : (Nat.toDigits 10 n).length = l at pos ⊢
  obtain ⟨k, rfl⟩ : ∃ k, l = k + 1 := ⟨l - 1, by omega⟩
  have high : n < Nat.pow 10 (k + 1) :=
    (Nat.length_toDigits_le_iff (by decide) (Nat.succ_pos k)).mp (Nat.le_of_eq hl)
  have low : Nat.pow 10 k ≤ n := by
    rcases Nat.eq_zero_or_pos k with rfl | hk
    · exact hn
    · refine Nat.le_of_not_lt fun less => ?_
      have := (Nat.length_toDigits_le_iff (b := 10) (by decide) hk).mpr less
      omega
  refine ⟨?_, ?_⟩
  · rw [Nat.cast_succ, Int.add_sub_cancel, zpow_natCast]
    exact_mod_cast low
  · rw [zpow_natCast]
    exact_mod_cast high

section

variable {m : Nat} {e : Int} {negative : Bool} (hm : 0 < m)
  (double : isDouble (finite negative m e) = true)

include hm double

theorem RoundsTo.range {x : ℚ} (h : RoundsTo m e x) :
    (10 : ℚ) ^ (-401 : Int) < x ∧ x < 10 ^ (400 : Int) := by
  simp only [isDouble, Bool.and_eq_true, decide_eq_true_eq] at double
  obtain ⟨⟨⟨small, least⟩, most⟩, -⟩ := double
  have two : (2 : ℚ) ≠ 0 := by norm_num
  have hm' : (1 : ℚ) ≤ m := by exact_mod_cast hm
  have small' : (m : ℚ) + 1 ≤ 2 ^ (53 : Int) := by exact_mod_cast small
  -- Three binary places are less than a decimal one.
  have eight (k : Nat) : (2 : ℚ) ^ (3 * k : Int) ≤ 10 ^ (k : Int) := by
    rw [zpow_mul, zpow_natCast, zpow_natCast]
    gcongr
    norm_num
  constructor
  · calc (10 : ℚ) ^ (-401 : Int) ≤ 2 ^ (-1203 : Int) := by
          rw [zpow_neg, zpow_neg]
          exact inv_anti₀ (by positivity) (eight 401)
      _ < 2 ^ (-1 + minExponent) := zpow_lt_zpow_right₀ (by norm_num) (by decide)
      _ = 1 / 2 * 2 ^ minExponent := by rw [zpow_add₀ two, zpow_neg_one, one_div]
      _ ≤ (m - 1 / 2) * 2 ^ e := by
          have : (1 : ℚ) / 2 ≤ m - 1 / 2 := by linarith
          gcongr
          norm_num
      _ ≤ x := (lowMiddle_ge m e).trans h.low
  · calc x ≤ (m + 1 / 2) * 2 ^ e := h.high
      _ ≤ 2 ^ (53 : Int) * 2 ^ maxExponent := by
          have : (m : ℚ) + 1 / 2 ≤ 2 ^ (53 : Int) := by linarith
          gcongr
          norm_num
      _ = 2 ^ (53 + maxExponent) := (zpow_add₀ two _ _).symm
      _ < 2 ^ (1200 : Int) := zpow_lt_zpow_right₀ (by norm_num) (by decide)
      _ ≤ 10 ^ (400 : Int) := eight 400

theorem ofDecimal_of_roundsTo {place : Int} (h : RoundsTo m e (n * 10 ^ place)) :
    ofDecimal negative n place = finite negative m e := by
  obtain ⟨low, high⟩ := h.range hm double
  have ten : (10 : ℚ) ≠ 0 := by norm_num
  have pos : (0 : ℚ) < 10 ^ place := by positivity
  have hn : 0 < n := by
    have : (0 : ℚ) < 10 ^ (-401 : Int) := by positivity
    have : (0 : ℚ) < n := pos_of_mul_pos_left (this.trans low) pos.le
    exact_mod_cast this
  obtain ⟨least, most⟩ := length_toDigits_bounds hn
  have notSmall : ¬ ((Nat.toDigits 10 n).length : Int) + place < -400 := by
    intro less
    have : (n : ℚ) * 10 ^ place ≤ 10 ^ (-401 : Int) := by
      calc (n : ℚ) * 10 ^ place ≤ 10 ^ ((Nat.toDigits 10 n).length : Int) * 10 ^ place := by gcongr
        _ = 10 ^ ((Nat.toDigits 10 n).length + place : Int) := (zpow_add₀ ten _ _).symm
        _ ≤ 10 ^ (-401 : Int) := zpow_le_zpow_right₀ (by norm_num) (by omega)
    exact absurd low (not_lt.mpr this)
  have notLarge : ¬ ((Nat.toDigits 10 n).length : Int) + place > 400 := by
    intro more
    have : (10 : ℚ) ^ (400 : Int) ≤ n * 10 ^ place := by
      calc (10 : ℚ) ^ (400 : Int) ≤ 10 ^ ((Nat.toDigits 10 n).length - 1 + place : Int) :=
            zpow_le_zpow_right₀ (by norm_num) (by omega)
        _ = 10 ^ ((Nat.toDigits 10 n).length - 1 : Int) * 10 ^ place := zpow_add₀ ten _ _
        _ ≤ n * 10 ^ place := by gcongr
    exact absurd high (not_lt.mpr this)
  have value := scale_value (show 0 < 10 by decide) place n 1
  rw [Nat.cast_one, div_one] at value
  unfold ofDecimal
  rw [if_neg (by simp [Nat.ne_of_gt hn, notSmall]), if_neg notLarge]
  have denPos := scale_den_pos (show 0 < 10 by decide) place n Nat.one_pos
  change ofFraction negative (scale 10 place n 1).1 (scale 10 place n 1).2 = _
  refine ofFraction_of_roundsTo ?_ denPos double ?_
  · have : (0 : ℚ) < (scale 10 place n 1).1 / (scale 10 place n 1).2 := by
      rw [value]
      positivity
    have denPos' : (0 : ℚ) < (scale 10 place n 1).2 := by exact_mod_cast denPos
    have := (div_pos_iff_of_pos_right denPos').mp this
    exact_mod_cast this
  · rw [value]
    exact h

end

/-! The shortest decimal. -/

def Fraction.value (f : Fraction) : ℚ := f.num / f.den

theorem value_decimalFraction (n : Nat) (place : Int) :
    (decimalFraction n place).value = n * 10 ^ place := by
  have value := scale_value (show 0 < 10 by decide) place n 1
  rwa [Nat.cast_one, div_one] at value

theorem value_binaryFraction (n : Nat) (e : Int) : (binaryFraction n e).value = n * 2 ^ e := by
  have value := scale_value (show 0 < 2 by decide) e n 1
  rwa [Nat.cast_one, div_one] at value

theorem Fraction.le_iff {g : Fraction} (hf : 0 < f.den) (hg : 0 < g.den) :
    f.le g = true ↔ f.value ≤ g.value := by
  have hf' : (0 : ℚ) < f.den := by exact_mod_cast hf
  have hg' : (0 : ℚ) < g.den := by exact_mod_cast hg
  rw [Fraction.le, decide_eq_true_eq, value, value, div_le_div_iff₀ hf' hg']
  exact_mod_cast Iff.rfl

theorem Fraction.lt_iff {g : Fraction} (hf : 0 < f.den) (hg : 0 < g.den) :
    f.lt g = true ↔ f.value < g.value := by
  have hf' : (0 : ℚ) < f.den := by exact_mod_cast hf
  have hg' : (0 : ℚ) < g.den := by exact_mod_cast hg
  rw [Fraction.lt, decide_eq_true_eq, value, value, div_lt_div_iff₀ hf' hg']
  exact_mod_cast Iff.rfl

theorem readsBack_iff {m : Nat} {e : Int} (hm : 0 < m) (hf : 0 < f.den) :
    readsBack m e f = true ↔ RoundsTo m e f.value := by
  have two : (2 : ℚ) ≠ 0 := by norm_num
  have pos (n : Nat) (k : Int) : 0 < (binaryFraction n k).den :=
    scale_den_pos (by decide) k n Nat.one_pos
  have high : (binaryFraction (2 * m + 1) (e - 1)).value = highMiddle m e := by
    rw [value_binaryFraction, highMiddle, zpow_sub_one₀ two]
    push_cast
    ring
  obtain ⟨low, lowPos, lowValue, same⟩ : ∃ low : Fraction, 0 < low.den ∧ low.value = lowMiddle m e ∧
      readsBack m e f = if m % 2 == 0 then low.le f && f.le (binaryFraction (2 * m + 1) (e - 1))
        else low.lt f && f.lt (binaryFraction (2 * m + 1) (e - 1)) := by
    by_cases power : m = Nat.pow 2 52 ∧ minExponent < e
    · have atPower : (m == Nat.pow 2 52 && decide (e > minExponent)) = true := by simp [power]
      refine ⟨binaryFraction (4 * m - 1) (e - 2), pos _ _, ?_, ?_⟩
      · rw [value_binaryFraction, lowMiddle, if_pos power, Nat.cast_sub (by omega), zpow_sub₀ two]
        push_cast
        ring
      · simp only [readsBack, atPower, if_true]
    · have atPower : (m == Nat.pow 2 52 && decide (e > minExponent)) = false := by
        rwa [Bool.eq_false_iff, ne_eq, Bool.and_eq_true, beq_iff_eq, decide_eq_true_eq]
      refine ⟨binaryFraction (2 * m - 1) (e - 1), pos _ _, ?_, ?_⟩
      · rw [value_binaryFraction, lowMiddle, if_neg power, Nat.cast_sub (by omega), zpow_sub_one₀ two]
        push_cast
        ring
      · simp only [readsBack, atPower, Bool.false_eq_true, if_false]
  rw [same]
  by_cases even : m % 2 = 0
  · rw [if_pos (by simp [even]), Bool.and_eq_true, Fraction.le_iff lowPos hf,
      Fraction.le_iff hf (pos _ _),
      lowValue, high]
    exact ⟨fun h => ⟨h.1, h.2, fun odd => by omega⟩, fun h => ⟨h.low, h.high⟩⟩
  · rw [if_neg (by simp [even]), Bool.and_eq_true, Fraction.lt_iff lowPos hf,
      Fraction.lt_iff hf (pos _ _),
      lowValue, high]
    exact ⟨fun h => ⟨h.1.le, h.2.le, fun _ => h⟩, fun h => h.odd (by omega)⟩

theorem leadingExponent_le (hn : 0 < f.num) (hd : 0 < f.den) :
    (10 : ℚ) ^ leadingExponent f ≤ f.value := by
  have hn' : (0 : ℚ) < f.num := by exact_mod_cast hn
  have hd' : (0 : ℚ) < f.den := by exact_mod_cast hd
  rw [Fraction.value, le_div_iff₀ hd']
  unfold leadingExponent
  split
  · rename_i whole
    have low := (length_toDigits_bounds (Nat.div_pos whole hd)).1
    calc (10 : ℚ) ^ (((Nat.toDigits 10 (f.num / f.den)).length : Int) - 1) * f.den
        ≤ ((f.num / f.den : Nat) : ℚ) * f.den := by gcongr
      _ ≤ f.num := by exact_mod_cast Nat.div_mul_le_self f.num f.den
  · rename_i part
    have quotient := Nat.div_pos (Nat.le_of_lt (Nat.lt_of_not_le part)) hn
    have size : 0 < (Nat.toDigits 10 (f.den / f.num)).length :=
      List.length_pos_iff.mpr Nat.toDigits_ne_nil
    -- A power of ten by which the numerator reaches the denominator bounds the fraction from below.
    have reach {k : Nat} (h : f.den ≤ f.num * Nat.pow 10 k) :
        (10 : ℚ) ^ (-(k : Int)) * f.den ≤ f.num := by
      rw [zpow_neg, inv_mul_le_iff₀ (by positivity), zpow_natCast, mul_comm]
      exact_mod_cast h
    simp only
    split
    · rename_i reached
      have := reach reached
      rwa [Nat.cast_pred size] at this
    · have high : f.den / f.num < Nat.pow 10 (Nat.toDigits 10 (f.den / f.num)).length :=
        (Nat.length_toDigits_le_iff (by decide) size).mp (Nat.le_refl _)
      refine reach ?_
      rw [Nat.mul_comm]
      exact Nat.le_of_lt ((Nat.div_lt_iff_lt_mul hn).mp high)

theorem roundQuotient_near (n : Nat) {d : Nat} (hd : 0 < d) :
    2 * roundQuotient n d * d ≤ 2 * n + d ∧ 2 * n ≤ 2 * roundQuotient n d * d + d := by
  have split := Nat.div_add_mod n d
  have rest := Nat.mod_lt n hd
  unfold roundQuotient
  generalize n / d = q at *
  generalize n % d = r at *
  subst split
  simp only [Bool.or_eq_true, Bool.and_eq_true, decide_eq_true_eq, beq_iff_eq]
  split
  · rename_i up
    have large : d ≤ 2 * r := by omega
    constructor <;> nlinarith
  · rename_i down
    have small : 2 * r ≤ d := by omega
    constructor <;> nlinarith

theorem roundsTo_of_near {m : Nat} {e : Int} {negative : Bool} {x unit : ℚ}
    (double : isDouble (finite negative m e) = true) (hu : unit * 10 ^ 16 ≤ m * 2 ^ e)
    (low : 2 * (m * 2 ^ e) ≤ 2 * x + unit) (high : 2 * x ≤ 2 * (m * 2 ^ e) + unit) :
    RoundsTo m e x := by
  simp only [isDouble, Bool.and_eq_true, decide_eq_true_eq] at double
  have small : (m : ℚ) < 2 ^ 53 := by exact_mod_cast double.1.1.1
  have pos : (0 : ℚ) < 2 ^ e := by positivity
  have below : lowMiddle m e < x := by
    unfold lowMiddle
    split
    · rename_i power
      have value : (m : ℚ) = 2 ^ 52 := by rw [power.1]; norm_num
      rw [value] at hu low ⊢
      nlinarith
    · nlinarith
  have above : x < highMiddle m e := by
    unfold highMiddle
    nlinarith
  exact ⟨below.le, above.le, fun _ => ⟨below, above⟩⟩

theorem nearestOnGrid?_isSome {m : Nat} {e place : Int} {negative : Bool} (hm : 0 < m)
    (double : isDouble (finite negative m e) = true) (hp : (10 : ℚ) ^ place * 10 ^ 16 ≤ m * 2 ^ e) :
    (nearestOnGrid? m e place).isSome := by
  have pos : (0 : ℚ) < 10 ^ place := by positivity
  let f := binaryFraction m e
  let g := scale 10 (-place) f.num f.den
  have denPos : 0 < g.2 := scale_den_pos (by decide) _ _ (scale_den_pos (by decide) e m Nat.one_pos)
  have denPos' : (0 : ℚ) < g.2 := by exact_mod_cast denPos
  have value : (g.1 : ℚ) / g.2 = m * 2 ^ e / 10 ^ place := by
    have scaled := scale_value (show 0 < 10 by decide) (-place) f.num f.den
    rw [zpow_neg] at scaled
    rw [scaled, div_eq_mul_inv (m * 2 ^ e : ℚ), ← value_binaryFraction]
    rfl
  have number : (g.1 : ℚ) * 10 ^ place = m * 2 ^ e * g.2 := by
    rwa [div_eq_div_iff denPos'.ne' pos.ne'] at value
  obtain ⟨low, high⟩ := roundQuotient_near g.1 denPos
  have low' : (2 * roundQuotient g.1 g.2 * g.2 : ℚ) ≤ 2 * g.1 + g.2 := by exact_mod_cast low
  have high' : (2 * g.1 : ℚ) ≤ 2 * roundQuotient g.1 g.2 * g.2 + g.2 := by exact_mod_cast high
  have rounds : RoundsTo m e (roundQuotient g.1 g.2 * 10 ^ place) := by
    refine roundsTo_of_near double hp ?_ ?_
    · refine le_of_mul_le_mul_right ?_ denPos'
      nlinarith
    · refine le_of_mul_le_mul_right ?_ denPos'
      nlinarith
  unfold nearestOnGrid?
  rw [List.find?_isSome]
  refine ⟨roundQuotient g.1 g.2, List.mem_cons_self, ?_⟩
  rw [Bool.and_eq_true, decide_eq_true_eq, readsBack_iff hm (scale_den_pos (by decide) _ _ Nat.one_pos),
    value_decimalFraction]
  refine ⟨?_, rounds⟩
  refine Nat.pos_of_ne_zero fun zero => ?_
  have bound := (rounds.range hm double).1
  rw [zero, Nat.cast_zero, zero_mul] at bound
  exact absurd bound (not_lt.mpr (by positivity))

theorem shortest_roundsTo {m : Nat} {e : Int} {negative : Bool} (hm : 0 < m)
    (double : isDouble (finite negative m e) = true) :
    0 < (shortest m e).1 ∧ RoundsTo m e ((shortest m e).1 * 10 ^ (shortest m e).2) := by
  have denPos : 0 < (binaryFraction m e).den := scale_den_pos (by decide) e m Nat.one_pos
  have value := value_binaryFraction m e
  have numPos : 0 < (binaryFraction m e).num := by
    refine Nat.pos_of_ne_zero fun zero => ?_
    rw [Fraction.value, zero, Nat.cast_zero, zero_div] at value
    have : (0 : ℚ) < m * 2 ^ e := by positivity
    exact this.ne value
  have top := leadingExponent_le numPos denPos
  rw [value] at top
  let search (k : Nat) : Option (Nat × Int) :=
    (nearestOnGrid? m e (leadingExponent (binaryFraction m e) + 1 - (k : Int))).map
      (·, leadingExponent (binaryFraction m e) + 1 - (k : Int))
  have found : ((List.range 18).findSome? search).isSome := by
    rw [List.findSome?_isSome_iff]
    refine ⟨17, by decide, ?_⟩
    rw [Option.isSome_map]
    refine nearestOnGrid?_isSome hm double ?_
    have exponent : leadingExponent (binaryFraction m e) + 1 - ((17 : Nat) : Int) + (16 : Nat) =
        leadingExponent (binaryFraction m e) := by omega
    rwa [← zpow_natCast, ← zpow_add₀ (by norm_num), exponent]
  obtain ⟨r, hr⟩ := Option.isSome_iff_exists.mp found
  have same : shortest m e = r := by
    change ((List.range 18).findSome? search).getD (0, 0) = r
    rw [hr, Option.getD_some]
  obtain ⟨k, -, hk⟩ := List.exists_of_findSome?_eq_some hr
  obtain ⟨n, hn, rfl⟩ := Option.map_eq_some_iff.mp hk
  have fits := List.find?_some hn
  rw [Bool.and_eq_true, decide_eq_true_eq, readsBack_iff hm (scale_den_pos (by decide) _ _ Nat.one_pos),
    value_decimalFraction] at fits
  rw [same]
  exact fits

end TypeStubs.Binary
