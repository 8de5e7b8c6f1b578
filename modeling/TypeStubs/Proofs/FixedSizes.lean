import TypeStubs.Proofs.Addresses
import TypeStubs.Proofs.ClosedPieces
import TypeStubs.Proofs.Refining

/-! Fixed sizes of arrays as they are written in hints. -/

namespace TypeStubs

open List Option

variable {cs : List Char} {texts : List (List Char)} {dims : List Dimension}

/-! The integers that can be read. -/

theorem decimalValue?_lt {c : Char} {d : Nat} (h : decimalValue? c = some d) : d < 10 := by
  unfold decimalValue? at h
  split at h
  · split at h
    · rename_i digit
      have bounds : 48 ≤ c.toNat ∧ c.toNat ≤ 57 := by
        simpa [Char.isDigit, UInt32.le_iff_toNat_le] using digit
      cases h
      omega
    · cases h
  · obtain ⟨z, hz, rfl⟩ := map_eq_some_iff.mp h
    have near := find?_some hz
    simp only [Bool.and_eq_true, decide_eq_true_eq] at near
    omega

theorem countP_digit {c : Char} {d : Nat} (h : decimalValue? c = some d) (cs : List Char) :
    (c :: cs).countP (· != '_') = cs.countP (· != '_') + 1 := by
  have digit : (c != '_') = true := by
    rw [bne_iff_ne]
    rintro rfl
    cases h
  simp [digit]

theorem next_digit_le {d : Nat} (hd : d < 10) (read k : Nat) :
    (read * 10 + d + 1) * Nat.pow 10 k ≤ (read + 1) * Nat.pow 10 (k + 1) := by
  calc (read * 10 + d + 1) * Nat.pow 10 k ≤ ((read + 1) * 10) * Nat.pow 10 k :=
        Nat.mul_le_mul_right _ (by omega)
    _ = (read + 1) * Nat.pow 10 (k + 1) := by
        rw [Nat.mul_assoc, Nat.mul_comm 10]
        rfl

theorem digitsValue?_lt {read : Nat} {n : Nat} (h : digitsValue? read cs = some n) :
    n < (read + 1) * Nat.pow 10 (cs.countP (· != '_')) := by
  fun_induction digitsValue? read cs with
  | case1 read =>
    cases h
    simp
  | case2 read c cs d hd ih =>
    rw [countP_cons_of_neg (by decide), countP_digit hd]
    exact Nat.lt_of_lt_of_le (ih h) (next_digit_le (decimalValue?_lt hd) _ _)
  | case3 => cases h
  | case4 read c cs hc d hd ih =>
    rw [countP_digit hd]
    exact Nat.lt_of_lt_of_le (ih h) (next_digit_le (decimalValue?_lt hd) _ _)
  | case5 => cases h

theorem readNatural?_lt {n : Nat} (h : readNatural? cs = some n) :
    n < Nat.pow 10 maxDigits := by
  unfold readNatural? at h
  split at h
  · cases h
  · rename_i c cs
    split at h
    · rename_i d hd
      split at h
      · cases h
      · rename_i short
        rw [countP_digit hd] at short
        have shorter {j k : Nat} (h : j ≤ k) : Nat.pow 10 j ≤ Nat.pow 10 k :=
          Nat.pow_le_pow_right (by decide) h
        have first := next_digit_le (decimalValue?_lt hd) 0 (cs.countP (· != '_'))
        rw [Nat.zero_mul, Nat.zero_add, Nat.zero_add, Nat.one_mul] at first
        exact Nat.lt_of_lt_of_le (digitsValue?_lt h) (Nat.le_trans first (shorter (by omega)))
    · cases h

theorem readInteger?_lt {n : Int} (h : readInteger? cs = some n) :
    n.natAbs < Nat.pow 10 maxDigits := by
  unfold readInteger? at h
  split at h
  all_goals
    simp only [bind_eq_bind, map_eq_some_iff, bind_eq_some_iff] at h
    obtain ⟨m, ⟨k, hk, hm⟩, rfl⟩ := h
    cases hm
    simpa using readNatural?_lt hk

theorem integers?_numbers
    (h : integers? texts = some dims) : ∃ ns : List Int, dims = ns.map .number ∧
      ns.length = texts.length ∧ ∀ n ∈ ns, n.natAbs < Nat.pow 10 maxDigits := by
  induction texts generalizing dims with
  | nil =>
    cases h
    exact ⟨[], rfl, rfl, nofun⟩
  | cons text texts ih =>
    unfold integers? at h
    split at h
    · rename_i n hn
      obtain ⟨rest, hrest, rfl⟩ := map_eq_some_iff.mp h
      obtain ⟨ns, rfl, length, small⟩ := ih hrest
      exact ⟨n :: ns, rfl, congrArg Nat.succ length,
        forall_mem_cons.mpr ⟨readInteger?_lt hn, small⟩⟩
    · cases h

/-! The text of a fixed size. -/

open Source in
theorem toList_text_fixed (ns : List Int) : (ArraySize.fixed (ns.map .number)).text.toList =
    sizeText (ns.map fun n => (toString n).toList) := by
  have texts : (ArraySize.fixed (ns.map .number)).dimensionTexts = ns.map fun n => toString n := by
    simp [ArraySize.dimensionTexts]
  have front : ArraySize.moduleName ++ "." ++ "FixedSize" ++ "(" = String.ofList sizeFront := by
    decide +kernel
  rw [ArraySize.text, ArraySize.className, front, texts]
  simp [sizeText, String.toList_intercalate, Function.comp_def]

namespace Source

def sizeName : List Char := "pybind11_stubgen.typing_ext.FixedSize".toList

theorem isNameText_sizeName : IsNameText sizeName := by decide +kernel

theorem sizeText_eq (dims : List (List Char)) :
    sizeText dims = sizeName ++ '(' :: (intercalate ", ".toList dims ++ [')']) := by
  have front : sizeFront = sizeName ++ ['('] := by decide +kernel
  rw [sizeText, front, append_assoc]
  rfl

theorem ofText_sizeText (dims : List (List Char)) :
    TypeSyntax.ofText (sizeText dims) = .value (sizeText dims) := by
  have first : (sizeText dims).head? = some 'p' := rfl
  have cut : cutName (sizeText dims) =
      (sizeName, '(' :: (intercalate ", ".toList dims ++ [')'])) := by
    rw [sizeText_eq, cutName_append_stop (by decide), isNameText_sizeName.cutName]
    rfl
  have shape := sizeText_eq dims
  generalize sizeText dims = text at *
  generalize intercalate ", ".toList dims = args at *
  have ends (front : List Char) : ∀ c ∈ (front ++ '(' :: (args ++ [')'])).getLast?,
      isBlank c = false := by
    intro c hc
    rw [← cons_append, ← append_assoc, getLast?_concat] at hc
    cases hc
    rfl
  have whole : trim text = text := by
    refine trim_eq_self (fun c hc => ?_) (by rw [shape]; exact ends sizeName)
    rw [first] at hc
    cases hc
    rfl
  have rest : trim ('(' :: (args ++ [')'])) = '(' :: (args ++ [')']) := by
    refine trim_eq_self (fun c hc => ?_) (ends [])
    cases hc
    rfl
  rw [TypeSyntax.ofText_eq, whole, cut, rest]
  rfl

theorem closed_sizeText {dims : List (List Char)} (h : ∀ d ∈ dims, ∃ ts, IsInteger d ts)
    {avoided : List Char} (hav : avoided ⊆ [',', ']', '|']) : Closed avoided (sizeText dims) := by
  have inner : Closed [')'] (intercalate ", ".toList dims) := by
    refine .of_plain fun c hc => ?_
    have plain : ∀ c ∈ ", -0123456789".toList, isQuote c = false ∧ closer? c = none ∧ c ∉ [')'] :=
      forall_of_all (by decide)
    rcases mem_intercalate hc with hc | ⟨d, hd, hc⟩
    · have separator : ∀ c ∈ ", ".toList, c ∈ ", -0123456789".toList := forall_of_all (by decide)
      exact plain c (separator c hc)
    · obtain ⟨ts, integer⟩ := h d hd
      exact plain c (.tail _ (.tail _ (integer.mem c hc)))
  rw [sizeText_eq]
  exact (isNameText_sizeName.closed hav).append (Closed.enclosed rfl rfl rfl rfl inner avoided)

theorem fixedSizeText?_sizeText (dims : List (List Char)) :
    Inspection.fixedSizeText? (String.ofList (sizeText dims)) = none := by
  have front : hasFront "FixedSize(" (String.ofList (sizeText dims)) = false := by
    have chars : (String.ofList (sizeText dims)).toList = sizeText dims := String.toList_ofList
    rw [hasFront, chars]
    rfl
  simp [Inspection.fixedSizeText?, front]

end Source

open Source in
theorem fixedSize_text (hne : texts ≠ [])
    (h : integers? texts = some dims) : ∃ ds : List (List Char),
      (Value.mk (ArraySize.fixed dims).text false).withoutAddresses.text.toList = sizeText ds ∧
      (∀ d ∈ ds, ∃ ts, IsInteger d ts) ∧ isModule (sizeText ds) = true := by
  obtain ⟨ns, rfl, length, small⟩ := integers?_numbers h
  have limit : maxDigits = maxIntegerDigits := rfl
  rw [limit] at small
  have integers : ∀ d ∈ ns.map fun n => (toString n).toList, ∃ ts, IsInteger d ts := by
    intro d hd
    obtain ⟨n, hn, rfl⟩ := mem_map.mp hd
    exact isInteger_toString (small n hn)
  have some : ns ≠ [] := fun none => hne (length_eq_zero_iff.mp (by rw [← length, none]; rfl))
  refine ⟨ns.map fun n => (toString n).toList, ?_, integers, isModule_sizeText some small⟩
  have plain : '<' ∉ sizeText (ns.map fun n => (toString n).toList) := fun hin =>
    absurd (mem_sizeText integers _ hin) (by decide)
  rw [Value.withoutAddresses, withoutAddresses, String.toList_ofList, toList_text_fixed,
    (stays_of_not_mem plain).eq_self]

end TypeStubs
