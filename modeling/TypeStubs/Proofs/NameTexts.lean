import TypeStubs.Proofs.Nestings

/-! Dotted names at the front of texts. -/

namespace TypeStubs

open List

theorem takeWhile_append_stop {α : Type} {p : α → Bool} {c : α} (hc : p c = false)
    (xs rest : List α) : (xs ++ c :: rest).takeWhile p = xs.takeWhile p := by
  induction xs with
  | nil => simp [hc]
  | cons x xs ih => simp only [cons_append, takeWhile_cons, ih]

theorem namePart_isPrefix (cs : List Char) : namePart cs <+: cs := by
  match cs with
  | [] => exact prefix_rfl
  | c :: cs =>
    rw [namePart]
    split
    · exact prefix_cons_inj c |>.mpr (List.takeWhile_prefix _)
    · exact nil_prefix

theorem toNat_lt_of_isAlpha {c : Char} (h : c.isAlpha = true) : c.toNat < 128 := by
  rcases Bool.or_eq_true_iff.mp h with upper | lower
  · have last : c.val ≤ 'Z'.val := (of_decide_eq_true upper).2
    exact Nat.lt_of_le_of_lt (UInt32.le_iff_toNat_le.mp last) (by decide)
  · have last : c.val ≤ 'z'.val := of_decide_eq_true (Bool.and_eq_true_iff.mp lower).2
    exact Nat.lt_of_le_of_lt (UInt32.le_iff_toNat_le.mp last) (by decide)

theorem isWord_of_isNameStart {c : Char} (h : isNameStart c = true) : isWord c = true := by
  rcases Bool.or_eq_true_iff.mp h with underscore | letter
  · rw [beq_iff_eq.mp underscore]
    decide
  · simp [isWord, toNat_lt_of_isAlpha letter, Char.isAlphanum, letter]

theorem dropWhile_append_stop {α : Type} {p : α → Bool} {c : α} (hc : p c = false)
    (xs rest : List α) : (xs ++ c :: rest).dropWhile p = xs.dropWhile p ++ c :: rest := by
  induction xs with
  | nil => simp [hc]
  | cons x xs ih =>
    simp only [cons_append, dropWhile_cons, ih]
    split <;> rfl

theorem dottedPart_isPrefix (cs : List Char) : dottedPart cs <+: cs := by
  rw [dottedPart]
  match h : cs.dropWhile isBlank with
  | [] => exact nil_prefix
  | c :: xs =>
    by_cases hc : c = '.'
    · subst hc
      simp only
      split
      · exact nil_prefix
      · have shape : cs = cs.takeWhile isBlank ++ '.' :: (xs.takeWhile isBlank ++
            xs.dropWhile isBlank) := by
          rw [takeWhile_append_dropWhile, ← h, takeWhile_append_dropWhile]
        conv => rhs; rw [shape]
        rw [append_assoc, prefix_append_right_inj, cons_append, prefix_cons_inj,
          prefix_append_right_inj]
        exact namePart_isPrefix _
    · simp [hc]

theorem dottedLength_eq (cs : List Char) : dottedLength cs =
    if dottedPart cs = [] then 0
    else (dottedPart cs).length + dottedLength (cs.drop (dottedPart cs).length) := by
  have short := (dottedPart_isPrefix cs).length_le
  rw [dottedLength]
  split
  · rename_i h
    rw [if_pos (length_eq_zero_iff.mp h)]
  · rename_i n h
    rw [if_neg (by omega), if_neg (fun empty => by simp [empty] at h), h]

theorem dottedLength_le (cs : List Char) : dottedLength cs ≤ cs.length := by
  induction hn : cs.length using Nat.strongRecOn generalizing cs with
  | ind n ih =>
    rw [dottedLength_eq]
    split
    · omega
    · rename_i found
      have short := (dottedPart_isPrefix cs).length_le
      have pos := length_pos_iff.mpr found
      have rest := ih (cs.drop (dottedPart cs).length).length (by simp; omega) _ rfl
      rw [length_drop] at rest
      omega

/-- A character that can stand in no name and around no dot. -/
structure EndsName (c : Char) : Prop where
  noWord : isWord c = false
  noBlank : isBlank c = false
  noDot : c ≠ '.'

instance (c : Char) : Decidable (EndsName c) :=
  decidable_of_iff (isWord c = false ∧ isBlank c = false ∧ c ≠ '.')
    ⟨fun ⟨word, blank, dot⟩ => ⟨word, blank, dot⟩, fun h => ⟨h.noWord, h.noBlank, h.noDot⟩⟩

section

variable {stop : Char} (hstop : EndsName stop) (cs rest : List Char)
include hstop

theorem namePart_append_stop : namePart (cs ++ stop :: rest) = namePart cs := by
  cases cs with
  | nil =>
    have start : isNameStart stop = false := Bool.eq_false_iff.mpr fun start =>
      Bool.false_ne_true (hstop.noWord.symm.trans (isWord_of_isNameStart start))
    simp [namePart, start]
  | cons c cs => simp only [cons_append, namePart, takeWhile_append_stop hstop.noWord]

theorem dottedPart_append_stop : dottedPart (cs ++ stop :: rest) = dottedPart cs := by
  have noBlank := hstop.noBlank
  have noDot := hstop.noDot
  rw [dottedPart, dottedPart, dropWhile_append_stop noBlank, takeWhile_append_stop noBlank]
  match cs.dropWhile isBlank with
  | [] => simp [noDot]
  | c :: xs =>
    by_cases hc : c = '.'
    · subst hc
      simp only [cons_append, dropWhile_append_stop noBlank, takeWhile_append_stop noBlank,
        namePart_append_stop hstop]
    · simp [hc]

theorem dottedLength_append_stop : dottedLength (cs ++ stop :: rest) = dottedLength cs := by
  induction hn : cs.length using Nat.strongRecOn generalizing cs with
  | ind n ih =>
    rw [dottedLength_eq, dottedLength_eq cs, dottedPart_append_stop hstop]
    split
    · rfl
    · rename_i found
      have short := (dottedPart_isPrefix cs).length_le
      have pos := length_pos_iff.mpr found
      rw [drop_append_of_le_length short, ih _ _ _ rfl]
      rw [length_drop]
      omega

theorem cutName_append_stop :
    cutName (cs ++ stop :: rest) = ((cutName cs).1, (cutName cs).2 ++ stop :: rest) := by
  have short := (namePart_isPrefix cs).length_le
  have short' := dottedLength_le (cs.drop (namePart cs).length)
  rw [length_drop] at short'
  simp only [cutName, namePart_append_stop hstop, drop_append_of_le_length short,
    dottedLength_append_stop hstop]
  rw [take_append_of_le_length (by omega), drop_append_of_le_length (by omega)]

end

theorem TypeSyntax.ofText_bracketed {name : List Char} (hname : cutName name = (name, []))
    (hblank : ∀ c ∈ name.head?, isBlank c = false) {t : List Char} {ts : List (List Char)}
    (h : ∀ x ∈ t :: ts, Closed [','] x) :
    TypeSyntax.ofText (name ++ '[' :: (intercalate ", ".toList (t :: ts) ++ [']'])) =
      .named (nameOfText name) (some ((t :: ts).map HintSyntax.ofText)) := by
  obtain ⟨ps, hps, same⟩ := pieces?_commas h
  generalize intercalate ", ".toList (t :: ts) = inside at hps ⊢
  have ends (front : List Char) : ∀ c ∈ (front ++ '[' :: (inside ++ [']'])).getLast?,
      isBlank c = false := by
    intro c hc
    rw [← cons_append, ← append_assoc, getLast?_concat] at hc
    cases hc
    decide
  have whole : trim (name ++ '[' :: (inside ++ [']'])) = name ++ '[' :: (inside ++ [']']) := by
    refine trim_eq_self (fun c hc => ?_) (ends name)
    cases name with
    | nil =>
      cases hc
      decide
    | cons d name => exact hblank c hc
  have rest : trim ('[' :: (inside ++ [']'])) = '[' :: (inside ++ [']']) := by
    refine trim_eq_self (fun c hc => ?_) (ends [])
    cases hc
    decide
  have brackets : bracketed? ('[' :: (inside ++ [']'])) = some inside := by
    simp [bracketed?]
  rw [TypeSyntax.ofText_eq, whole, cutName_append_stop (by decide), hname, nil_append, rest]
  simp only [brackets, Option.bind_some, hps, same]

end TypeStubs
