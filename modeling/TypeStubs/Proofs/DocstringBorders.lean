import TypeStubs.Proofs.ClosedPieces
import TypeStubs.Signature.Docstring

/-! Blank lines around a docstring are left out if some line after the first is not blank. -/

namespace TypeStubs

open List

variable {l line : String} {lines before later after : List String}

/-- The lines from the first to the last one that is not blank. -/
def withoutBlankBorder (lines : List String) : List String :=
  ((lines.dropWhile (!isFilledLine ·)).reverse.dropWhile (!isFilledLine ·)).reverse

section

variable (hb : ∀ l ∈ before, isFilledLine l = false)
include hb

theorem dropWhile_blank (hl : isFilledLine l = true) :
    (before ++ l :: later).dropWhile (!isFilledLine ·) = l :: later := by
  rw [dropWhile_append_of_pos (by simpa using hb), dropWhile_cons_of_neg (by simpa using hl)]

theorem withoutBlankBorder_eq
    (ha : ∀ l ∈ after, isFilledLine l = false) (hl : isFilledLine l = true)
    (last : ∀ x ∈ (l :: later).getLast?, isFilledLine x = true) :
    withoutBlankBorder (before ++ l :: later ++ after) = l :: later := by
  obtain ⟨front, x, shape⟩ : ∃ front x, l :: later = front ++ [x] :=
    ⟨_, _, (dropLast_concat_getLast (cons_ne_nil l later)).symm⟩
  rw [shape, getLast?_concat] at last
  rw [withoutBlankBorder, append_assoc, cons_append, dropWhile_blank hb hl, ← cons_append, shape,
    reverse_append, reverse_concat, dropWhile_blank (by simpa using ha) (last x rfl),
    ← reverse_concat, reverse_reverse]

theorem firstFilled_append (hl : isFilledLine l = true) (lines : List String) :
    firstFilled (before ++ l :: lines) = before.length := by
  rw [firstFilled, findIdx?_append, findIdx?_eq_none_iff.mpr (by simpa using hb)]
  simp [findIdx?_cons, hl]

end

theorem lastFilled_append (ha : ∀ l ∈ after, isFilledLine l = false)
    (hl : isFilledLine l = true) (line : String) (lines : List String) :
    lastFilled (line :: (lines ++ l :: after)) = lines.length + 1 := by
  have found : (lines ++ l :: after).reverse.findIdx? isFilledLine = some after.length := by
    rw [reverse_append, reverse_cons, append_assoc, findIdx?_append,
      findIdx?_eq_none_iff.mpr (by simpa using ha)]
    simp [findIdx?_cons, hl]
  rw [lastFilled, drop_one, tail_cons, found]
  simp only [length_cons, length_append]
  omega

theorem lastFilled_of_blank (h : ∀ l ∈ lines, isFilledLine l = false) :
    lastFilled (line :: lines) = min 1 lines.length := by
  have none : lines.reverse.findIdx? isFilledLine = none := findIdx?_eq_none_iff.mpr (by simpa using h)
  rw [lastFilled, drop_one, tail_cons, none]
  rfl

theorem joinWith_ne_empty (hl : isFilledLine l = true) (lines : List String) :
    joinWith "\n" (l :: lines) ≠ "" := by
  intro empty
  have text := congrArg String.toList empty
  rw [joinWith, String.toList_intercalate] at text
  have none : l.toList = [] := by
    cases lines with
    | nil => simpa using text
    | cons next lines =>
      rw [map_cons, map_cons, intercalate_cons_cons] at text
      simp at text
  rw [isFilledLine, none] at hl
  cases hl

theorem exists_last_filled (h : lines.any isFilledLine = true) :
    ∃ front l after, lines = front ++ l :: after ∧ isFilledLine l = true ∧
      ∀ x ∈ after, isFilledLine x = false := by
  rcases first_where isFilledLine lines.reverse with none | ⟨after, l, front, shape, hl, ha⟩
  · obtain ⟨l, hin, hl⟩ := any_eq_true.mp h
    rw [none l (mem_reverse.mpr hin)] at hl
    cases hl
  · refine ⟨front.reverse, l, after.reverse, ?_, hl, by simpa using ha⟩
    simpa using congrArg reverse shape

theorem docOfLines?_of_later_filled (h : lines.any isFilledLine = true) :
    docOfLines? (line :: lines) = some (joinWith "\n" (withoutBlankBorder (line :: lines))) := by
  obtain ⟨front, last, after, rfl, filled, ha⟩ := exists_last_filled h
  rcases first_where isFilledLine (line :: (front ++ [last])) with
    none | ⟨before, l, later, shape, hl, hb⟩
  · have blank := none last (.tail _ (mem_append_right _ mem_cons_self))
    rw [filled] at blank
    cases blank
  · have whole : line :: (front ++ last :: after) = before ++ l :: later ++ after := by
      rw [← shape]
      simp
    have ends : (l :: later).getLast? = some last := by
      have same := congrArg getLast? shape
      rw [← cons_append, getLast?_concat, getLast?_append, getLast?_cons, Option.some_or,
        ← getLast?_cons] at same
      exact same.symm
    have stripped := withoutBlankBorder_eq hb ha hl fun x hx => by
      rw [ends] at hx
      cases hx
      exact filled
    have taken : (line :: (front ++ last :: after)).take (front.length + 2) = before ++ l :: later := by
      rw [whole, take_left' (by rw [← shape]; simp)]
    rw [docOfLines?, lastFilled_append ha filled, taken, whole, append_assoc, cons_append,
      firstFilled_append hb hl, drop_left, if_neg (joinWith_ne_empty hl later), ← cons_append, ← append_assoc,
      stripped]

/-- Only lines after the first are looked at for the last one that is not blank. If there is none,
the second line is taken for it. -/
theorem docstring_without_blank_border (lines : List String) : docOfLines? lines =
    if lines.tail.any isFilledLine then some (joinWith "\n" (withoutBlankBorder lines))
    else if lines.any isFilledLine then some (joinWith "\n" (lines.take 2))
    else if lines.length ≤ 2 then lines.getLast?.filter (· ≠ "") else none := by
  cases lines with
  | nil => rfl
  | cons line lines =>
    rw [tail_cons]
    split
    · rename_i later
      exact docOfLines?_of_later_filled later
    · rename_i later
      have blank : ∀ l ∈ lines, isFilledLine l = false := by simpa using later
      have two : (line :: lines).take (min 1 lines.length + 1) = (line :: lines).take 2 := by
        cases lines <;> rfl
      rw [docOfLines?, lastFilled_of_blank blank, two]
      cases hl : isFilledLine line with
      | true =>
        have first : firstFilled ([] ++ line :: lines) = 0 := firstFilled_append (forall_mem_nil _) hl lines
        rw [nil_append] at first
        simp [first, hl, joinWith_ne_empty]
      | false =>
        have none : (line :: lines).findIdx? isFilledLine = none :=
          findIdx?_eq_none_iff.mpr (forall_mem_cons.mpr ⟨hl, blank⟩)
        have last : firstFilled (line :: lines) = lines.length := by
          rw [firstFilled, none]
          rfl
        have empty : (line :: lines).any isFilledLine = false := by
          rw [any_cons, hl, Bool.false_or]
          simpa using later
        rw [last, empty]
        rcases lines with _ | ⟨next, _ | ⟨third, rest⟩⟩
        · simp [joinWith, Option.filter]
        · simp [joinWith, Option.filter]
        · simp [joinWith]

theorem first_line_keeps_border :
    docOfLines? ["  "] = some "  " ∧ docOfLines? ["a", ""] = some "a\n" ∧
      withoutBlankBorder ["a", ""] = ["a"] ∧ withoutBlankBorder ["  "] = [] := by decide

end TypeStubs
