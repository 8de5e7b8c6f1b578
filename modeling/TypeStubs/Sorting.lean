/-! Sorting by a comparison. -/

namespace TypeStubs

/-- Puts an element into a sorted list, in front of the first one that may follow it. -/
def insertSorted (le : α → α → Bool) (x : α) : List α → List α
  | [] => [x]
  | y :: ys => if le x y then x :: y :: ys else y :: insertSorted le x ys

/-- Sorts a list. Elements that may follow each other either way keep their order. -/
def sortBy (le : α → α → Bool) : List α → List α
  | [] => []
  | x :: xs => insertSorted le x (sortBy le xs)

theorem mem_insertSorted {le : α → α → Bool} {x y : α} {ys : List α} :
    x ∈ insertSorted le y ys ↔ x = y ∨ x ∈ ys := by
  induction ys with
  | nil => simp [insertSorted]
  | cons z zs ih =>
    unfold insertSorted
    split
    · simp
    · simp only [List.mem_cons, ih]
      exact or_left_comm

@[simp] theorem mem_sortBy {le : α → α → Bool} {x : α} {xs : List α} :
    x ∈ sortBy le xs ↔ x ∈ xs := by
  induction xs with
  | nil => simp [sortBy]
  | cons y ys ih => simp [sortBy, mem_insertSorted, ih]

theorem sortBy_map {α β : Type} (f : β → α) (le : α → α → Bool) (xs : List β) :
    sortBy le (xs.map f) = (sortBy (fun a b => le (f a) (f b)) xs).map f := by
  have insert (x : β) (ys : List β) : insertSorted le (f x) (ys.map f) =
      (insertSorted (fun a b => le (f a) (f b)) x ys).map f := by
    induction ys with
    | nil => rfl
    | cons y ys ih =>
      rw [List.map_cons, insertSorted, insertSorted, ih]
      split
      · rfl
      · rfl
  induction xs with
  | nil => rfl
  | cons x xs ih => rw [List.map_cons, sortBy, ih, insert, sortBy]

section

variable {le : α → α → Bool} (trans : ∀ a b c, le a b = true → le b c = true → le a c = true)
  (total : ∀ a b, le a b = true ∨ le b a = true)

include trans total in
theorem pairwise_insertSorted {x : α} {ys : List α} (h : ys.Pairwise (le · ·)) :
    (insertSorted le x ys).Pairwise (le · ·) := by
  induction ys with
  | nil => exact List.pairwise_singleton _ x
  | cons y ys ih =>
    obtain ⟨first, rest⟩ := List.pairwise_cons.mp h
    unfold insertSorted
    split
    · rename_i before
      refine List.pairwise_cons.mpr ⟨fun z hz => ?_, h⟩
      cases hz with
      | head => exact before
      | tail _ hz => exact trans _ _ _ before (first z hz)
    · rename_i behind
      refine List.pairwise_cons.mpr ⟨fun z hz => ?_, ih rest⟩
      rcases mem_insertSorted.mp hz with rfl | hz
      · exact (total _ _).resolve_left behind
      · exact first z hz

include trans total in
theorem pairwise_sortBy (xs : List α) : (sortBy le xs).Pairwise (le · ·) := by
  induction xs with
  | nil => exact .nil
  | cons x xs ih => exact pairwise_insertSorted trans total ih

theorem insertSorted_of_le {x : α} {ys : List α} (h : ∀ y ∈ ys, le x y = true) :
    insertSorted le x ys = x :: ys := by
  cases ys with
  | nil => rfl
  | cons y ys => rw [insertSorted, if_pos (h y List.mem_cons_self)]

theorem sortBy_of_pairwise {xs : List α} (h : xs.Pairwise (le · ·)) : sortBy le xs = xs := by
  induction h with
  | nil => rfl
  | cons first _ ih => rw [sortBy, ih, insertSorted_of_le first]

include trans in
theorem filter_insertSorted (keep : α → Bool) {x : α} {ys : List α} (h : ys.Pairwise (le · ·)) :
    (insertSorted le x ys).filter keep =
      if keep x then insertSorted le x (ys.filter keep) else ys.filter keep := by
  induction ys with
  | nil => cases hx : keep x <;> simp [insertSorted, hx]
  | cons y ys ih =>
    obtain ⟨first, rest⟩ := List.pairwise_cons.mp h
    rw [insertSorted]
    split
    · rename_i before
      -- Everything behind the place of `x` may follow it, whatever is left of it.
      have follows : ∀ z ∈ (y :: ys).filter keep, le x z = true := by
        intro z hz
        cases (List.mem_filter.mp hz).1 with
        | head => exact before
        | tail _ hz => exact trans _ _ _ before (first z hz)
      rw [List.filter_cons, insertSorted_of_le follows]
    · rename_i behind
      rw [List.filter_cons, List.filter_cons, ih rest]
      cases keep y with
      | false => rfl
      | true =>
        cases keep x with
        | false => rfl
        | true => exact (if_neg behind).symm

include trans total in
theorem filter_sortBy (keep : α → Bool) (xs : List α) :
    (sortBy le xs).filter keep = sortBy le (xs.filter keep) := by
  induction xs with
  | nil => rfl
  | cons x xs ih =>
    rw [sortBy, filter_insertSorted trans keep (pairwise_sortBy trans total xs), ih, List.filter_cons]
    cases keep x <;> rfl

end

end TypeStubs
