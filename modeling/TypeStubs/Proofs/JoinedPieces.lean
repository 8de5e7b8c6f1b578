import TypeStubs.Proofs.ClosedPieces

/-! Cutting a text at a delimiter and putting pieces together with it are inverse to each other. -/

namespace TypeStubs

open List

variable {d : Char} {cs : List Char} {ps : List (List Char)}

theorem intercalate_pieces? (h : pieces? d cs = some ps) : intercalate [d] ps = cs := by
  obtain ⟨ms, hms, rfl⟩ := Option.map_eq_some_iff.mp (pieces?_eq d cs ▸ h)
  have delimiter : ∀ m : Char × Bool, (m.2 && m.1 == d) = true → m.1 = d := by
    intro m hm
    simp only [Bool.and_eq_true, beq_iff_eq] at hm
    exact hm.2
  rw [intercalate_cutWhere delimiter, nestingFrom?_text hms]

/-- A text that is not cut has no delimiter outside of its brackets and quotes. -/
theorem closed_of_pieces?_self (h : pieces? d cs = some [cs]) : Closed [d] cs := by
  obtain ⟨ms, hms, -⟩ := Option.map_eq_some_iff.mp (pieces?_eq d cs ▸ h)
  exact Closed.of_mem_pieces? ⟨ms, hms, fun _ _ => not_mem_nil⟩ h mem_cons_self

theorem padded_nil (ps : List (List Char)) : padded [] [] [] ps = ps := by
  induction ps with
  | nil => rfl
  | cons p ps ih =>
    cases ps with
    | nil => rfl
    | cons next ps => rw [padded, ih, nil_append, append_nil]

theorem pieces_iff_joined (hd : d ∈ [',', '|']) :
    pieces? d cs = some ps ↔
      ps ≠ [] ∧ List.intercalate [d] ps = cs ∧ ∀ p ∈ ps, pieces? d p = some [p] := by
  have plain : ∀ d ∈ [',', '|'], isQuote d = false ∧ closer? d = none := forall_of_all (by decide)
  constructor
  · intro h
    obtain ⟨ms, hms, cut⟩ := Option.map_eq_some_iff.mp (pieces?_eq d cs ▸ h)
    refine ⟨?_, intercalate_pieces? h, fun p hp => ?_⟩
    · rw [← cut]
      exact fun none => cutWhere_ne_nil _ ms (map_eq_nil_iff.mp none)
    · have closed : Closed [] cs := ⟨ms, hms, fun _ _ => not_mem_nil⟩
      exact (closed.of_mem_pieces? h hp).pieces?
  · rintro ⟨some_piece, rfl, whole⟩
    obtain ⟨p, ps, rfl⟩ := exists_cons_of_ne_nil some_piece
    have joined := pieces?_intercalate (plain d hd).1 (plain d hd).2 (.nil [d]) (.nil [d]) (.nil [d])
      fun x hx => closed_of_pieces?_self (whole x hx)
    rwa [padded_nil] at joined

/-- Delimiters between quotes or brackets do not cut, and a closing bracket without an opening one
is an ordinary character. -/
theorem pieces_with_stray_closers : ',' ∈ [',', '|'] ∧
    pieces? ',' "a)[b, c],', ', ".toList = some ["a)[b, c]".toList, "', '".toList, " ".toList] ∧
    pieces? ',' "a)[b, c]".toList = some ["a)[b, c]".toList] := by
  have cut : pieces? ',' "a)[b, c],', ', ".toList =
    some ["a)[b, c]".toList, "', '".toList, " ".toList] := by decide
  have joined := (pieces_iff_joined (by decide)).mp cut
  exact ⟨by decide, cut, joined.2.2 _ mem_cons_self⟩

end TypeStubs
