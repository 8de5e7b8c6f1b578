import TypeStubs.Signature.Nesting

/-! Cutting a text at a delimiter that stands outside of all brackets and quotes. -/

namespace TypeStubs

/-- Cuts a text behind the start of a piece. `closers` are the brackets still to come, innermost first,
and the next `skip` characters are the rest of a quoted text. A closing bracket that is not expected is
an ordinary character. -/
def piecesFrom? (d : Char) (closers piece : List Char) (skip : Nat) :
    List Char → Option (List (List Char))
  | [] => if closers = [] then some [piece] else none
  | c :: cs =>
    match skip with
    | skip + 1 => piecesFrom? d closers (piece ++ [c]) skip cs
    | 0 =>
      if isQuote c then
        (quoteLength? c cs).bind fun skip => piecesFrom? d closers (piece ++ [c]) skip cs
      else match closer? c, closers with
        | some e, closers => piecesFrom? d (e :: closers) (piece ++ [c]) 0 cs
        | none, e :: rest => piecesFrom? d (if e = c then rest else e :: rest) (piece ++ [c]) 0 cs
        | none, [] =>
          if c = d then (piecesFrom? d [] [] 0 cs).map (piece :: ·)
          else piecesFrom? d [] (piece ++ [c]) 0 cs

/-- The pieces between the delimiters that stand outside, if all brackets and quotes are closed.
There is always at least one piece. -/
def pieces? (d : Char) (cs : List Char) : Option (List (List Char)) := piecesFrom? d [] [] 0 cs

theorem length_of_mem_piecesFrom? {d : Char} {closers piece cs found : List Char} {skip : Nat}
    {ps : List (List Char)} (h : piecesFrom? d closers piece skip cs = some ps) (hp : found ∈ ps) :
    found.length ≤ piece.length + cs.length := by
  fun_induction piecesFrom? d closers piece skip cs generalizing ps with
  | case1 =>
    cases h
    cases List.mem_singleton.mp hp
    exact Nat.le_add_right _ _
  | case2 => cases h
  | case4 _ _ _ _ _ ih =>
    obtain ⟨skip, -, h⟩ := Option.bind_eq_some_iff.mp h
    have := ih skip h hp
    simp at this ⊢
    omega
  | case7 =>
    rename_i ih
    obtain ⟨rest, hrest, rfl⟩ := Option.map_eq_some_iff.mp h
    rcases List.mem_cons.mp hp with rfl | hp
    · exact Nat.le_add_right _ _
    · have := ih hrest hp
      simp at this ⊢
      omega
  | case3 | case5 | case6 | case8 =>
    rename_i ih
    have := ih h hp
    simp at this ⊢
    omega

theorem length_of_mem_pieces? {d : Char} {cs piece : List Char} {ps : List (List Char)}
    (h : pieces? d cs = some ps) (hp : piece ∈ ps) : piece.length ≤ cs.length := by
  simpa using length_of_mem_piecesFrom? h hp

end TypeStubs
