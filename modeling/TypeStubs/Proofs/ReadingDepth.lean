import TypeStubs.Proofs.ReadingCalls

/-! How deep the calls of the functions that read texts are nested. The texts that they call for are
not always shorter than the text that is read, but none of those leads to longer ones. -/

namespace TypeStubs

open List

variable {names : List QualifiedName} {cs : List Char}

/-- The depth below which the calls for the text of a value end: those for the place of an
enumeration, which may be no name, with a word in it. -/
def expressionDepth (text : List Char) : Nat := if (EnumText.read? (trim text)).isSome then 4 else 0

def TypeSyntax.isAmong (names : List QualifiedName) : TypeSyntax → Bool
  | .named name none => names.contains name
  | _ => false

mutual

/-- The depth below which the calls for the text of a hint end. -/
def HintSyntax.depth (names : List QualifiedName) : HintSyntax → Nat
  | .malformed _ => 3
  | .single t => if t.isAmong names then 1 else max 3 (t.depth names + 1)
  | .union ts => max 3 (TypeSyntax.highest names ts + 1)

def TypeSyntax.depth (names : List QualifiedName) : TypeSyntax → Nat
  | .named _ none => 0
  | .named _ (some hs) => HintSyntax.highest names hs + 1
  | .value text => expressionDepth text + 1

def TypeSyntax.highest (names : List QualifiedName) : List TypeSyntax → Nat
  | [] => 0
  | t :: ts => max (t.depth names) (TypeSyntax.highest names ts)

def HintSyntax.highest (names : List QualifiedName) : List HintSyntax → Nat
  | [] => 0
  | h :: hs => max (h.depth names) (HintSyntax.highest names hs)

end

theorem TypeSyntax.highest_le_iff {ts : List TypeSyntax} {n : Nat} :
    highest names ts ≤ n ↔ ∀ t ∈ ts, t.depth names ≤ n := by
  induction ts with
  | nil => simp [highest]
  | cons t ts ih => rw [highest, Nat.max_le, ih, forall_mem_cons]

theorem HintSyntax.highest_le_iff {hs : List HintSyntax} {n : Nat} :
    highest names hs ≤ n ↔ ∀ h ∈ hs, h.depth names ≤ n := by
  induction hs with
  | nil => simp [highest]
  | cons h hs ih => rw [highest, Nat.max_le, ih, forall_mem_cons]

/-! Depths and lengths. -/

theorem length_of_bracketed? {inside : List Char} (h : bracketed? cs = some inside) :
    inside.length + 2 ≤ cs.length := by
  unfold bracketed? at h
  split at h
  · split at h
    · rename_i last
      cases h
      have nonempty := length_pos_iff.mpr (ne_nil_of_mem (mem_of_getLast? last))
      rw [length_dropLast, length_cons]
      omega
    · cases h
  · cases h

theorem expressionDepth_le (text : List Char) : expressionDepth text ≤ 4 := by
  unfold expressionDepth
  split
  · exact Nat.le_refl 4
  · exact Nat.zero_le 4

theorem length_of_mem_parameters {inside piece : List Char} {pieces : List (List Char)}
    (hi : bracketed? (trim (cutName (trim cs)).2) = some inside) (hp : pieces? ',' inside = some pieces)
    (h : piece ∈ pieces) : piece.length + 2 ≤ cs.length := by
  have inner := length_of_mem_pieces? hp h
  calc piece.length + 2
      ≤ inside.length + 2 := Nat.add_le_add_right inner 2
    _ ≤ (trim (cutName (trim cs)).2).length := length_of_bracketed? hi
    _ ≤ (cutName (trim cs)).2.length := length_trim_le _
    _ ≤ (trim cs).length := length_cutName_le _
    _ ≤ cs.length := length_trim_le cs

theorem TypeSyntax.depth_ofText_le (h : ∀ piece : List Char, piece.length + 2 ≤ cs.length →
      (HintSyntax.ofText piece).depth names ≤ piece.length + 6) :
    (TypeSyntax.ofText cs).depth names ≤ cs.length + 5 := by
  rw [TypeSyntax.ofText_eq]
  split
  · rw [TypeSyntax.depth]
    exact Nat.zero_le _
  · split
    · have value := expressionDepth_le (trim cs)
      rw [TypeSyntax.depth]
      omega
    · rename_i pieces found
      obtain ⟨inside, brackets, cut⟩ := Option.bind_eq_some_iff.mp found
      have parameters : HintSyntax.highest names (pieces.map HintSyntax.ofText) ≤ cs.length + 4 := by
        rw [HintSyntax.highest_le_iff, forall_mem_map]
        intro piece hp
        have short := length_of_mem_parameters brackets cut hp
        have inner := h piece short
        omega
      rw [TypeSyntax.depth]
      omega

theorem HintSyntax.depth_ofText_le (names : List QualifiedName) (cs : List Char) :
    (HintSyntax.ofText cs).depth names ≤ cs.length + 6 := by
  -- two calls, for a hint and for its type, read one pair of brackets, which is two characters
  induction hn : cs.length using Nat.strongRecOn generalizing cs with
  | ind n ih =>
    have types (piece : List Char) (hp : piece.length ≤ cs.length) :
        (TypeSyntax.ofText piece).depth names ≤ cs.length + 5 := by
      refine Nat.le_trans (TypeSyntax.depth_ofText_le fun inner short => ?_) (by omega)
      exact ih inner.length (by omega) inner rfl
    rw [HintSyntax.ofText_eq]
    split
    · rename_i piece found
      have single := types piece (length_of_mem_pieces? found mem_cons_self)
      rw [HintSyntax.depth]
      split
      · omega
      · omega
    · rename_i first second rest found
      have several : TypeSyntax.highest names ((first :: second :: rest).map TypeSyntax.ofText) ≤
          cs.length + 5 := by
        rw [TypeSyntax.highest_le_iff, forall_mem_map]
        exact fun piece hp => types piece (length_of_mem_pieces? found hp)
      rw [HintSyntax.depth]
      omega
    · rw [HintSyntax.depth]
      omega

end TypeStubs
