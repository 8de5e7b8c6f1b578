import TypeStubs.Proofs.ClosedPieces
import TypeStubs.Proofs.WrittenNames

/-! What can be read from a text of one line: the names are written as names, the values stand for
themselves, and between brackets no comma stands outside in a value. -/

namespace TypeStubs

open List Option

variable {cs : List Char} {d : Char} {ps : List (List Char)}

/-! Characters that stay. -/

theorem trimStart_subset (cs : List Char) : trimStart cs ⊆ cs := (dropWhile_sublist _).subset

theorem trimEnd_subset (cs : List Char) : trimEnd cs ⊆ cs := by
  intro c hc
  rw [trimEnd, mem_reverse] at hc
  exact mem_reverse.mp ((dropWhile_sublist _).subset hc)

theorem trim_subset (cs : List Char) : trim cs ⊆ cs :=
  fun _ hc => trimStart_subset cs (trimEnd_subset _ hc)

theorem bracketed?_subset {inside : List Char} (h : bracketed? cs = some inside) : inside ⊆ cs := by
  unfold bracketed? at h
  split at h
  · split at h
    · cases h
      exact fun c hc => .tail _ (dropLast_subset _ hc)
    · cases h
  · cases h

theorem pieces?_subset (h : pieces? d cs = some ps) {piece : List Char} (hp : piece ∈ ps) :
    piece ⊆ cs := by
  obtain ⟨ms, marks, rfl⟩ := map_eq_some_iff.mp (pieces?_eq d cs ▸ h)
  obtain ⟨marked, hm, rfl⟩ := mem_map.mp hp
  obtain rfl := nestingFrom?_text marks
  exact map_subset _ (nesting?_of_mem_cutWhere marks hm).2.1.subset

theorem pieces?_ne_nil (h : pieces? d cs = some ps) : ps ≠ [] := by
  obtain ⟨ms, -, rfl⟩ := map_eq_some_iff.mp (pieces?_eq d cs ▸ h)
  simpa using cutWhere_ne_nil _ ms

/-! Texts without blanks at their ends. -/

theorem head?_dropWhile_blank (cs : List Char) :
    ∀ c ∈ (cs.dropWhile isBlank).head?, isBlank c = false := by
  induction cs with
  | nil => exact nofun
  | cons c cs ih =>
    rw [dropWhile_cons]
    split
    · exact ih
    · rename_i word
      rintro d ⟨⟩
      exact Bool.eq_false_iff.mpr word

theorem head?_trimEnd (h : ∀ c ∈ cs.head?, isBlank c = false) :
    ∀ c ∈ (trimEnd cs).head?, isBlank c = false := by
  intro c hc
  have front : (trimEnd cs) <+: cs := by
    rw [trimEnd, ← reverse_suffix, reverse_reverse]
    exact dropWhile_suffix _
  obtain ⟨rest, whole⟩ := front
  refine h c ?_
  rw [← whole, head?_append, mem_def.mp hc]
  rfl

theorem head?_trim (cs : List Char) : ∀ c ∈ (trim cs).head?, isBlank c = false :=
  head?_trimEnd (head?_dropWhile_blank cs)

theorem trim_trim (cs : List Char) : trim (trim cs) = trim cs := by
  refine trim_eq_self (head?_trim cs) fun c hc => ?_
  rw [trim, trimEnd, getLast?_reverse] at hc
  exact head?_dropWhile_blank _ c hc

/-! The structure. -/

mutual

/-- What a text of one line can be read as, if none of some characters stands outside in it. -/
def HintSyntax.Formed (avoided : List Char) : HintSyntax → Prop
  | .malformed _ => True
  | .single t => t.Formed avoided
  | .union ts => 2 ≤ ts.length ∧ TypeSyntax.AllFormed avoided ts

/-- What a text between bars can be read as. -/
def TypeSyntax.Formed (avoided : List Char) : TypeSyntax → Prop
  | .named name none => name.IsWritten
  | .named name (some hs) => name.IsWritten ∧ hs ≠ [] ∧ HintSyntax.AllFormed [','] hs
  | .value text => TypeSyntax.ofText text = .value text ∧ '\n' ∉ text ∧ Closed ('|' :: avoided) text

def TypeSyntax.AllFormed (avoided : List Char) : List TypeSyntax → Prop
  | [] => True
  | t :: ts => t.Formed avoided ∧ TypeSyntax.AllFormed avoided ts

def HintSyntax.AllFormed (avoided : List Char) : List HintSyntax → Prop
  | [] => True
  | h :: hs => h.Formed avoided ∧ HintSyntax.AllFormed avoided hs

end

theorem TypeSyntax.allFormed_iff {avoided : List Char} {ts : List TypeSyntax} :
    AllFormed avoided ts ↔ ∀ t ∈ ts, t.Formed avoided := by
  induction ts with
  | nil => simp [AllFormed]
  | cons t ts ih => rw [AllFormed, ih, forall_mem_cons]

theorem HintSyntax.allFormed_iff {avoided : List Char} {hs : List HintSyntax} :
    AllFormed avoided hs ↔ ∀ h ∈ hs, h.Formed avoided := by
  induction hs with
  | nil => simp [AllFormed]
  | cons h hs ih => rw [AllFormed, ih, forall_mem_cons]

theorem Closed.of_pieces? (h : TypeStubs.pieces? d cs = some ps) : Closed [] cs := by
  obtain ⟨ms, marks, -⟩ := map_eq_some_iff.mp (pieces?_eq d cs ▸ h)
  exact ⟨ms, marks, fun _ _ => not_mem_nil⟩

mutual

/-- A text of one line is read as what such texts can be read as. If it is not closed, no character
is asked to be absent. -/
theorem HintSyntax.formed_ofText {avoided cs : List Char} (line : '\n' ∉ cs)
    (closed : Closed [] cs → Closed avoided cs) : (HintSyntax.ofText cs).Formed avoided := by
  rw [HintSyntax.ofText_eq]
  cases pieces : pieces? '|' cs with
  | none => trivial
  | some ps =>
    have parts (piece : List Char) (hp : piece ∈ ps) : (TypeSyntax.ofText piece).Formed avoided :=
      have := length_of_mem_pieces? pieces hp
      TypeSyntax.formed_ofText (fun h => line (pieces?_subset pieces hp h))
        ((closed (.of_pieces? pieces)).of_mem_pieces? pieces hp)
    match ps, parts with
    | [], _ => trivial
    | [piece], parts => exact parts piece mem_cons_self
    | first :: second :: rest, parts =>
      refine ⟨by simp, TypeSyntax.allFormed_iff.mpr ?_⟩
      exact forall_mem_map.mpr parts
termination_by 2 * cs.length + 1

theorem TypeSyntax.formed_ofText {avoided cs : List Char} (line : '\n' ∉ cs)
    (closed : Closed ('|' :: avoided) cs) : (TypeSyntax.ofText cs).Formed avoided := by
  have written := isWritten_cutName (head?_trim cs)
  cases read : TypeSyntax.ofText cs with
  | value text =>
    have whole := TypeSyntax.ofText_eq_value read
    rw [whole] at read ⊢
    rw [TypeSyntax.Formed]
    refine ⟨?_, fun h => line (trim_subset cs h), closed.trim⟩
    rwa [TypeSyntax.ofText_congr (trim_trim cs)]
  | named name parameters =>
    rw [TypeSyntax.ofText_eq] at read
    split at read
    · cases read
      exact written
    · split at read
      · cases read
      · rename_i ps inside
        cases read
        obtain ⟨inner, brackets, pieces⟩ := bind_eq_some_iff.mp inside
        refine ⟨written, by simpa using pieces?_ne_nil pieces, HintSyntax.allFormed_iff.mpr ?_⟩
        refine forall_mem_map.mpr fun piece hp => ?_
        have subset : piece ⊆ cs := fun c hc =>
          trim_subset cs (mem_of_mem_drop
            (trim_subset _ (bracketed?_subset brackets (pieces?_subset pieces hp hc))))
        have shorter : piece.length < cs.length :=
          calc piece.length ≤ inner.length := length_of_mem_pieces? pieces hp
            _ < (trim (cutName (trim cs)).2).length := length_bracketed? brackets
            _ ≤ (cutName (trim cs)).2.length := length_trim_le _
            _ ≤ (trim cs).length := length_cutName_le _
            _ ≤ cs.length := length_trim_le _
        exact HintSyntax.formed_ofText (fun h => line (subset h)) fun _ =>
          (Closed.of_pieces? pieces).of_mem_pieces? pieces hp
termination_by 2 * cs.length

end

end TypeStubs
