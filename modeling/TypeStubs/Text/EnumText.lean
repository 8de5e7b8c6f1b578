import TypeStubs.CharSet.Decimal
import TypeStubs.CharSet.Word
import TypeStubs.Text.Split

/-! The text of a value of an enumeration: the dotted name of the value, a colon and its number,
between angle brackets. -/

namespace TypeStubs

structure EnumText where
  className : String
  entry : String
deriving DecidableEq

def dropFront? (front cs : List Char) : Option (List Char) :=
  if front.isPrefixOf cs then some (cs.drop front.length) else none

theorem dropFront?_eq_some_iff {front cs rest : List Char} :
    dropFront? front cs = some rest ↔ cs = front ++ rest := by
  unfold dropFront?
  constructor
  · intro h
    split at h
    · rename_i starts
      obtain ⟨rest', rfl⟩ := List.isPrefixOf_iff_prefix.mp starts
      rw [List.drop_left] at h
      rw [Option.some.inj h]
    · cases h
  · rintro rfl
    rw [if_pos (List.isPrefixOf_iff_prefix.mpr (List.prefix_append _ _)), List.drop_left]

/-- The value of an enumeration at the front of a text. The name has at least two parts. -/
def EnumText.read? (cs : List Char) : Option EnumText := do
  let cs ← dropFront? ['<'] cs
  let (name, cs) := cs.span fun c => isWord c || c == '.'
  let parts := splitAtChar '.' name
  let cs ← dropFront? [':', ' '] cs
  let cs := (dropFront? ['-'] cs).getD cs
  let (digits, cs) := cs.span isDecimal
  if parts.length < 2 || parts.any List.isEmpty || digits.isEmpty || cs.head? != some '>' then none
  let (className, entry) ← splitAtLast? '.' name
  return ⟨String.ofList className, String.ofList entry⟩

end TypeStubs
