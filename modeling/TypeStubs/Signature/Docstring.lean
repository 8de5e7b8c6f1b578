import TypeStubs.Text.Split

/-! The lines of a docstring. -/

namespace TypeStubs

def isFilledLine (line : String) : Bool := !isBlankText line.toList

def firstFilled (lines : List String) : Nat :=
  (lines.findIdx? isFilledLine).getD (lines.length - 1)

/-- The number of the last line after the first that is not blank. If there is none, the second
line is taken, or the first if it is the only one. -/
def lastFilled (lines : List String) : Nat :=
  match (lines.drop 1).reverse.findIdx? isFilledLine with
  | some i => lines.length - 1 - i
  | none => min 1 (lines.length - 1)

/-- The text of a docstring from its first to its last line that is not blank. The empty text is
no docstring. -/
def docOfLines? (lines : List String) : Option String :=
  let first := firstFilled lines
  let text := joinWith "\n" ((lines.take (lastFilled lines + 1)).drop first)
  if text = "" then none else some text

end TypeStubs
