/-! Brackets and quotes in a text. -/

namespace TypeStubs

def closer? (c : Char) : Option Char :=
  if c = '(' then some ')'
  else if c = '[' then some ']'
  else if c = '\x7b' then some '\x7d'
  else none

def isQuote (c : Char) : Bool := c = '"' || c = '\''

/-- How many characters the rest of a quoted text has, with the mark that ends it. -/
def quoteLength? (mark : Char) (cs : List Char) : Option Nat := (cs.findIdx? (· == mark)).map (· + 1)

/-- The place of the next occurrence of the character at a place. A backslash has none. -/
def nextSame? (cs : List Char) (start : Nat) : Option Nat :=
  match cs.drop start with
  | [] => none
  | c :: rest => if c = '\\' then none else (quoteLength? c rest).map (start + ·)

end TypeStubs
