import TypeStubs.Regex.Reader

/-! Regular expressions: patterns with their written form. -/

namespace TypeStubs

structure Regex where
  source : String
  pattern : Pattern
  names : List (String × Nat)

structure Captures where
  names : List (String × Nat)
  groups : List (Nat × List Char)

namespace Regex

def read (source : String) : Except PatternError Regex := do
  let (pattern, state) ← PatternReader.whole.run { rest := source.toList }
  return ⟨source, pattern, state.names⟩

/-- The most preferred way to match at the start of a text. The match need not reach the end. -/
def match? (r : Regex) (text : List Char) : Option Captures :=
  (r.pattern.search { rest := text } some).map fun c => ⟨r.names, c.groups⟩

def accepts (r : Regex) (text : String) : Bool := (r.match? text.toList).isSome

end Regex

def Captures.named? (c : Captures) (name : String) : Option (List Char) := do
  c.groups.lookup (← c.names.lookup name)

end TypeStubs
