import TypeStubs.CharSet.Blank
import TypeStubs.CharSet.Word
import TypeStubs.Signature.Nesting

/-! The text of a parameter list, cut into the texts of its parameters. -/

namespace TypeStubs

structure ArgumentText where
  name : List Char
  hint : Option (List Char)
  default : Option (List Char)
deriving DecidableEq

namespace ArgumentText

/-- The parameter at hand: its text so far, the place of its first colon outside and that of its last
equals sign outside that has no equals sign after it. -/
structure Segment where
  text : List Char := []
  colon : Option Nat := none
  assignment : Option Nat := none

namespace Segment

def push (s : Segment) (c : Char) : Segment := { s with text := s.text ++ [c] }

/-- Notes the place of the next character, which stands outside. -/
def note (s : Segment) (c : Char) (next : Option Char) : Segment :=
  { s with
    colon := s.colon.or (if c = ':' then some s.text.length else none)
    assignment := if c = '=' ∧ next ≠ some '=' then some s.text.length else s.assignment }

/-- Cuts the text of one parameter: the default follows the assignment, the hint stands between the
colon and the assignment, and the name comes before them. -/
def cut (s : Segment) : ArgumentText :=
  let hintEnd := s.assignment.getD s.text.length
  { name := s.text.take (s.colon.getD hintEnd)
    hint := s.colon.map fun i => (s.text.take hintEnd).drop (i + 1)
    default := s.assignment.map fun i => s.text.drop (i + 1) }

end Segment

/-- Cuts a parameter list behind the start of a parameter. `closers` are the brackets still to come,
innermost first, and the next `skip` characters are the rest of a quoted text. A closing bracket that is
not expected is an ordinary character. A blank end holds no parameter. -/
def splitFrom? (closers : List Char) (s : Segment) (skip : Nat) :
    List Char → Option (List ArgumentText)
  | [] =>
    if closers ≠ [] then none
    else if s.text.all isBlank then some []
    else some [s.cut]
  | c :: cs =>
    match skip with
    | skip + 1 => splitFrom? closers (s.push c) skip cs
    | 0 =>
      if isQuote c then
        (quoteLength? c cs).bind fun skip => splitFrom? closers (s.push c) skip cs
      else match closer? c, closers with
        | some e, closers => splitFrom? (e :: closers) (s.push c) 0 cs
        | none, e :: rest => splitFrom? (if e = c then rest else e :: rest) (s.push c) 0 cs
        | none, [] =>
          if c = ',' then (splitFrom? [] {} 0 cs).map (s.cut :: ·)
          else splitFrom? [] ((s.note c cs.head?).push c) 0 cs

def split? (cs : List Char) : Option (List ArgumentText) := splitFrom? [] {} 0 cs

def starredName? (cs : List Char) : Option (Nat × List Char) :=
  let cs := trim cs
  let stars := min 2 (cs.takeWhile (· == '*')).length
  let name := trimStart (cs.drop stars)
  if !name.isEmpty && name.all isWord then some (stars, name) else none

end ArgumentText

end TypeStubs
