import TypeStubs.CharSet.Blank
import TypeStubs.CharSet.Case
import TypeStubs.CharSet.Decimal
import TypeStubs.CharSet.Word

/-! Patterns, and how they match at a place of a text. Of several ways to match the most preferred
one counts that lets the rest of the pattern match as well. -/

namespace TypeStubs

inductive Folding where
  | exact
  | ascii
  | full
deriving DecidableEq

namespace Folding

def variants : Folding → Nat → List Nat
  | exact, n => [n]
  | ascii, n => asciiCaseVariants n
  | full, n => caseVariants n

def lower : Folding → Nat → Nat
  | exact, n => n
  | ascii, n => asciiLowercase n
  | full, n => lowercase n

end Folding

def isAsciiWord (c : Char) : Bool := c.isAlphanum || c == '_'

def isAsciiBlank (c : Char) : Bool := c == ' ' || ('\t' ≤ c && c ≤ '\r')

inductive CharTest where
  | char (c : Char) (folding : Folding)
  | range (low high : Char) (folding : Folding)
  | word
  | decimal
  | blank
  | asciiWord
  | asciiDecimal
  | asciiBlank
  | except (t : CharTest)
deriving DecidableEq

def CharTest.accepts : CharTest → Char → Bool
  | .char d folding, c => (folding.variants c.toNat).contains d.toNat
  | .range low high folding, c =>
    (folding.variants c.toNat).any fun n => low.toNat ≤ n && n ≤ high.toNat
  | .word, c => isWord c
  | .decimal, c => isDecimal c
  | .blank, c => isBlank c
  | .asciiWord, c => isAsciiWord c
  | .asciiDecimal, c => c.isDigit
  | .asciiBlank, c => isAsciiBlank c
  | .except t, c => !t.accepts c

inductive Pattern where
  | empty
  | oneOf (tests : List CharTest) (negated : Bool)
  | atStart
  | atLineStart
  /-- The end of the text, or the line feed that ends it. -/
  | atFinalBreak
  | atLineEnd
  | atEnd
  /-- A place with a word character on exactly one side, or not such a place. An empty text has
  neither. -/
  | atEdge (edge ascii : Bool)
  | seq (first second : Pattern)
  | alt (first second : Pattern)
  | rep (p : Pattern) (least : Nat) (most : Option Nat) (greedy : Bool)
  | once (p : Pattern)
  | group (number : Nat) (p : Pattern)
  | again (number : Nat) (folding : Folding)
  /-- The pattern matches here, or does not, without moving on. -/
  | ahead (p : Pattern) (matching : Bool)
  | behind (width : Nat) (p : Pattern) (matching : Bool)
  | ifGroup (number : Nat) (present absent : Pattern)

/-- A place in a text: the characters before it, last first, the rest after it, and what the groups
matched so far, latest first. -/
structure Cursor where
  passed : List Char := []
  rest : List Char
  groups : List (Nat × List Char) := []

namespace Cursor

def advance (c : Cursor) (n : Nat) : Cursor :=
  { c with passed := (c.rest.take n).reverse ++ c.passed, rest := c.rest.drop n }

def retreat? (c : Cursor) (n : Nat) : Option Cursor :=
  if n ≤ c.passed.length then
    some { c with passed := c.passed.drop n, rest := (c.passed.take n).reverse ++ c.rest }
  else none

def isInEmptyText (c : Cursor) : Bool := c.passed.isEmpty && c.rest.isEmpty

def atEdge (isInside : Char → Bool) (c : Cursor) : Bool :=
  c.passed.head?.any isInside != c.rest.head?.any isInside

def group? (c : Cursor) (number : Nat) : Option (List Char) := c.groups.lookup number

def textTo (c d : Cursor) : List Char := c.rest.take (c.rest.length - d.rest.length)

end Cursor

/-- A way to match: what is found at a place, and what is to be found after it. -/
abbrev Matcher := Cursor → (Cursor → Option Cursor) → Option Cursor

/-- Takes `step` from `least` to `most` times. Once enough steps were taken, a step that does not
move on is the last. A step more than `fuel` times is not tried. -/
def Matcher.steps (step : Matcher) (greedy : Bool) :
    (fuel least : Nat) → (most : Option Nat) → Matcher
  | 0, _, _, c, next => next c
  | fuel + 1, least + 1, most, c, next =>
    step c fun d => Matcher.steps step greedy fuel least (most.map (· - 1)) d next
  | fuel + 1, 0, most, c, next =>
    let further (_ : Unit) : Option Cursor :=
      if most = some 0 then none
      else step c fun d =>
        if d.rest.length < c.rest.length then
          Matcher.steps step greedy fuel 0 (most.map (· - 1)) d next
        else next d
    if greedy then (further ()).orElse fun _ => next c else (next c).orElse further

def Matcher.check (holds : Bool) : Matcher := fun c next => if holds then next c else none

/-- The place that a pattern leads to and from which the rest can be found. -/
def Pattern.search : Pattern → Matcher
  | .empty, c, next => next c
  | .oneOf tests negated, c, next =>
    match c.rest with
    | [] => none
    | x :: _ => Matcher.check (tests.any (·.accepts x) != negated) (c.advance 1) next
  | .atStart, c, next => Matcher.check c.passed.isEmpty c next
  | .atLineStart, c, next => Matcher.check (c.passed.head?.all (· == '\n')) c next
  | .atFinalBreak, c, next => Matcher.check (c.rest.isEmpty || c.rest == ['\n']) c next
  | .atLineEnd, c, next => Matcher.check (c.rest.head?.all (· == '\n')) c next
  | .atEnd, c, next => Matcher.check c.rest.isEmpty c next
  | .atEdge edge ascii, c, next =>
    Matcher.check (!c.isInEmptyText && c.atEdge (if ascii then isAsciiWord else isWord) == edge)
      c next
  | .seq p q, c, next => p.search c fun d => q.search d next
  | .alt p q, c, next => (p.search c next).orElse fun _ => q.search c next
  | .rep p least most greedy, c, next =>
    Matcher.steps p.search greedy (least + c.rest.length + 1) least most c next
  | .once p, c, next => (p.search c some).bind next
  | .group number p, c, next =>
    p.search c fun d => next { d with groups := (number, c.textTo d) :: d.groups }
  | .again number folding, c, next =>
    match c.group? number with
    | none => none
    | some text =>
      let fold (cs : List Char) := cs.map fun x => folding.lower x.toNat
      Matcher.check ((fold text).isPrefixOf (fold (c.rest.take text.length)))
        (c.advance text.length) next
  | .ahead p matching, c, next =>
    match p.search c some with
    | none => Matcher.check (!matching) c next
    | some d => Matcher.check matching { c with groups := d.groups } next
  | .behind width p matching, c, next =>
    match (c.retreat? width).bind (p.search · some) with
    | none => Matcher.check (!matching) c next
    | some d => Matcher.check matching { c with groups := d.groups } next
  | .ifGroup number present absent, c, next =>
    if (c.group? number).isSome then present.search c next else absent.search c next

structure Width where
  least : Nat
  most : Option Nat

namespace Width

def exactly (n : Nat) : Width := ⟨n, some n⟩

def append (v w : Width) : Width :=
  ⟨v.least + w.least, v.most.bind fun m => w.most.map (m + ·)⟩

def either (v w : Width) : Width :=
  ⟨min v.least w.least, v.most.bind fun m => w.most.map (max m ·)⟩

def times (w : Width) (least : Nat) (most : Option Nat) : Width :=
  ⟨w.least * least,
    if w.most = some 0 || most = some 0 then some 0 else w.most.bind fun m => most.map (m * ·)⟩

def single? (w : Width) : Option Nat := if w.most = some w.least then some w.least else none

end Width

def Pattern.width (groups : List (Nat × Width)) : Pattern → Width
  | .oneOf _ _ => .exactly 1
  | .seq p q => (p.width groups).append (q.width groups)
  | .alt p q => (p.width groups).either (q.width groups)
  | .rep p least most _ => (p.width groups).times least most
  | .once p => p.width groups
  | .group _ p => p.width groups
  | .again number _ => (groups.lookup number).getD (.exactly 0)
  | .ifGroup _ p q => (p.width groups).either (q.width groups)
  | _ => .exactly 0

end TypeStubs
