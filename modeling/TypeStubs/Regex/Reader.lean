import TypeStubs.Integer
import TypeStubs.Regex.Pattern

/-! The written form of patterns. -/

namespace TypeStubs

inductive PatternError where
  | malformed
  | tooManyTimes
deriving DecidableEq

namespace PatternReader

structure Flags where
  ignoreCase : Bool := false
  lines : Bool := false
  dotAll : Bool := false
  verbose : Bool := false
  ascii : Bool := false
  /-- Classes of characters were asked to be those of every script. -/
  unicode : Bool := false

structure State where
  rest : List Char
  groups : Nat := 0
  names : List (String × Nat) := []
  widths : List (Nat × Width) := []
  /-- Where a look back began, how many groups there were. -/
  outer : Option Nat := none
  /-- The greatest number of a group that is asked for before it may exist. -/
  awaited : Nat := 0
  flags : Flags := {}

abbrev Reader := StateT State (Except PatternError)

def fail {α : Type} : Reader α := throw .malformed

def peek : Reader (Option Char) := do return (← get).rest.head?

def next : Reader Char := do
  match (← get).rest with
  | [] => fail
  | c :: rest => modify ({ · with rest }); return c

def accept (text : List Char) : Reader Bool := do
  let s ← get
  if text.isPrefixOf s.rest then
    set { s with rest := s.rest.drop text.length }
    return true
  return false

def takeRun (test : Char → Bool) (limit : Nat) : Reader (List Char) := do
  let s ← get
  let run := (s.rest.take limit).takeWhile test
  set { s with rest := s.rest.drop run.length }
  return run

def hexValue? (c : Char) : Option Nat :=
  if c.isDigit then some (c.toNat - 48)
  else if 'a' ≤ c && c ≤ 'f' then some (c.toNat - 87)
  else if 'A' ≤ c && c ≤ 'F' then some (c.toNat - 55)
  else none

def isHex (c : Char) : Bool := (hexValue? c).isSome

def isOctal (c : Char) : Bool := '0' ≤ c && c ≤ '7'

def ofDigits (base : Nat) (digits : List Char) : Nat :=
  digits.foldl (fun n c => n * base + (hexValue? c).getD 0) 0

def charOf (n : Nat) : Reader Char := if n.isValidChar then pure (Char.ofNat n) else fail

def hexChar (width : Nat) : Reader Char := do
  let digits ← takeRun isHex width
  if digits.length = width then charOf (ofDigits 16 digits) else fail

def Flags.folding (f : Flags) : Folding :=
  if !f.ignoreCase then .exact else if f.ascii then .ascii else .full

def Flags.classOf? (f : Flags) : Char → Option CharTest
  | 'd' => some (if f.ascii then .asciiDecimal else .decimal)
  | 'D' => some (.except (if f.ascii then .asciiDecimal else .decimal))
  | 's' => some (if f.ascii then .asciiBlank else .blank)
  | 'S' => some (.except (if f.ascii then .asciiBlank else .blank))
  | 'w' => some (if f.ascii then .asciiWord else .word)
  | 'W' => some (.except (if f.ascii then .asciiWord else .word))
  | _ => none

def literal (c : Char) : Reader CharTest := return .char c (← get).flags.folding

def literalPattern (c : Char) : Reader Pattern := return .oneOf [← literal c] false

/-- The character that a letter denotes after a backslash, in and outside of brackets. Other
ASCII letters and digits have no meaning there. -/
def plainEscape (c : Char) : Reader Char :=
  match c with
  | 'a' => pure '\x07'
  | 'f' => pure '\x0c'
  | 'n' => pure '\n'
  | 'r' => pure '\r'
  | 't' => pure '\t'
  | 'v' => pure '\x0b'
  | 'x' => hexChar 2
  | 'u' => hexChar 4
  | 'U' => hexChar 8
  | c => if c.isAlphanum then fail else pure c

def setEscape : Reader CharTest := do
  let c ← next
  match (← get).flags.classOf? c with
  | some t => return t
  | none =>
    if c = 'b' then literal '\x08'
    else if isOctal c then
      let more ← takeRun isOctal 2
      let n := ofDigits 8 (c :: more)
      if n > 0o377 then fail else literal (← charOf n)
    else literal (← plainEscape c)

def setMember : Reader CharTest := do
  let c ← next
  if c = '\\' then setEscape else literal c

/-- The members up to the closing bracket. A closing bracket that stands first is a member. -/
def setMembers : (fuel : Nat) → (first : Bool) → Reader (List CharTest)
  | 0, _ => fail
  | fuel + 1, first => do
    let closed ← if first then pure false else accept [']']
    if closed then return []
    let low ← setMember
    match (← get).rest with
    | '-' :: ']' :: _ => return low :: (← setMembers fuel false)
    | '-' :: _ =>
      let _ ← next
      let high ← setMember
      match low, high with
      | .char a folding, .char b _ =>
        if a ≤ b then return .range a b folding :: (← setMembers fuel false) else fail
      | _, _ => fail
    | _ => return low :: (← setMembers fuel false)

def bracketSet : Reader Pattern := do
  let negated ← accept ['^']
  let fuel := (← get).rest.length + 1
  return .oneOf (← setMembers fuel true) negated

/-- A group that can be asked for again: it is closed, and a look back asks for groups before it
only. -/
def closedGroup (number : Nat) : Reader Nat := do
  let s ← get
  if (s.widths.lookup number).isSome && s.outer.all (number ≤ ·) then return number else fail

def groupAgain (number : Nat) : Reader Pattern := do
  return .again (← closedGroup number) (← get).flags.folding

def escape : Reader Pattern := do
  let c ← next
  match (← get).flags.classOf? c with
  | some t => return .oneOf [t] false
  | none =>
    match c with
    | 'A' => return .atStart
    | 'Z' => return .atEnd
    | 'b' => return .atEdge true (← get).flags.ascii
    | 'B' => return .atEdge false (← get).flags.ascii
    | '0' =>
      let more ← takeRun isOctal 2
      literalPattern (← charOf (ofDigits 8 more))
    | _ =>
      if c.isDigit then
        let s ← get
        let digits := c :: (s.rest.take 2)
        if digits.length = 3 && digits.all isOctal then
          let _ ← takeRun isOctal 2
          let n := ofDigits 8 digits
          if n > 0o377 then fail else literalPattern (← charOf n)
        else
          let more ← takeRun Char.isDigit 1
          groupAgain (ofDigits 10 (c :: more))
      else literalPattern (← plainEscape c)

def repetitionLimit : Nat := 4294967295

def repetitions (digits : List Char) : Reader Nat :=
  let n := ofDigits 10 digits
  if n < repetitionLimit then pure n else throw .tooManyTimes

/-- The bounds of a repetition in braces, after the opening brace. Anything else leaves the brace
a character of its own. -/
def bounds? : Reader (Option (Nat × Option Nat)) := do
  let s ← get
  let low ← takeRun Char.isDigit s.rest.length
  let comma ← accept [',']
  let high ← if comma then takeRun Char.isDigit s.rest.length else pure low
  if (← accept ['\x7d']) && (comma || !low.isEmpty) then
    let least ← repetitions low
    let most ← if high.isEmpty then pure none else do pure (some (← repetitions high))
    if most.any (· < least) then fail else return some (least, most)
  else
    set s
    return none

def Flags.change (on : Bool) (f : Flags) : Char → Reader Flags
  | 'i' => return { f with ignoreCase := on }
  | 'm' => return { f with lines := on }
  | 's' => return { f with dotAll := on }
  | 'x' => return { f with verbose := on }
  | 'a' => if on then return { f with ascii := true, unicode := false } else fail
  | 'u' => if on then return { f with ascii := false, unicode := true } else fail
  | _ => fail

def Flags.changeAll (on : Bool) (f : Flags) : List Char → Reader Flags
  | [] => return f
  | c :: cs => do (← f.change on c).changeAll on cs

def isFlagLetter (c : Char) : Bool := "imsxau".toList.contains c

inductive Opening where
  | numbered (number : Nat)
  | plain (flags : Flags)
  | once
  | ahead (matching : Bool)
  | behind (matching : Bool)
  | again (number : Nat)
  | ifGroup (number : Nat)
  | remark
  | flags (flags : Flags)

def newGroup (name : Option String) : Reader Opening := do
  let s ← get
  let number := s.groups + 1
  let names ← match name with
    | none => pure s.names
    | some n =>
      if isIdentifier n && (s.names.lookup n).isNone then pure ((n, number) :: s.names) else fail
  set { s with groups := number, names }
  return .numbered number

def textUpTo (closing : Char) : Reader String := do
  let text ← takeRun (· != closing) (← get).rest.length
  if ← accept [closing] then return String.ofList text else fail

def groupNamed (name : String) : Reader Nat := do
  match (← get).names.lookup name with
  | some n => return n
  | none => fail

/-- The group on which a choice depends, by its name or number. A number may be that of a group to
come, but not in a look back. -/
def conditionGroup : Reader Opening := do
  let name ← textUpTo ')'
  let number ←
    if isIdentifier name then groupNamed name
    else
      match readInteger? name.toList with
      | some n => if 0 < n then pure n.toNat else fail
      | none => fail
  if (← get).outer.isSome then let _ ← closedGroup number
  modify fun s => { s with awaited := max s.awaited number }
  return .ifGroup number

/-- Flags behind an opening parenthesis and a question mark. A minus sign switches off the flags
after it, a colon begins a group. Flags without a group are only switched on, and those of classes
cannot follow each other. -/
def flagsOpening : Reader Opening := do
  let before := (← get).flags
  let limit := (← get).rest.length
  let on ← takeRun isFlagLetter limit
  if on.contains 'a' && on.contains 'u' then fail
  let flags ← before.changeAll true on
  if ← accept [')'] then
    let clash := (before.ascii && on.contains 'u') || (before.unicode && on.contains 'a')
    if on.isEmpty || clash then fail else return .flags flags
  let minus ← accept ['-']
  let off ← if minus then takeRun isFlagLetter limit else pure []
  if on.isEmpty && off.isEmpty || minus && off.isEmpty || off.any on.contains then fail
  let flags ← flags.changeAll false off
  if ← accept [':'] then return .plain flags else fail

def opening : Reader Opening := do
  if !(← accept ['?']) then return ← newGroup none
  if ← accept [':'] then return .plain (← get).flags
  if ← accept ['>'] then return .once
  if ← accept ['='] then return .ahead true
  if ← accept ['!'] then return .ahead false
  if ← accept ['<', '='] then return .behind true
  if ← accept ['<', '!'] then return .behind false
  if ← accept ['#'] then return .remark
  if ← accept ['('] then return ← conditionGroup
  if ← accept ['P', '<'] then return ← newGroup (some (← textUpTo '>'))
  if ← accept ['P', '='] then
    let name ← takeRun (· != ')') (← get).rest.length
    return .again (← closedGroup (← groupNamed (String.ofList name)))
  flagsOpening

/-- A part of a sequence. Anchors and repetitions cannot be repeated. -/
structure Item where
  pattern : Pattern
  repeatable : Bool := true

def joinItems (items : List Item) : Pattern :=
  items.foldl (fun p i => .seq i.pattern p) .empty

def joinBranches : List Pattern → Pattern
  | [] => .empty
  | p :: ps => ps.foldl (fun q r => .alt r q) p

/-- Repeats the last item. A question mark behind the sign prefers fewer times, a plus sign keeps
the most preferred way only. -/
def repeated (items : List Item) (least : Nat) (most : Option Nat) : Reader (List Item) := do
  match items with
  | ⟨p, true⟩ :: before =>
    if ← accept ['?'] then return ⟨.rep p least most false, false⟩ :: before
    else if ← accept ['+'] then return ⟨.once (.rep p least most true), false⟩ :: before
    else return ⟨.rep p least most true, false⟩ :: before
  | _ => fail

def withFlags {α : Type} (flags : Flags) (x : Reader α) : Reader α := do
  let before := (← get).flags
  modify ({ · with flags })
  let result ← x
  modify ({ · with flags := before })
  return result

def withinLookBack {α : Type} (x : Reader α) : Reader α := do
  let before := (← get).outer
  modify fun s => { s with outer := before.or (some s.groups) }
  let result ← x
  modify ({ · with outer := before })
  return result

def Flags.startAnchor (f : Flags) : Pattern := if f.lines then .atLineStart else .atStart

def Flags.endAnchor (f : Flags) : Pattern := if f.lines then .atLineEnd else .atFinalBreak

def Flags.point (f : Flags) : Pattern :=
  .oneOf (if f.dotAll then [] else [.char '\n' .exact]) true

def closeGroup (o : Opening) (body : Pattern) : Reader Pattern := do
  let s ← get
  let width := body.width s.widths
  match o with
  | .numbered n =>
    set { s with widths := (n, width) :: s.widths }
    return .group n body
  | .once => return .once body
  | .ahead matching => return .ahead body matching
  | .behind matching =>
    match width.single? with
    | some n => return .behind n body matching
    | none => fail
  | _ => return body

def closing : Reader Unit := do
  if ← accept [')'] then return else fail

def Opening.bodyFlags (o : Opening) (f : Flags) : Flags :=
  match o with
  | .plain inside => inside
  | _ => f

mutual

/-- Reads a sequence up to a bar, a closing parenthesis or the end, with the items read so far, last
first. Flags for all that follows can only stand at the very start. -/
def sequence : (fuel : Nat) → (first : Bool) → List Item → Reader Pattern
  | 0, _, _ => fail
  | fuel + 1, first, items => do
    match ← peek with
    | none => return joinItems items
    | some ')' => return joinItems items
    | some '|' => return joinItems items
    | some c =>
      let _ ← next
      let flags := (← get).flags
      let add (p : Pattern) (repeatable : Bool) : Reader Pattern :=
        sequence fuel first (⟨p, repeatable⟩ :: items)
      if flags.verbose && isAsciiBlank c then sequence fuel first items
      else if flags.verbose && c == '#' then
        let _ ← takeRun (· != '\n') (← get).rest.length
        sequence fuel first items
      else
        match c with
        | '.' => add flags.point true
        | '^' => add flags.startAnchor false
        | '$' => add flags.endAnchor false
        | '[' => add (← bracketSet) true
        | '*' => sequence fuel first (← repeated items 0 none)
        | '+' => sequence fuel first (← repeated items 1 none)
        | '?' => sequence fuel first (← repeated items 0 (some 1))
        | '\x7b' =>
          match ← bounds? with
          | some (least, most) => sequence fuel first (← repeated items least most)
          | none => add (← literalPattern c) true
        | '\\' =>
          match ← escape with
          | .oneOf tests negated => add (.oneOf tests negated) true
          | .again n folding => add (.again n folding) true
          | p => add p false
        | '(' =>
          match ← opening with
          | .remark =>
            let _ ← textUpTo ')'
            sequence fuel first items
          | .flags flags =>
            if !first || !items.isEmpty then fail
            modify ({ · with flags })
            sequence fuel first items
          | .again n =>
            closing
            add (← groupAgain n) true
          | .ifGroup n =>
            let present ← sequence fuel false []
            let absent ← if ← accept ['|'] then sequence fuel false [] else pure .empty
            closing
            add (.ifGroup n present absent) true
          | o =>
            let read := withFlags (o.bodyFlags flags) (choice fuel false [])
            let body ← match o with
              | .behind _ => withinLookBack read
              | _ => read
            closing
            add (← closeGroup o body) true
        | c => add (← literalPattern c) true

/-- Reads branches up to a closing parenthesis or the end, with the branches read so far, last
first. -/
def choice : (fuel : Nat) → (first : Bool) → List Pattern → Reader Pattern
  | 0, _, _ => fail
  | fuel + 1, first, done => do
    let branch ← sequence fuel first []
    if ← accept ['|'] then choice fuel false (branch :: done)
    else return joinBranches (branch :: done)

end

def whole : Reader Pattern := do
  let pattern ← choice (3 * (← get).rest.length + 3) true []
  let s ← get
  if s.rest.isEmpty && s.awaited ≤ s.groups then return pattern else fail

end PatternReader

end TypeStubs
