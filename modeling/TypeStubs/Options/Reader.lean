import TypeStubs.Options.Flag

/-! Reading a command line. First every argument is told apart by its own text, then the arguments
are taken from left to right. -/

namespace TypeStubs

inductive CommandPart where
  | plain (text : String)
  | mark
  | flag (f : Flag) (value : Option String)
  | letters (f : Flag) (more : List Char)
  | unknown (text : String)
deriving DecidableEq

namespace CommandPart

/-- The argument as it was written. A flag is never left over. -/
def text : CommandPart → String
  | plain s => s
  | mark => "--"
  | flag f _ => f.title
  | letters f _ => f.title
  | unknown s => s

def withoutFinalBreak (cs : List Char) : List Char :=
  if cs.getLast? = some '\n' then cs.dropLast else cs

/-- Digits, with a point among them or in front of the last ones, after a minus sign. One line feed
may follow. -/
def isNegativeNumber (cs : List Char) : Bool :=
  match cs with
  | '-' :: number =>
    match (withoutFinalBreak number).span isDecimal with
    | ([], '.' :: after) => !after.isEmpty && after.all isDecimal
    | ([], _) => false
    | (_, []) => true
    | (_, '.' :: after) => !after.isEmpty && after.all isDecimal
    | _ => false
  | _ => false

def splitAtEquals (cs : List Char) : List Char × Option (List Char) :=
  match cs.span (· != '=') with
  | (name, _ :: value) => (name, some value)
  | (name, []) => (name, none)

/-- A flag with a text joined to it. A flag of one letter that takes no value can have more letters
behind it. -/
def joined (spelling : String) (f : Flag) (more : List Char) : CommandPart :=
  if f.takesValue || hasFront "--" spelling then flag f (some (String.ofList more))
  else letters f more

/-- The flags that a shortened text may stand for: long flags that start with it, or a flag of one
letter with its value, or with more letters, right behind it. -/
def candidates (cs : List Char) : List (String × CommandPart) :=
  match cs with
  | '-' :: '-' :: _ =>
    let (name, value) := splitAtEquals cs
    (Flag.table.filter fun e => name.isPrefixOf e.1.toList).map fun e =>
      (e.1, flag e.2 (value.map String.ofList))
  | _ =>
    Flag.table.filterMap fun e =>
      if e.1.toList = cs.take 2 then some (e.1, joined e.1 e.2 (cs.drop 2))
      else if cs.isPrefixOf e.1.toList then some (e.1, flag e.2 none)
      else none

def ofText (s : String) : Except OptionError CommandPart :=
  let cs := s.toList
  let (name, value) := splitAtEquals cs
  match cs, Flag.table.lookup s, value, Flag.table.lookup (String.ofList name) with
  | '-' :: _, some f, _, _ => .ok (flag f none)
  | ['-'], _, _, _ => .ok (plain s)
  | '-' :: _, none, some v, some f => .ok (joined (String.ofList name) f v)
  | '-' :: _, _, _, _ =>
    match candidates cs with
    | [(_, part)] => .ok part
    | [] =>
      if isNegativeNumber cs || cs.contains ' ' then .ok (plain s) else .ok (unknown s)
    | several => .error (.ambiguous s (several.map (·.1)))
  | _, _, _, _ => .ok (plain s)

def ofTexts : List String → Except OptionError (List CommandPart)
  | [] => .ok []
  | "--" :: rest => .ok (mark :: rest.map plain)
  | s :: rest => do
    let part ← ofText s
    return part :: (← ofTexts rest)

end CommandPart

namespace CommandLine

structure Taken where
  line : CommandLine := {}
  moduleName : Option String := none
  left : List String := []

def Taken.apply (t : Taken) (f : Flag) (given : Given String) : Except OptionError Taken := do
  return { t with line := (← f.apply given t.line) }

def Taken.applyJoined (t : Taken) (f : Flag) (value : String) : Except OptionError Taken :=
  t.apply f (if value = "--" then .nothing else .value value)

def Taken.leave (t : Taken) (text : String) : Taken := { t with left := t.left ++ [text] }

/-- What becomes of letters behind a flag of one letter: each has to be a flag of one letter, too,
up to one that takes a value. The first flag asks for help, so the letters only matter if something
is wrong with them. -/
def lettersError (f : Flag) (valueFollows : Bool) : List Char → OptionError
  | [] => .help
  | c :: cs =>
    match Flag.table.lookup (String.ofList ['-', c]) with
    | none => .valueIgnored f (String.ofList (c :: cs))
    | some g =>
      if g.takesValue then if cs.isEmpty && !valueFollows then .valueExpected g else .help
      else lettersError g valueFollows cs

def plainFollows : List CommandPart → Bool
  | .plain _ :: _ => true
  | _ => false

/-- Takes the arguments from left to right. The first plain argument is the module name, and a mark
next to it is dropped. -/
def take (t : Taken) : List CommandPart → Except OptionError Taken
  | [] => .ok t
  | .mark :: .plain s :: rest =>
    match t.moduleName with
    | none => take { t with moduleName := some s } rest
    | some _ => take ((t.leave "--").leave s) rest
  | .mark :: rest => take (t.leave "--") rest
  | .plain s :: .mark :: rest =>
    match t.moduleName with
    | none => take { t with moduleName := some s } rest
    | some _ => take ((t.leave s).leave "--") rest
  | .plain s :: rest =>
    match t.moduleName with
    | none => take { t with moduleName := some s } rest
    | some _ => take (t.leave s) rest
  | .unknown s :: rest => take (t.leave s) rest
  | .flag f none :: rest =>
    if f.takesValue then
      match rest with
      | .plain v :: rest => do take (← t.apply f (.value v)) rest
      | _ => .error (.valueExpected f)
    else do take (← t.apply f .nothing) rest
  | .flag f (some v) :: rest =>
    if f.takesValue then do take (← t.applyJoined f v) rest else .error (.valueIgnored f v)
  | .letters f [] :: _ => .error (.valueIgnored f "")
  | .letters f cs :: rest => .error (lettersError f (plainFollows rest) cs)

def ofArguments (arguments : List String) : Except OptionError CommandLine := do
  let t ← take {} (← CommandPart.ofTexts arguments)
  match t.moduleName with
  | none => throw .moduleMissing
  | some name =>
    if t.left.isEmpty then return { t.line with moduleName := name }
    else throw (.unrecognized t.left)

end CommandLine

end TypeStubs
