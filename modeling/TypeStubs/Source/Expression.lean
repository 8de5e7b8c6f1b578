import TypeStubs.Source.Expr
import TypeStubs.Source.Token

/-! Reading expressions from tokens. The rules of the grammar are given as functions of a reader for
smaller phrases; the reader itself applies them to a bounded depth, which the number of tokens
gives. -/

namespace TypeStubs.Source

abbrev TokenReader := StateT (List Token) Option

namespace TokenReader

def peek : TokenReader (Option Token) := do return (← get).head?

def accept (t : Token) : TokenReader Bool := do
  match ← get with
  | next :: rest => if next = t then set rest; return true else return false
  | [] => return false

def expect (t : Token) : TokenReader Unit := do
  if ← accept t then return else failure

def op (text : String) : TokenReader Bool := accept (.op text)

def word (text : String) : TokenReader Bool := accept (.keyword text)

def name : TokenReader String := do
  match ← get with
  | .name text :: rest => set rest; return text
  | _ => failure

def comes (ts : List Token) : TokenReader Bool := do return (← peek).any ts.contains

/-- Items with commas between them and perhaps a comma behind the last one, up to a token on which
the list ends. Yields the items and whether the last comma stands behind the last item. -/
def items (item : TokenReader α) (stop : TokenReader Bool) :
    (fuel : Nat) → TokenReader (List α × Bool)
  | 0 => failure
  | fuel + 1 => do
    let first ← item
    if ← op "," then
      if ← stop then return ([first], true)
      let (more, trailing) ← items item stop fuel
      return (first :: more, trailing)
    return ([first], false)

def listOf (item : TokenReader α) (stop : TokenReader Bool) : TokenReader (List α × Bool) := do
  items item stop ((← get).length + 1)

def whileTaken (step : TokenReader Bool) : (fuel : Nat) → TokenReader Unit
  | 0 => failure
  | fuel + 1 => do if ← step then whileTaken step fuel

def many (step : TokenReader Bool) : TokenReader Unit := do whileTaken step ((← get).length + 1)

def closes : TokenReader Bool := comes [.op ")", .op "]", .op "\x7d"]

end TokenReader

open TokenReader

/-- The phrases inside which the grammar starts anew. -/
inductive Phrase where
  | expression
  | disjunction
  | inversion
  | bitOr
  | factor
  | primary
deriving DecidableEq

abbrev Rec := Phrase → TokenReader Expr

def namedExpression (rec : Rec) : TokenReader Expr := do
  match ← get with
  | .name _ :: .op ":=" :: rest => set rest; let _ ← rec .expression; return .other
  | _ => rec .expression

def starredOr (rec : Rec) (item : TokenReader Expr) : TokenReader Expr := do
  if ← op "*" then return .starred (← rec .bitOr) else item

/-- Expressions with commas between them; one without a comma is no tuple. -/
def starExpressions (rec : Rec) (stop : TokenReader Bool) : TokenReader Expr := do
  match ← listOf (starredOr rec (rec .expression)) stop with
  | ([e], false) => return e
  | (es, _) => return .tuple es

def yieldRest (rec : Rec) (stop : TokenReader Bool) : TokenReader Expr := do
  if ← word "from" then let _ ← rec .expression; return .other
  if ← stop then return .other
  let _ ← starExpressions rec stop
  return .other

def loopTarget (rec : Rec) (stop : TokenReader Bool) : TokenReader Unit := do
  let item : TokenReader Expr := do
    if ← op "*" then return .starred (← rec .primary) else rec .primary
  let (es, _) ← listOf item stop
  if Expr.areTargets true es then return else failure

def loopClause (rec : Rec) : TokenReader Bool := do
  match ← get with
  | .keyword "for" :: rest => set rest
  | .keyword "async" :: .keyword "for" :: rest => set rest
  | _ => return false
  loopTarget rec (comes [.keyword "in"])
  expect (.keyword "in")
  let _ ← rec .disjunction
  many do
    if ← word "if" then let _ ← rec .disjunction; return true else return false
  return true

/-- The loops of a comprehension, if there are any; says whether there were. -/
def loops (rec : Rec) : TokenReader Bool := do
  let first ← loopClause rec
  if first then many (loopClause rec)
  return first

def parenthesised (rec : Rec) : TokenReader Expr := do
  if ← op ")" then return .tuple []
  if ← word "yield" then
    let e ← yieldRest rec closes
    expect (.op ")")
    return e
  let first ← starredOr rec (namedExpression rec)
  if ← op ")" then
    match first with
    | .starred _ => failure
    | e => return e
  if ← loops rec then
    expect (.op ")")
    match first with
    | .starred _ => failure
    | _ => return .other
  expect (.op ",")
  if ← op ")" then return .tuple [first]
  let (more, _) ← listOf (starredOr rec (namedExpression rec)) closes
  expect (.op ")")
  return .tuple (first :: more)

def bracketed (rec : Rec) : TokenReader Expr := do
  if ← op "]" then return .list []
  let first ← starredOr rec (namedExpression rec)
  if ← loops rec then
    expect (.op "]")
    match first with
    | .starred _ => failure
    | _ => return .other
  if ← op "]" then return .list [first]
  expect (.op ",")
  if ← op "]" then return .list [first]
  let (more, _) ← listOf (starredOr rec (namedExpression rec)) closes
  expect (.op "]")
  return .list (first :: more)

def dictEntry (rec : Rec) : TokenReader (Option Expr × Expr) := do
  if ← op "**" then return (none, ← rec .bitOr)
  let key ← rec .expression
  expect (.op ":")
  return (some key, ← rec .expression)

def dictRest (rec : Rec) (first : Option Expr × Expr) : TokenReader Expr := do
  if ← op "\x7d" then return .dict [first]
  expect (.op ",")
  if ← op "\x7d" then return .dict [first]
  let (more, _) ← listOf (dictEntry rec) closes
  expect (.op "\x7d")
  return .dict (first :: more)

def dictFromKey (rec : Rec) (key : Expr) : TokenReader Expr := do
  expect (.op ":")
  let value ← rec .expression
  if ← loops rec then
    expect (.op "\x7d")
    return .other
  dictRest rec (some key, value)

def setRest (rec : Rec) (first : Expr) : TokenReader Expr := do
  if ← loops rec then
    expect (.op "\x7d")
    match first with
    | .starred _ => failure
    | _ => return .other
  if ← op "\x7d" then return .set [first]
  expect (.op ",")
  if ← op "\x7d" then return .set [first]
  let (more, _) ← listOf (starredOr rec (namedExpression rec)) closes
  expect (.op "\x7d")
  return .set (first :: more)

/-- The next tokens give a name the value of an expression. -/
def assignmentComes : TokenReader Bool := do
  match ← get with
  | .name _ :: .op ":=" :: _ => return true
  | _ => return false

/-- What stands between braces: a dictionary if a colon follows the first expression, else a set. -/
def braced (rec : Rec) : TokenReader Expr := do
  if ← op "\x7d" then return .dict []
  if ← comes [.op "**"] then
    let first ← dictEntry rec
    return ← dictRest rec first
  let named ← assignmentComes
  match ← starredOr rec (namedExpression rec) with
  | .starred e => setRest rec (.starred e)
  | e => if !named && (← comes [.op ":"]) then dictFromKey rec e else setRest rec e

def strings (first : StringLiteral) : TokenReader Expr := do
  let more := (← get).takeWhile fun | .string _ => true | _ => false
  modify (·.drop more.length)
  let all := first :: more.filterMap fun | .string s => some s | _ => none
  if all.all (·.bytes) then return .constant .bytes
  if all.any (·.bytes) then failure
  return if all.any (·.formatted) then .other else .constant .text

def atom (rec : Rec) : TokenReader Expr := do
  match ← get with
  | t :: rest =>
    set rest
    match t with
    | .name text => return .name text
    | .number .integer => return .constant .integer
    | .number .float => return .constant .float
    | .number .imaginary => return .constant .imaginary
    | .string s => strings s
    | .op "..." => return .constant .symbol
    | .keyword "True" => return .constant .symbol
    | .keyword "False" => return .constant .symbol
    | .keyword "None" => return .constant .symbol
    | .op "(" => parenthesised rec
    | .op "[" => bracketed rec
    | .op "\x7b" => braced rec
    | _ => failure
  | [] => failure

inductive ArgumentKind where
  | positional
  | starred
  | keyword
  | doubleStarred
deriving DecidableEq

def callArgument (rec : Rec) : TokenReader ArgumentKind := do
  if ← op "**" then let _ ← rec .expression; return .doubleStarred
  if ← op "*" then let _ ← rec .expression; return .starred
  match ← get with
  | .name _ :: .op "=" :: rest => set rest; let _ ← rec .expression; return .keyword
  | _ => let _ ← namedExpression rec; return .positional

/-- No positional argument follows a keyword, and after a double star only keywords and double stars
follow. -/
def argumentsInOrder (kinds : List ArgumentKind) : Bool :=
  let named := kinds.dropWhile fun k => k == .positional || k == .starred
  !named.contains .positional &&
    !(named.dropWhile (· != .doubleStarred)).contains .starred

def callArguments (rec : Rec) : TokenReader Bool := do
  if ← op ")" then return false
  let (kinds, trailing) ← listOf (callArgument rec) closes
  if kinds = [.positional] && !trailing then
    let _ ← loops rec
  expect (.op ")")
  if argumentsInOrder kinds then return true else failure

def sliceRest (rec : Rec) : TokenReader Unit := do
  let bound : TokenReader Unit := do
    unless ← comes [.op ":", .op ",", .op "]"] do let _ ← rec .expression
  bound
  if ← op ":" then bound

def subscript (rec : Rec) : TokenReader Unit := do
  if ← op "*" then let _ ← rec .expression; return
  if ← op ":" then return ← sliceRest rec
  let named ← assignmentComes
  let _ ← namedExpression rec
  if !named then if ← op ":" then sliceRest rec

def trailer (rec : Rec) (e : Expr) : TokenReader (Option Expr) := do
  if ← op "." then
    let _ ← name
    return some .access
  if ← op "(" then return some (.call e (← callArguments rec))
  if ← op "[" then
    let _ ← listOf (subscript rec) closes
    expect (.op "]")
    return some .access
  return none

def trailers (rec : Rec) : (fuel : Nat) → Expr → TokenReader Expr
  | 0, _ => failure
  | fuel + 1, e => do
    match ← trailer rec e with
    | some e => trailers rec fuel e
    | none => return e

def primary (rec : Rec) : TokenReader Expr := do
  let e ← atom rec
  trailers rec ((← get).length + 1) e

def power (rec : Rec) : TokenReader Expr := do
  let base ← if ← word "await" then do let _ ← primary rec; pure .other else primary rec
  if ← op "**" then return .binary "**" base (← rec .factor)
  return base

def factor (rec : Rec) : TokenReader Expr := do
  for sign in ["+", "-", "~"] do
    if ← op sign then return .unary sign (← rec .factor)
  power rec

def oneOf (ops : List String) : TokenReader (Option String) := do
  match ← get with
  | .op text :: rest => if ops.contains text then set rest; return some text else return none
  | _ => return none

def chain (ops : List String) (operand : TokenReader Expr) : (fuel : Nat) → Expr → TokenReader Expr
  | 0, _ => failure
  | fuel + 1, left => do
    match ← oneOf ops with
    | some o => chain ops operand fuel (.binary o left (← operand))
    | none => return left

def level (ops : List String) (operand : TokenReader Expr) : TokenReader Expr := do
  let first ← operand
  chain ops operand ((← get).length + 1) first

/-- The binary operators below comparisons, from the tightest to the loosest. -/
def bitOr (rec : Rec) : TokenReader Expr :=
  level ["|"] <| level ["^"] <| level ["&"] <| level ["<<", ">>"] <| level ["+", "-"] <|
    level ["*", "/", "//", "%", "@"] <| factor rec

def comparisonOperator : TokenReader Bool := do
  match ← get with
  | .op text :: rest =>
    if ["==", "!=", "<=", "<", ">=", ">"].contains text then set rest; return true
    else return false
  | .keyword "not" :: .keyword "in" :: rest => set rest; return true
  | .keyword "in" :: rest => set rest; return true
  | .keyword "is" :: .keyword "not" :: rest => set rest; return true
  | .keyword "is" :: rest => set rest; return true
  | _ => return false

/-- A first operand with perhaps more of them behind it; more make another expression. -/
def joined (operand : TokenReader Expr) (joint : TokenReader Bool) : TokenReader Expr := do
  let first ← operand
  if ← joint then
    let _ ← operand
    many do if ← joint then let _ ← operand; return true else return false
    return .other
  return first

def inversion (rec : Rec) : TokenReader Expr := do
  if ← word "not" then
    let _ ← rec .inversion
    return .other
  joined (bitOr rec) comparisonOperator

def disjunction (rec : Rec) : TokenReader Expr :=
  joined (joined (inversion rec) (word "and")) (word "or")

inductive ParameterPlace where
  /-- Before a slash or star; whether a parameter and a default were seen. -/
  | ordinary (any default slash : Bool)
  /-- Behind a star; a bare one needs a parameter. -/
  | keywords (needed : Bool)
  | done
deriving DecidableEq

/-- One parameter with its mark. `hint` reads what may follow its name, `starHint` what may follow
the name of a starred one. -/
def parameter (rec : Rec) (hint starHint : TokenReader Unit) (place : ParameterPlace) :
    TokenReader ParameterPlace := do
  let defaulted : TokenReader Bool := do
    if ← op "=" then let _ ← rec .expression; return true else return false
  if ← op "/" then
    match place with
    | .ordinary true d false => return .ordinary true d true
    | _ => failure
  if ← op "**" then
    let _ ← name
    hint
    match place with
    | .ordinary .. => return .done
    | .keywords false => return .done
    | _ => failure
  if ← op "*" then
    match place with
    | .ordinary .. =>
      match ← get with
      | .name _ :: rest =>
        set rest
        starHint
        return .keywords false
      | .op "," :: _ => return .keywords true
      | _ => failure
    | _ => failure
  let _ ← name
  hint
  let d ← defaulted
  match place with
  | .ordinary _ before slash =>
    if before && !d then failure else return .ordinary true (before || d) slash
  | .keywords _ => return .keywords false
  | .done => failure

def parametersFrom (rec : Rec) (hint starHint : TokenReader Unit) (stop : Token) :
    (fuel : Nat) → ParameterPlace → TokenReader Unit
  | 0, _ => failure
  | fuel + 1, place => do
    if ← comes [stop] then
      if place = .keywords true then failure else return
    let place ← parameter rec hint starHint place
    if ← op "," then parametersFrom rec hint starHint stop fuel place
    else if place = .keywords true then failure
    else return

def parameters (rec : Rec) (hint starHint : TokenReader Unit) (stop : Token) :
    TokenReader Unit := do
  parametersFrom rec hint starHint stop ((← get).length + 1) (.ordinary false false false)

def expression (rec : Rec) : TokenReader Expr := do
  if ← word "lambda" then
    parameters rec (pure ()) (pure ()) (.op ":")
    expect (.op ":")
    let _ ← rec .expression
    return .other
  let e ← disjunction rec
  if ← word "if" then
    let _ ← disjunction rec
    expect (.keyword "else")
    let _ ← rec .expression
    return .other
  return e

def rules (rec : Rec) : Rec
  | .expression => expression rec
  | .disjunction => disjunction rec
  | .inversion => inversion rec
  | .bitOr => bitOr rec
  | .factor => factor rec
  | .primary => primary rec

def phrase : (depth : Nat) → Rec
  | 0 => fun _ => failure
  | depth + 1 => rules (phrase depth)

/-- A reader for all phrases of the tokens at hand. Every rule takes a token before the grammar
starts anew inside it, so the number of tokens bounds the depth. -/
def anyPhrase : Rec := fun p => do phrase ((← get).length + 1) p

end TypeStubs.Source
