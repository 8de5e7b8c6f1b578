import TypeStubs.Source.Expression

/-! Reading statements from tokens. -/

namespace TypeStubs.Source

open TokenReader

def statementEnds : TokenReader Bool := comes [.newline, .op ";"]

/-- The list of an expression statement or of the right side of an assignment ends here. -/
def expressionsEnd : TokenReader Bool := comes [.newline, .op ";", .op "=", .op ":", .op ")"]

def expressions : TokenReader Expr := starExpressions anyPhrase expressionsEnd

def yieldOrExpressions : TokenReader Expr := do
  if ← word "yield" then yieldRest anyPhrase expressionsEnd else expressions

def updateOperators : List String :=
  ["+=", "-=", "*=", "@=", "/=", "%=", "&=", "|=", "^=", "<<=", ">>=", "**=", "//="]

/-- The right sides of an assignment; all but the last one are targets. -/
def assigned : (fuel : Nat) → TokenReader Unit
  | 0 => failure
  | fuel + 1 => do
    let yielded ← comes [.keyword "yield"]
    let e ← yieldOrExpressions
    if ← op "=" then
      if yielded || !e.isTarget true then failure
      assigned fuel

def assignment : TokenReader Unit := do
  let yielded ← comes [.keyword "yield"]
  let e ← yieldOrExpressions
  if ← op "=" then
    if yielded || !e.isTarget true then failure
    assigned ((← get).length + 1)
  else if ← op ":" then
    if yielded || !e.isSingleTarget then failure
    let _ ← anyPhrase .expression
    if ← op "=" then let _ ← yieldOrExpressions
  else if (← oneOf updateOperators).isSome then
    if yielded || !e.isSingleTarget then failure
    let _ ← yieldOrExpressions

def dottedName : TokenReader Unit := do
  let _ ← name
  many do if ← op "." then let _ ← name; return true else return false

def newName : TokenReader Unit := do
  if ← word "as" then let _ ← name

def importModules : TokenReader Unit := do
  let (_, trailing) ← listOf (do dottedName; newName) statementEnds
  if trailing then failure

def importMembers : TokenReader Unit := do
  let before := (← get).length
  many do if ← op "." then return true else op "..."
  let dots := (← get).length < before
  unless dots && (← comes [.keyword "import"]) do dottedName
  expect (.keyword "import")
  if ← op "*" then return
  let member : TokenReader Unit := do let _ ← name; newName
  if ← op "(" then
    let _ ← listOf member closes
    expect (.op ")")
  else
    let (_, trailing) ← listOf member statementEnds
    if trailing then failure

def names : TokenReader Unit := do
  let (_, trailing) ← listOf name statementEnds
  if trailing then failure

def deletion : TokenReader Unit := do
  let (es, _) ← listOf (anyPhrase .primary) statementEnds
  unless Expr.areTargets false es && (← statementEnds) do failure

def simpleStatement : TokenReader Unit := do
  match ← get with
  | .keyword k :: rest =>
    let go (p : TokenReader Unit) : TokenReader Unit := do set rest; p
    match k with
    | "pass" | "break" | "continue" => go (pure ())
    | "return" => go do unless ← statementEnds do let _ ← expressions
    | "raise" => go do
      unless ← statementEnds do
        let _ ← anyPhrase .expression
        if ← word "from" then let _ ← anyPhrase .expression
    | "global" | "nonlocal" => go names
    | "del" => go deletion
    | "assert" => go do
      let _ ← anyPhrase .expression
      if ← op "," then let _ ← anyPhrase .expression
    | "import" => go importModules
    | "from" => go importMembers
    | _ => assignment
  | _ => assignment

/-- Statements of one line with semicolons between them, up to the end of the line. -/
def simpleStatements : (fuel : Nat) → TokenReader Unit
  | 0 => failure
  | fuel + 1 => do
    simpleStatement
    if ← op ";" then
      if ← accept .newline then return
      simpleStatements fuel
    else expect .newline

def line : TokenReader Unit := do simpleStatements ((← get).length + 1)

def parameterHint : TokenReader Unit := do
  if ← op ":" then let _ ← anyPhrase .expression

def starParameterHint : TokenReader Unit := do
  if ← op ":" then let _ ← starredOr anyPhrase (anyPhrase .expression)

def context : TokenReader Unit := do
  let _ ← anyPhrase .expression
  if ← word "as" then
    let e ← if ← op "*" then failure else anyPhrase .primary
    unless e.isTarget true do failure

def contexts : TokenReader Unit :=
  (do
    expect (.op "(")
    let _ ← listOf context closes
    expect (.op ")")
    expect (.op ":")) <|>
  (do
    let (_, trailing) ← listOf context (comes [.op ":"])
    if trailing then failure
    expect (.op ":"))

def loopHead : TokenReader Unit := do
  loopTarget anyPhrase (comes [.keyword "in"])
  expect (.keyword "in")
  let _ ← starExpressions anyPhrase (comes [.op ":"])
  expect (.op ":")

def condition : TokenReader Unit := do
  let _ ← namedExpression anyPhrase
  expect (.op ":")

def functionHead : TokenReader Unit := do
  let _ ← name
  expect (.op "(")
  parameters anyPhrase parameterHint starParameterHint (.op ")")
  expect (.op ")")
  if ← op "->" then let _ ← anyPhrase .expression
  expect (.op ":")

/-- The head of a class, after the keyword. A comprehension is no base. -/
def classHead : TokenReader Unit := do
  let _ ← name
  if ← op "(" then
    unless ← op ")" do
      let (kinds, _) ← listOf (callArgument anyPhrase) closes
      expect (.op ")")
      unless argumentsInOrder kinds do failure
  expect (.op ":")

def handlerHead : TokenReader Unit := do
  let _ ← anyPhrase .expression
  newName
  expect (.op ":")

def block (statement : TokenReader Unit) : TokenReader Unit := do
  if ← accept .newline then
    expect .indent
    statement
    many do
      if ← accept .dedent then return false
      statement
      return true
  else line

def elseBlock (statement : TokenReader Unit) : TokenReader Unit := do
  if ← word "else" then
    expect (.op ":")
    block statement

def handlers (statement : TokenReader Unit) : TokenReader Unit := do
  let before := (← get).length
  let starred := match ← get with | .keyword "except" :: .op "*" :: _ => true | _ => false
  many do
    if ← word "except" then
      if starred then
        expect (.op "*")
        handlerHead
      else unless ← op ":" do handlerHead
      block statement
      return true
    return false
  let handled := (← get).length < before
  if handled then elseBlock statement
  if ← word "finally" then
    expect (.op ":")
    block statement
  else unless handled do failure

def decorators : TokenReader Bool := do
  let before := (← get).length
  many do
    if ← op "@" then
      let _ ← namedExpression anyPhrase
      expect .newline
      return true
    return false
  return (← get).length < before

def statementRule (statement : TokenReader Unit) : TokenReader Unit := do
  let decorated ← decorators
  let coroutine ← word "async"
  match ← get with
  | .keyword k :: rest =>
    let go (p : TokenReader Unit) : TokenReader Unit := do set rest; p
    if decorated && k != "def" && (coroutine || k != "class") then failure
    if coroutine && k != "def" && k != "for" && k != "with" then failure
    match k with
    | "def" => go do functionHead; block statement
    | "class" => go do classHead; block statement
    | "if" => go do
      condition
      block statement
      many do
        if ← word "elif" then
          condition
          block statement
          return true
        return false
      elseBlock statement
    | "while" => go do condition; block statement; elseBlock statement
    | "for" => go do loopHead; block statement; elseBlock statement
    | "with" => go do contexts; block statement
    | "try" => go do expect (.op ":"); block statement; handlers statement
    | _ => line
  | _ => if decorated || coroutine then failure else line

def statement : (depth : Nat) → TokenReader Unit
  | 0 => failure
  | depth + 1 => statementRule (statement depth)

def statements : (fuel : Nat) → TokenReader Unit
  | 0 => failure
  | fuel + 1 => do
    if (← get).isEmpty then return
    statement ((← get).length + 1)
    statements fuel

end TypeStubs.Source
