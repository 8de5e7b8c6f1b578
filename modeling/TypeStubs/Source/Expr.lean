/-! Expressions of Python source text, as far as their shape matters: which of them can be assigned
to, and which are literals. -/

namespace TypeStubs.Source

inductive Constant where
  | integer
  | float
  | imaginary
  | text
  | bytes
  /-- A truth value, `None` or the ellipsis. -/
  | symbol
deriving DecidableEq

/-- An expression. Parentheses leave no trace. -/
inductive Expr where
  | name (text : String)
  | constant (c : Constant)
  | tuple (items : List Expr)
  | list (items : List Expr)
  | set (items : List Expr)
  /-- The keys and the values of a display; an unpacked mapping has no key. -/
  | dict (entries : List (Option Expr × Expr))
  | unary (op : String) (e : Expr)
  | binary (op : String) (left right : Expr)
  | call (f : Expr) (hasArguments : Bool)
  | access
  | starred (e : Expr)
  /-- Any other expression: none of them can be assigned to or is a literal. -/
  | other

mutual

/-- Can be assigned to, if `stars` also to a starred name. -/
def Expr.isTarget (stars : Bool) : Expr → Bool
  | .name _ => true
  | .access => true
  | .tuple items => Expr.areTargets stars items
  | .list items => Expr.areTargets stars items
  | .starred e => stars && (match e with | .starred _ => false | e => e.isTarget stars)
  | _ => false

def Expr.areTargets (stars : Bool) : List Expr → Bool
  | [] => true
  | e :: es => e.isTarget stars && Expr.areTargets stars es

end

def Expr.isSingleTarget : Expr → Bool
  | .name _ => true
  | .access => true
  | _ => false

def Expr.number? : Expr → Option Bool
  | .constant .integer => some false
  | .constant .float => some false
  | .constant .imaginary => some true
  | _ => none

def Expr.signedNumber? : Expr → Option Bool
  | .unary op e => if op = "+" || op = "-" then e.number? else none
  | e => e.number?

mutual

/-- Whether the value of a literal can be a key of a dictionary; nothing if the expression is no
literal or has no value. -/
def Expr.literalKey? : Expr → Option Bool
  | .constant _ => some true
  | .tuple items => Expr.literalKeys? items
  | .list items => (Expr.literalKeys? items).map fun _ => false
  | .set items => do if ← Expr.literalKeys? items then some false else none
  | .call (.name f) hasArguments => if f = "set" && !hasArguments then some false else none
  | .dict entries => do if ← Expr.literalEntries? entries then some false else none
  | .binary op left right =>
    if op = "+" || op = "-" then
      match left.signedNumber?, right.number? with
      | some false, some true => some true
      | _, _ => none
    else none
  | .unary op e => (Expr.unary op e).signedNumber?.map fun _ => true
  | _ => none

def Expr.literalKeys? : List Expr → Option Bool
  | [] => some true
  | e :: es => do
    let first ← e.literalKey?
    let rest ← Expr.literalKeys? es
    return first && rest

def Expr.literalEntries? : List (Option Expr × Expr) → Option Bool
  | [] => some true
  | (none, _) :: _ => none
  | (some key, value) :: entries => do
    let first ← key.literalKey?
    let _ ← value.literalKey?
    let rest ← Expr.literalEntries? entries
    return first && rest

end

def Expr.isLiteral (e : Expr) : Bool := e.literalKey?.isSome

end TypeStubs.Source
