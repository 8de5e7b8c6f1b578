import TypeStubs.CharSet.Blank
import TypeStubs.Source.Statement
import TypeStubs.Source.StringLiteral

/-! Which texts are Python source: whole modules, and single literals. -/

namespace TypeStubs.Source

/-- The tokens of a text whose string literals are well-formed. `depth` bounds how deep formatted
strings are nested in their fields. -/
def tokens? : (depth : Nat) → List Char → Option (List Token)
  | 0, _ => none
  | depth + 1, text => do
    let tokens ← lex? text
    let isExpression (cs : List Char) : Bool :=
      match tokens? depth cs with
      | some ts => (((do
          let _ ← starExpressions anyPhrase expressionsEnd
          TokenReader.expect .newline) : TokenReader Unit).run ts).isSome
      | none => false
    let wellFormed := tokens.all fun
      | .string s => s.valid isExpression
      | _ => true
    if wellFormed then some tokens else none

/-- The text is a module. Nothing but brackets has a limit to its depth, all names of characters are
taken to exist, and no statement matches patterns. -/
def isModule (text : List Char) : Bool :=
  match tokens? (text.length + 1) text with
  | some ts => ((statements (ts.length + 1)).run ts).isSome
  | none => false

def readExpression : TokenReader Expr := do
  let (es, trailing) ← TokenReader.listOf (anyPhrase .expression) (TokenReader.comes [.newline])
  TokenReader.expect .newline
  if (← get).isEmpty then
    match es, trailing with
    | [e], false => return e
    | _, _ => return .tuple es
  else failure

def isLiteral (text : List Char) : Bool :=
  match tokens? (text.length + 1) text with
  | some ts =>
    match readExpression.run ts with
    | some (e, _) => e.isLiteral
    | none => false
  | none => false

end TypeStubs.Source
