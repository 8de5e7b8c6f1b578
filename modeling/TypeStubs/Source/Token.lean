/-! The tokens of Python source text. -/

namespace TypeStubs.Source

inductive NumberKind where
  | integer
  | float
  | imaginary
deriving DecidableEq

structure StringLiteral where
  raw : Bool
  bytes : Bool
  formatted : Bool
  body : List Char
deriving DecidableEq

/-- A token. Newlines, indents and dedents are there only where they divide statements. -/
inductive Token where
  | name (text : String)
  | keyword (text : String)
  | number (kind : NumberKind)
  | string (literal : StringLiteral)
  | op (text : String)
  | newline
  | indent
  | dedent
deriving DecidableEq

def keywords : List String :=
  ["False", "None", "True", "and", "as", "assert", "async", "await", "break", "class", "continue",
    "def", "del", "elif", "else", "except", "finally", "for", "from", "global", "if", "import",
    "in", "is", "lambda", "nonlocal", "not", "or", "pass", "raise", "return", "try", "while",
    "with", "yield"]

def operators : List String :=
  ["**=", "//=", ">>=", "<<=", "...", "!=", "%=", "&=", "**", "*=", "+=", "-=", "->", "//", "/=",
    ":=", "<<", "<=", "==", ">=", ">>", "@=", "^=", "|=", "%", "&", "(", ")", "*", "+", ",", "-",
    ".", "/", ":", ";", "<", "=", ">", "@", "[", "]", "^", "\x7b", "|", "\x7d", "~"]

end TypeStubs.Source
