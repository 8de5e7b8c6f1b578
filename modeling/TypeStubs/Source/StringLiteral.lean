import TypeStubs.Source.Lexer

/-! Which string literals are well-formed: the escapes of plain and byte strings, and the
replacement fields of formatted strings. -/

namespace TypeStubs.Source

def hexPrefix (n : Nat) (cs : List Char) : Bool :=
  (cs.take n).length == n && (cs.take n).all isHexDigit

def hexNumber (cs : List Char) : Nat :=
  cs.foldl (fun n c => n * 16 +
    (if c.isDigit then c.toNat - 48 else if c ≤ 'F' then c.toNat - 55 else c.toNat - 87)) 0

def escapesValid : List Char → Bool
  | [] => true
  | '\\' :: 'x' :: cs => hexPrefix 2 cs && escapesValid cs
  | '\\' :: 'u' :: cs => hexPrefix 4 cs && escapesValid cs
  | '\\' :: 'U' :: cs => hexPrefix 8 cs && hexNumber (cs.take 8) ≤ 0x10FFFF && escapesValid cs
  | '\\' :: 'N' :: cs =>
    match cs with
    | '\x7b' :: rest =>
      let name := rest.takeWhile (· != '\x7d')
      !name.isEmpty && name.length < rest.length && escapesValid cs
    | _ => false
  | '\\' :: _ :: cs => escapesValid cs
  | _ :: cs => escapesValid cs

def byteEscapesValid : List Char → Bool
  | [] => true
  | '\\' :: 'x' :: cs => hexPrefix 2 cs && byteEscapesValid cs
  | '\\' :: _ :: cs => byteEscapesValid cs
  | _ :: cs => byteEscapesValid cs

/-- The literal part of a formatted string up to a brace that opens a field or, in a format, closes
it: the part, and the rest from that brace on. Doubled braces outside of formats are literal. -/
def literalPart (raw inFormat : Bool) : (fuel : Nat) → List Char → Option (List Char × List Char)
  | 0, _ => none
  | _ + 1, [] => some ([], [])
  | fuel + 1, c :: cs =>
    let keep (taken : List Char) (rest : List Char) := do
      let (more, rest) ← literalPart raw inFormat fuel rest
      return (taken ++ more, rest)
    if c == '\\' && !raw then
      match cs with
      | 'N' :: '\x7b' :: rest =>
        let name := rest.takeWhile (· != '\x7d')
        keep (c :: 'N' :: '\x7b' :: (name ++ (rest.drop name.length).take 1))
          (rest.drop (name.length + 1))
      | 'N' :: rest => keep [c, 'N'] rest
      | '\x7b' :: rest => keep [c] ('\x7b' :: rest)
      | '\x7d' :: rest => keep [c] ('\x7d' :: rest)
      | d :: rest => keep [c, d] rest
      | [] => keep [c] []
    else if c == '\x7b' || c == '\x7d' then
      if inFormat then some ([], c :: cs)
      else match cs with
        | d :: rest =>
          if d == c then keep [c] rest
          else if c == '\x7d' then none
          else some ([], c :: cs)
        | [] => if c == '\x7d' then none else some ([], [c])
    else keep [c] cs

/-- The expression of a field: its text and the rest from the character that ends it. The
brackets that are due come innermost first, and the quote of a string that is open with its
length. Backslashes and comments are not allowed. -/
def fieldExpression : (brackets : List Char) → (quote : Option (Char × Nat)) → (fuel : Nat) →
    List Char → Option (List Char × List Char)
  | _, _, 0, _ => none
  | _, _, _ + 1, [] => none
  | brackets, quote, fuel + 1, c :: cs =>
    let step (brackets : List Char) (quote : Option (Char × Nat)) (n : Nat) := do
      let (more, rest) ← fieldExpression brackets quote fuel (cs.drop n)
      return (c :: cs.take n ++ more, rest)
    let tripled := [c, c].isPrefixOf cs
    match quote with
    | some (q, size) =>
      if c == '\\' then none
      else if c == q && (size == 1 || tripled) then step brackets none (size - 1)
      else step brackets quote 0
    | none =>
      if c == '\\' || c == '#' then none
      else if c == '\'' || c == '"' then
        if tripled then step brackets (some (c, 3)) 2 else step brackets (some (c, 1)) 0
      else if c == '(' then step (')' :: brackets) none 0
      else if c == '[' then step (']' :: brackets) none 0
      else if c == '\x7b' then step ('\x7d' :: brackets) none 0
      else if brackets.isEmpty && ['!', '=', '<', '>'].contains c && cs.head? == some '=' then
        step brackets none 1
      else if brackets.isEmpty && ['!', ':', '\x7d', '='].contains c then some ([], c :: cs)
      else if [')', ']', '\x7d'].contains c then
        match brackets with
        | due :: rest => if due == c then step rest none 0 else none
        | [] => none
      else step brackets none 0

/-- An expression of a field holds more than blanks. -/
def isEmptyExpression (cs : List Char) : Bool :=
  cs.all fun c => c == ' ' || c == '\t' || c == '\n' || c == '\x0c' || c == '\r'

/-- Checks a formatted string from literal part to field, or a format up to the brace that closes
its field, and yields the rest from there. Formats may hold fields with formats without fields. -/
def formattedRest (raw : Bool) (valid : List Char → Bool) :
    (fuel level : Nat) → List Char → Option (List Char)
  | 0, _, _ => none
  | fuel + 1, level, cs => do
    let (part, rest) ← literalPart raw (level > 0) (cs.length + 1) cs
    if !raw && !escapesValid part then none
    match rest with
    | '\x7b' :: inner =>
      if level ≥ 2 then none
      let (expression, rest) ← fieldExpression [] none (inner.length + 1) inner
      if isEmptyExpression expression || !valid ('(' :: expression ++ [')']) then none
      let rest := match rest with
        | '=' :: after => after.dropWhile (fun c => c == ' ' || (9 ≤ c.toNat && c.toNat ≤ 13))
        | other => other
      let rest ← match rest with
        | '!' :: conversion :: after =>
          if ['s', 'r', 'a'].contains conversion then some after else none
        | '!' :: [] => none
        | other => some other
      let rest ← match rest with
        | ':' :: format => formattedRest raw valid fuel (level + 1) format
        | other => some other
      match rest with
      | '\x7d' :: after => formattedRest raw valid fuel level after
      | _ => none
    | rest => if level = 0 && !rest.isEmpty then none else some rest

def StringLiteral.valid (expression : List Char → Bool) (s : StringLiteral) : Bool :=
  if s.bytes then s.body.all (·.toNat < 128) && (s.raw || byteEscapesValid s.body)
  else if s.formatted then
    (formattedRest s.raw expression (s.body.length + 1) 0 s.body).isSome
  else s.raw || escapesValid s.body

end TypeStubs.Source
