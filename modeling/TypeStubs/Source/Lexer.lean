import TypeStubs.CharSet.Identifier
import TypeStubs.Source.Token

/-! From text to tokens. A text with a malformed literal, a character that starts no token,
unbalanced brackets or inconsistent indentation has no tokens. -/

namespace TypeStubs.Source

/-- May be part of an identifier, as far as one character tells. -/
def isNameChar (c : Char) : Bool := c.isAlphanum || c == '_' || c.toNat ≥ 128

def isNameStart (c : Char) : Bool := c.isAlpha || c == '_' || c.toNat ≥ 128

def isHexDigit (c : Char) : Bool :=
  c.isDigit || ('a' ≤ c && c ≤ 'f') || ('A' ≤ c && c ≤ 'F')

def unifyLineEnds : List Char → List Char
  | [] => []
  | '\r' :: '\n' :: cs => '\n' :: unifyLineEnds cs
  | '\r' :: cs => '\n' :: unifyLineEnds cs
  | c :: cs => c :: unifyLineEnds cs

/-- The digits at the front and the rest. Single underscores may stand before digits; an underscore
without a digit behind it is an error. -/
def digits (test : Char → Bool) : List Char → Option (List Char × List Char)
  | [] => some ([], [])
  | '_' :: d :: cs =>
    if test d then do
      let (more, rest) ← digits test cs
      return (d :: more, rest)
    else none
  | c :: cs =>
    if test c then do
      let (more, rest) ← digits test cs
      return (c :: more, rest)
    else if c = '_' then none
    else some ([], c :: cs)

/-- A number may end before this text: no identifier starts here, save the keywords that can follow
a number. -/
def numberEnds (rest : List Char) : Bool :=
  ["and", "else", "for", "if", "in", "is", "or", "not"].any (fun k => k.toList.isPrefixOf rest) ||
    !rest.head?.any isNameChar

def finishNumber (kind : NumberKind) (rest : List Char) : Option (NumberKind × List Char) :=
  if numberEnds rest then some (kind, rest) else none

def radixNumber (test : Char → Bool) (rest : List Char) : Option (NumberKind × List Char) := do
  let (ds, rest) ← digits test rest
  if ds.isEmpty || rest.head?.any Char.isDigit then none else finishNumber .integer rest

def imaginaryMark (kind : NumberKind) : List Char → Option (NumberKind × List Char)
  | 'j' :: rest => finishNumber .imaginary rest
  | 'J' :: rest => finishNumber .imaginary rest
  | rest => finishNumber kind rest

def exponentPart (kind : NumberKind) (rest : List Char) : Option (NumberKind × List Char) :=
  match rest with
  | e :: after =>
    if e == 'e' || e == 'E' then
      let signed := after.head?.any (fun c => c == '+' || c == '-')
      let after := if signed then after.drop 1 else after
      if after.head?.any Char.isDigit then do
        let (_, rest) ← digits Char.isDigit after
        imaginaryMark .float rest
      else if signed then none
      else finishNumber kind rest
    else imaginaryMark kind rest
  | [] => some (kind, [])

def fractionPart (rest : List Char) : Option (NumberKind × List Char) :=
  if rest.head?.any Char.isDigit then do
    let (_, rest) ← digits Char.isDigit rest
    exponentPart .float rest
  else exponentPart .float rest

def maxIntegerDigits : Nat := 4300

/-- A number. Zeros in front are only allowed before a point, an exponent or the imaginary mark. -/
def number : List Char → Option (NumberKind × List Char)
  | '0' :: 'x' :: rest => radixNumber isHexDigit rest
  | '0' :: 'X' :: rest => radixNumber isHexDigit rest
  | '0' :: 'o' :: rest => radixNumber (fun c => '0' ≤ c && c ≤ '7') rest
  | '0' :: 'O' :: rest => radixNumber (fun c => '0' ≤ c && c ≤ '7') rest
  | '0' :: 'b' :: rest => radixNumber (fun c => c == '0' || c == '1') rest
  | '0' :: 'B' :: rest => radixNumber (fun c => c == '0' || c == '1') rest
  | '.' :: rest => fractionPart rest
  | cs => do
    let (ds, rest) ← digits Char.isDigit cs
    match rest with
    | '.' :: after => fractionPart after
    | _ =>
      let (kind, after) ← exponentPart .integer rest
      let badZeros := ds.head? == some '0' && ds.any (· != '0')
      let tooLong := ds.head? != some '0' && ds.length > maxIntegerDigits
      if kind = .integer && (badZeros || tooLong) then none
      else return (kind, after)

/-- The characters up to the quote that closes a string of one line, and the rest behind it. A
backslash keeps the next character from closing. -/
def lineString (quote : Char) : List Char → Option (List Char × List Char)
  | [] => none
  | '\n' :: _ => none
  | ['\\'] => none
  | '\\' :: c :: cs => do
    let (body, rest) ← lineString quote cs
    return ('\\' :: c :: body, rest)
  | c :: cs =>
    if c = quote then some ([], cs)
    else do
      let (body, rest) ← lineString quote cs
      return (c :: body, rest)

def blockString (quote : Char) : List Char → Option (List Char × List Char)
  | [] => none
  | ['\\'] => none
  | '\\' :: c :: cs => do
    let (body, rest) ← blockString quote cs
    return ('\\' :: c :: body, rest)
  | c :: cs =>
    if [quote, quote, quote].isPrefixOf (c :: cs) then some ([], cs.drop 2)
    else do
      let (body, rest) ← blockString quote cs
      return (c :: body, rest)

def stringMarks : List String := ["", "b", "r", "u", "f", "br", "rb", "fr", "rf"]

/-- A string with its letters, if the text starts with one. The inner option is empty if the string
is not closed. -/
def stringToken? (cs : List Char) : Option (Option (Token × List Char)) :=
  let letters := cs.takeWhile Char.isAlpha
  let mark := letters.map Char.toLower
  match cs.drop letters.length with
  | quote :: rest =>
    if (quote == '\'' || quote == '"') && stringMarks.contains (String.ofList mark) then
      let scanned :=
        if [quote, quote].isPrefixOf rest then blockString quote (rest.drop 2)
        else lineString quote rest
      some (scanned.map fun (body, rest) =>
        (.string ⟨mark.contains 'r', mark.contains 'b', mark.contains 'f', body⟩, rest))
    else none
  | [] => none

def token (cs : List Char) : Option (Token × List Char) :=
  match stringToken? cs with
  | some result => result
  | none =>
    match cs with
    | [] => none
    | c :: rest =>
      if isNameStart c then
        let word := cs.takeWhile isNameChar
        let text := String.ofList word
        if keywords.contains text then some (.keyword text, cs.drop word.length)
        else if isIdentifierChars word then some (.name text, cs.drop word.length)
        else none
      else if c.isDigit || (c == '.' && rest.head?.any Char.isDigit) then
        (number cs).map fun (kind, rest) => (.number kind, rest)
      else do
        let text ← operators.find? fun o => o.toList.isPrefixOf cs
        return (.op text, cs.drop text.length)

def closing? : String → Option String
  | "(" => some ")"
  | "[" => some "]"
  | "\x7b" => some "\x7d"
  | _ => none

def maxBrackets : Nat := 200

def maxIndents : Nat := 100

/-- The columns that the blanks at the front of a line reach, with tab stops at every eighth and at
every column, and the rest of the line. If the line is continued, the column of the first
continuation counts, unless it is the first column. -/
def indentation : (column other continued : Nat) → List Char → Option (Nat × Nat × List Char)
  | column, other, continued, ' ' :: cs => indentation (column + 1) (other + 1) continued cs
  | column, other, continued, '\t' :: cs =>
    indentation ((column / 8 + 1) * 8) (other + 1) continued cs
  | _, _, continued, '\x0c' :: cs => indentation 0 0 continued cs
  | column, other, continued, '\\' :: '\n' :: c :: cs =>
    indentation column other (if continued = 0 then column else continued) (c :: cs)
  | _, _, _, '\\' :: _ => none
  | column, other, continued, cs =>
    some (if continued = 0 then (column, other, cs) else (continued, continued, cs))

/-- What is known while a text is read: the closing brackets that are due, innermost first, the
columns of the open blocks, innermost first, and whether a line starts here. -/
structure LexState where
  brackets : List String := []
  indents : List (Nat × Nat) := []
  lineStart : Bool := true

/-- Enters or leaves blocks so that the block at hand starts in the given column. The two ways to
count columns must agree on which blocks these are. -/
def enterColumn (column other : Nat) (indents : List (Nat × Nat)) :
    Option (List Token × List (Nat × Nat)) :=
  let (current, currentOther) := indents.headD (0, 0)
  if column = current then if other = currentOther then some ([], indents) else none
  else if column > current then
    if other > currentOther && indents.length + 1 < maxIndents then
      some ([.indent], (column, other) :: indents)
    else none
  else
    let kept := indents.dropWhile (fun i => i.1 > column)
    let (base, baseOther) := kept.headD (0, 0)
    if base = column && baseOther = other then
      some (List.replicate (indents.length - kept.length) .dedent, kept)
    else none

def trackBrackets (brackets : List String) : Token → Option (List String)
  | .op text =>
    match closing? text with
    | some close => if brackets.length < maxBrackets then some (close :: brackets) else none
    | none =>
      if [")", "]", "\x7d"].contains text then
        match brackets with
        | due :: rest => if due = text then some rest else none
        | [] => none
      else some brackets
  | _ => some brackets

def lexFrom : (fuel : Nat) → LexState → List Char → Option (List Token)
  | 0, _, _ => none
  | fuel + 1, state, cs =>
    if state.lineStart && state.brackets.isEmpty then
      match indentation 0 0 0 cs with
      | none => none
      | some (_, _, []) => some (List.replicate state.indents.length .dedent)
      | some (_, _, '\n' :: rest) => lexFrom fuel state rest
      | some (_, _, '#' :: rest) => lexFrom fuel state ((rest.dropWhile (· != '\n')).drop 1)
      | some (column, other, rest) => do
        let (tokens, indents) ← enterColumn column other state.indents
        let more ← lexFrom fuel { state with indents, lineStart := false } rest
        return tokens ++ more
    else
      match cs with
      | [] => none
      | ' ' :: rest => lexFrom fuel state rest
      | '\t' :: rest => lexFrom fuel state rest
      | '\x0c' :: rest => lexFrom fuel state rest
      | '#' :: rest => lexFrom fuel state (rest.dropWhile (· != '\n'))
      | '\n' :: rest =>
        if state.brackets.isEmpty then
          (lexFrom fuel { state with lineStart := true } rest).map (.newline :: ·)
        else lexFrom fuel state rest
      | '\\' :: rest =>
        match rest with
        | '\n' :: c :: rest => lexFrom fuel state (c :: rest)
        | _ => none
      | _ => do
        let (t, rest) ← token cs
        let brackets ← trackBrackets state.brackets t
        let more ← lexFrom fuel { state with brackets } rest
        return t :: more

def lex? (text : List Char) : Option (List Token) :=
  let cs := unifyLineEnds text
  let cs := if cs.isEmpty || cs.getLast? == some '\n' then cs else cs ++ ['\n']
  if cs.contains '\x00' then none else lexFrom (2 * cs.length + 2) {} cs

end TypeStubs.Source
