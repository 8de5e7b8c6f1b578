import TypeStubs.Json
import TypeStubs.Text.EnumText

/-! Reading structured data from its text. -/

namespace TypeStubs.Json

def isGap (c : Char) : Bool := c == ' ' || c == '\t' || c == '\n' || c == '\r'

def hexDigit? (c : Char) : Option Nat :=
  if c.isDigit then some (c.toNat - 48)
  else if 'a' ≤ c && c ≤ 'f' then some (c.toNat - 87)
  else if 'A' ≤ c && c ≤ 'F' then some (c.toNat - 55)
  else none

def hexUnit? (a b c d : Char) : Option Nat := do
  return (((← hexDigit? a) * 16 + (← hexDigit? b)) * 16 + (← hexDigit? c)) * 16 + (← hexDigit? d)

def escaped? (c : Char) : Option Char :=
  match c with
  | '"' => some '"'
  | '\\' => some '\\'
  | '/' => some '/'
  | 'b' => some '\x08'
  | 'f' => some '\x0c'
  | 'n' => some '\n'
  | 'r' => some '\r'
  | 't' => some '\t'
  | _ => none

def pairChar? (high low : Nat) : Option Char :=
  if 0xD800 ≤ high && high < 0xDC00 && 0xDC00 ≤ low && low < 0xE000 then
    some (Char.ofNat (0x10000 + (high - 0xD800) * 0x400 + (low - 0xDC00)))
  else none

/-- The character of a single unit. Half of a pair stands for no character of its own. -/
def unitChar (n : Nat) : Char :=
  if 0xD800 ≤ n && n < 0xE000 then '�' else Char.ofNat n

def readText? : List Char → Option (List Char × List Char)
  | '"' :: rest => some ([], rest)
  | '\\' :: 'u' :: a :: b :: c :: d :: '\\' :: 'u' :: e :: f :: g :: h :: rest => do
    let first ← hexUnit? a b c d
    let second ← hexUnit? e f g h
    match pairChar? first second with
    | some char =>
      let (cs, rest) ← readText? rest
      return (char :: cs, rest)
    | none =>
      let (cs, rest) ← readText? ('\\' :: 'u' :: e :: f :: g :: h :: rest)
      return (unitChar first :: cs, rest)
  | '\\' :: 'u' :: a :: b :: c :: d :: rest => do
    let unit ← hexUnit? a b c d
    let (cs, rest) ← readText? rest
    return (unitChar unit :: cs, rest)
  | '\\' :: c :: rest => do
    let char ← escaped? c
    let (cs, rest) ← readText? rest
    return (char :: cs, rest)
  | c :: rest => do
    let (cs, rest) ← readText? rest
    return (c :: cs, rest)
  | [] => none

def digitsValue (cs : List Char) : Nat := cs.foldl (fun n c => n * 10 + (c.toNat - 48)) 0

def readExponent (cs : List Char) : Int × List Char :=
  match cs with
  | mark :: rest =>
    if mark == 'e' || mark == 'E' then
      let (negative, rest) := match rest with
        | '-' :: rest => (true, rest)
        | '+' :: rest => (false, rest)
        | rest => (false, rest)
      let (digits, rest) := rest.span Char.isDigit
      let n : Int := digitsValue digits
      (if negative then -n else n, rest)
    else (0, cs)
  | [] => (0, cs)

def readNumber? (cs : List Char) : Option (Json × List Char) :=
  let (negative, cs) := match cs with
    | '-' :: rest => (true, rest)
    | cs => (false, cs)
  let (whole, cs) := cs.span Char.isDigit
  let (fraction, cs) := match cs with
    | '.' :: rest => rest.span Char.isDigit
    | cs => ([], cs)
  let (exponent, cs) := readExponent cs
  if whole.isEmpty then none
  else
    let n : Int := digitsValue (whole ++ fraction)
    some (.number (if negative then -n else n) (exponent - fraction.length), cs)

mutual

/-- Reads data at the front of a text. The number of steps bounds the nesting and the length of
lists. -/
def readValue? : Nat → List Char → Option (Json × List Char)
  | 0, _ => none
  | n + 1, cs =>
    match cs.dropWhile isGap with
    | '"' :: rest => do
      let (s, rest) ← readText? rest
      return (.text (String.ofList s), rest)
    | '[' :: rest =>
      match rest.dropWhile isGap with
      | ']' :: rest => some (.list [], rest)
      | rest => do
        let (items, rest) ← readItems? n rest
        return (.list items, rest)
    | '\x7b' :: rest =>
      match rest.dropWhile isGap with
      | '\x7d' :: rest => some (.record [], rest)
      | rest => do
        let (fields, rest) ← readFields? n rest
        return (.record fields, rest)
    | 'n' :: rest => (dropFront? "ull".toList rest).map (.null, ·)
    | 't' :: rest => (dropFront? "rue".toList rest).map (.bool true, ·)
    | 'f' :: rest => (dropFront? "alse".toList rest).map (.bool false, ·)
    | cs => readNumber? cs

def readItems? : Nat → List Char → Option (List Json × List Char)
  | 0, _ => none
  | n + 1, cs => do
    let (item, rest) ← readValue? n cs
    match rest.dropWhile isGap with
    | ',' :: rest =>
      let (items, rest) ← readItems? n rest
      return (item :: items, rest)
    | ']' :: rest => return ([item], rest)
    | _ => none

def readFields? : Nat → List Char → Option (List (String × Json) × List Char)
  | 0, _ => none
  | n + 1, cs =>
    match cs.dropWhile isGap with
    | '"' :: rest => do
      let (name, rest) ← readText? rest
      let rest ← dropFront? [':'] (rest.dropWhile isGap)
      let (value, rest) ← readValue? n rest
      match rest.dropWhile isGap with
      | ',' :: rest =>
        let (fields, rest) ← readFields? n rest
        return ((String.ofList name, value) :: fields, rest)
      | '\x7d' :: rest => return ([(String.ofList name, value)], rest)
      | _ => none
    | _ => none

end

def ofText? (s : String) : Option Json := do
  let cs := s.toList
  let (value, rest) ← readValue? (2 * cs.length + 2) cs
  if rest.all isGap then return value else none

end TypeStubs.Json
