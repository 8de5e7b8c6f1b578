import TypeStubs.Text.EnumText

/-! Removing the addresses of objects from texts. -/

namespace TypeStubs

/-- Words with one blank after each at the front of a text: the last of them with its blank, and
the rest of the text. `word` is the last one so far, `current` the start of the next. -/
def lastWord (word current : List Char) : List Char → List Char × List Char
  | [] => (word, current)
  | c :: cs =>
    if isWord c then lastWord word (current ++ [c]) cs
    else if isBlank c && !current.isEmpty then lastWord (current ++ [c]) [] cs
    else (word, current ++ c :: cs)

def isHexDigit (c : Char) : Bool :=
  c.isDigit || ('a' ≤ c && c ≤ 'f') || ('A' ≤ c && c ≤ 'F')

/-- Reads the text of an object with its address at the front of a text: the name of its type, and
the rest of the text. -/
def addressed? (cs : List Char) : Option (List Char × List Char) := do
  let cs ← dropFront? ['<'] cs
  let (name, cs) := cs.span fun c => isWord c || c == '.'
  let cs ← dropFront? " object ".toList cs
  let (word, cs) := lastWord [] [] cs
  let cs ← dropFront? ['0', 'x'] cs
  let (digits, cs) := cs.span isHexDigit
  let cs ← dropFront? ['>'] cs
  if name.isEmpty || digits.isEmpty || word != ['a', 't', ' '] then none
  return (name, cs)

/-- Leaves the addresses of objects out of a text. The first `skip` characters belong to the object
read last. -/
def withoutAddressesFrom : (skip : Nat) → List Char → List Char
  | _, [] => []
  | skip + 1, _ :: cs => withoutAddressesFrom skip cs
  | 0, c :: cs =>
    match addressed? (c :: cs) with
    | some (name, rest) =>
      '<' :: name ++ " object>".toList ++ withoutAddressesFrom (cs.length - rest.length) cs
    | none => c :: withoutAddressesFrom 0 cs

def withoutAddresses (s : String) : String := String.ofList (withoutAddressesFrom 0 s.toList)

end TypeStubs
