import TypeStubs.Inspection.Hints
import TypeStubs.Signature.ArgumentText
import TypeStubs.Signature.Docstring

/-! Signatures read from the lines of docstrings. -/

namespace TypeStubs

def genericArguments : List Argument :=
  [{ name := some "args", variadic := true }, { name := some "kwargs", keywordVariadic := true }]

def overloadsLine : String := "Overloaded function."

/-- The pattern of the first line of a docstring: a call, and perhaps an arrow and the result. The
name stands in it as it is. -/
def signaturePattern (name : String) : String :=
  "^" ++ name ++ "\\((?P<args>.*)\\)\\s*(->\\s*(?P<returns>.+))?$"

/-- The pattern of the signature of an overload: a number, a call, an arrow and the result. -/
def overloadPattern (name : String) : String :=
  "^(\\s*(?P<overload_number>\\d+).\\s*)" ++ name ++ "\\((?P<args>.*)\\)\\s*->\\s*(?P<returns>.+)$"

namespace Inspection

def hintOfText? : Option (List Char) → Inspection (Option Hint)
  | none => return none
  | some text => return some (← hintOfText text)

def expressionOfText? : Option (List Char) → Inspection (Option Expression)
  | none => return none
  | some text => return some (← expressionOfText text)

/-- The parameters from their texts, after the ones read so far. A slash makes all of those
positional only, a star all that follow keyword only. If a name is no name, the function takes
anything. -/
def argumentsOfTexts (read : List Argument) (keywordOnly : Bool) :
    List ArgumentText → Inspection (List Argument)
  | [] => return read
  | a :: as => do
    if trim a.name = ['/'] then
      argumentsOfTexts (read.map ({ · with positionOnly := true })) keywordOnly as
    else if trim a.name = ['*'] then argumentsOfTexts read true as
    else
      match ArgumentText.starredName? a.name with
      | none => return genericArguments
      | some (stars, name) =>
        let hint ← hintOfText? a.hint
        let default ← expressionOfText? a.default
        argumentsOfTexts (read ++ [{
          name := some (String.ofList name)
          keywordOnly
          variadic := stars = 1
          keywordVariadic := stars = 2
          default
          hint }]) keywordOnly as

def argumentsOfText (text : List Char) : Inspection (List Argument) :=
  match ArgumentText.split? text with
  | none => return genericArguments
  | some texts => argumentsOfTexts [] false texts

def patternOf (source : String) : Inspection Regex :=
  match Regex.read source with
  | .ok r => return r
  | .error .malformed => throw .badPattern
  | .error .tooManyTimes => throw .tooManyTimes

def groupText (c : Captures) (name : String) : Inspection (List Char) :=
  match c.named? name with
  | some text => return text
  | none => throw .missingText

def functionOfMatch (name : String) (c : Captures) (doc : List String) : Inspection Function := do
  let returns ← hintOfText? (c.named? "returns")
  let arguments ← argumentsOfText (← groupText c "args")
  return { name, arguments, returns, doc := docOfLines? doc }

def overloadOfMatch (name : String) (c : Captures) : Inspection Function := do
  let arguments ← argumentsOfText (← groupText c "args")
  let returns ← hintOfText (← groupText c "returns")
  let decorator := (← wellKnown "typing.overload").text
  return { name, arguments, returns := some returns, decorators := [decorator] }

/-- The lines before the overload with a number, and the overloads from it on. Signatures with
another number belong to the docstring before them. -/
def overloadsOfLines (pattern : Regex) (name : String) (number : Nat) :
    List String → Inspection (List String × List Function)
  | [] => return ([], [])
  | line :: lines => do
    match pattern.match? line.toList with
    | none =>
      let (doc, overloads) ← overloadsOfLines pattern name number lines
      return (line :: doc, overloads)
    | some c =>
      if c.named? "overload_number" = some (toString number).toList then
        let overload ← overloadOfMatch name c
        let (doc, overloads) ← overloadsOfLines pattern name (number + 1) lines
        return ([], { overload with doc := docOfLines? doc } :: overloads)
      else
        let (doc, overloads) ← overloadsOfLines pattern name number lines
        return (line :: doc, overloads)

def functionsOfLines (name : String) : List String → Inspection (List Function)
  | [] => return []
  | first :: lines => do
    let pattern ← patternOf (signaturePattern name)
    match pattern.match? first.toList with
    | none => return []
    | some c =>
      if lines.head? = some overloadsLine then
        let pattern ← patternOf (overloadPattern name)
        return (← overloadsOfLines pattern name 1 (lines.drop 1)).2
      else return [← functionOfMatch name c lines]

end Inspection

end TypeStubs
