import TypeStubs.Stub.Basic

/-! Plain display forms of types, values, parameters and functions. They show everything that is
there, also what a stub leaves out. -/

namespace TypeStubs

def Expression.display : Expression → String
  | .value v => v.text
  | .invalid text => "Invalid python expression `" ++ text ++ "`"

mutual

def Hint.display : Hint → String
  | .type name none => name.text
  | .type name (some []) => name.text
  | .type name (some (p :: ps)) =>
    name.text ++ "[" ++ joinWith ", " (Hint.displayList (p :: ps)) ++ "]"
  | .expression e => e.display

def Hint.displayList : List Hint → List String
  | [] => []
  | a :: as => a.display :: Hint.displayList as

end

def TypeVariable.display (t : TypeVariable) : String :=
  t.name ++ " = typing.TypeVar(\"" ++ t.name ++ "\"" ++
    (if t.constraints.isEmpty then "" else ", ") ++
    joinWith ", " (t.constraints.map Hint.display) ++
    (match t.bound with | none => "" | some b => ", bound=" ++ b.display) ++
    (if t.covariant then ", covariant=True" else "") ++
    (if t.contravariant then ", contravariant=True" else "") ++ ")"

def Argument.displayName (a : Argument) : String := a.name.getD "None"

def Argument.stars (a : Argument) : String :=
  (if a.variadic then "*" else "") ++ (if a.keywordVariadic then "**" else "")

def Argument.display (a : Argument) : String :=
  a.stars ++ a.displayName ++
    (match a.hint with | none => "" | some t => ": " ++ t.display) ++
    (match a.default with | none => "" | some d => " = " ++ d.display)

def Function.display (f : Function) : String :=
  f.name ++ "(" ++ joinWith ", " (f.arguments.map Argument.display) ++ ") -> " ++
    (match f.returns with | none => "None" | some t => t.display)

end TypeStubs
